import FeatureForwarding.Proofs.Forwarding.Account
import FeatureForwarding.Proofs.Forwarding.Knowledge
import FeatureForwarding.Proofs.Registry.Scan

/-! What a run remembers. After a scan everybody who may speak for a package has been heard, and no
visit changes that; so no use is forgotten on the way, and in the end the registry knows of each
package that was heard what its manifest activates as the run leaves it behind. -/

namespace FeatureForwarding.Forwarding

variable {switches : List Switch} {r : Registry} {m m' : Manifest} {ms : List Manifest} {i : Nat}
  {name : String}

/-! ### No use is forgotten -/

/-- Whoever may speak for a package has been heard. -/
def Hears (r : Registry) (m : Manifest) : Prop := ∀ name, r.Accepts m name → r.Heard m name

theorem hears_scan (hfresh : r.Fresh) (hdistinct : Distinct ms) (hm : m ∈ ms) :
    Hears (r.scan ms).1 m := by
  intro name haccepts
  obtain ⟨first, hfirst⟩ : ∃ first, Registry.owner? ms name = some first :=
    Option.isSome_iff_exists.1 (List.find?_isSome.2 ⟨m, hm, by simpa using haccepts.1⟩)
  have hsame : first.path.Same m.path := haccepts.2 _ (Registry.scan_of_owner hfresh hfirst).1
  obtain rfl := hdistinct.eq_of_same (List.mem_of_find?_eq_some hfirst) hm hsame
  exact Registry.heard_scan hfresh hfirst

theorem hears_registryAfter (hpath : ¬m'.path.Same m.path) (h : Hears r m') :
    Hears (registryAfter switches r m) m' := by
  intro name haccepts
  refine heard_registryAfter hpath (h name ?_)
  unfold registryAfter at haccepts
  split at haccepts
  · exact haccepts
  · have hgrows := grows_visit switches r m
    by_cases hvisited : ∃ own, r.Accepts (visit switches r m).manifest own
    · obtain ⟨own, hown⟩ := hvisited
      obtain ⟨-, hdefined⟩ := Registry.refreshDirect_of_accepts hown
      have hother : name ≠ own := by
        rintro rfl
        have hsame := haccepts.2 _ ((hdefined name).trans (if_pos rfl))
        rw [hgrows.path] at hsame
        exact hpath hsame.symm
      refine ⟨haccepts.1, fun first hfirst => haccepts.2 first ?_⟩
      rw [hdefined, if_neg hother, hfirst]
    · rwa [Registry.refreshDirect_of_not_accepts (not_exists.1 hvisited)] at haccepts

theorem hears_visit (h : Hears r m) :
    Hears (registryAfter switches r m) (visit switches r m).manifest := by
  have hgrows := grows_visit switches r m
  intro name haccepts
  refine heard_visit (h name ((Registry.accepts_of_grows hgrows).1 ?_))
  unfold registryAfter at haccepts
  split at haccepts
  · exact haccepts
  · by_cases hvisited : ∃ own, r.Accepts (visit switches r m).manifest own
    · obtain ⟨own, hown⟩ := hvisited
      obtain rfl := Option.some.inj (haccepts.1.symm.trans hown.1)
      exact hown
    · rwa [Registry.refreshDirect_of_not_accepts (not_exists.1 hvisited)] at haccepts

theorem hears_visit_of_not_same (hpath : ¬m'.path.Same m.path) (h : Hears r m') :
    ¬m'.path.Same (visit switches r m).manifest.path ∧ Hears (registryAfter switches r m) m' := by
  refine ⟨?_, hears_registryAfter hpath h⟩
  rwa [(grows_visit switches r m).path]

/-- A visit forgets no use. -/
theorem uses_registryAfter (h : Hears r m) {s : Switch} (huses : r.uses name s) :
    (registryAfter switches r m).uses name s := by
  unfold registryAfter
  split
  · exact huses
  · have hgrows := grows_visit switches r m
    by_cases hvisited : ∃ own, r.Accepts (visit switches r m).manifest own
    · obtain ⟨own, hown⟩ := hvisited
      rw [(Registry.refreshDirect_of_accepts hown).1]
      split
      · next hname =>
        subst hname
        have hheard := h name ((Registry.accepts_of_grows hgrows).1 hown)
        rw [hheard.uses] at huses
        exact hgrows.activates_mono huses
      · exact huses
    · rwa [Registry.refreshDirect_of_not_accepts (not_exists.1 hvisited)]

/-- Nor does a pass, and those who may speak are heard after it as before. -/
theorem uses_pass (switches : List Switch) (hdistinct : Distinct ms) (h : ∀ m ∈ ms, Hears r m) :
    (∀ m' ∈ (pass switches r ms).manifests, Hears (pass switches r ms).registry m') ∧
      (∀ name s, r.uses name s → (pass switches r ms).registry.uses name s) ∧
      ∀ e ∈ meetings switches r ms, ∀ name s, e.1.uses name s →
        (pass switches r ms).registry.uses name s := by
  induction ms generalizing r with
  | nil => exact ⟨by simp [pass], fun _ _ => id, by simp [meetings]⟩
  | cons m rest ih =>
    obtain ⟨hm, hrest⟩ := List.forall_mem_cons.1 h
    have hlater : ∀ m' ∈ rest, Hears (registryAfter switches r m) m' := fun m' hm' =>
      hears_registryAfter (fun hsame => hdistinct.not_same m' hm' hsame.symm) (hrest m' hm')
    obtain ⟨hpassed, huses, hmeetings⟩ := ih hdistinct.tail hlater
    have hvisited : Hears (pass switches (registryAfter switches r m) rest).registry
        (visit switches r m).manifest := by
      have hpath : ∀ other ∈ rest, ¬(visit switches r m).manifest.path.Same other.path := by
        rw [(grows_visit switches r m).path]
        exact hdistinct.not_same
      exact (pass_keeps (Q := fun r' => Hears r' (visit switches r m).manifest)
        (R := fun other => ¬(visit switches r m).manifest.path.Same other.path)
        hears_visit_of_not_same hpath (hears_visit hm)).2.1
    have hfirst : ∀ name s, r.uses name s →
        (pass switches (registryAfter switches r m) rest).registry.uses name s :=
      fun name s hs => huses name s (uses_registryAfter hm hs)
    rw [pass_cons, meetings]
    exact ⟨List.forall_mem_cons.2 ⟨hvisited, hpassed⟩, hfirst,
      List.forall_mem_cons.2 ⟨hfirst, hmeetings⟩⟩

/-- What some registry of a run knew is known in the end. -/
theorem uses_passes (switches : List Switch) (hdistinct : Distinct ms) (h : ∀ m ∈ ms, Hears r m)
    (limit : Nat) :
    (∀ name s, r.uses name s → (passes switches limit r ms).registry.uses name s) ∧
      ∀ i, ∀ r' ∈ met switches limit r ms i, ∀ name s, r'.uses name s →
        (passes switches limit r ms).registry.uses name s := by
  induction limit generalizing r ms with
  | zero =>
    obtain ⟨-, huses, hmeetings⟩ := uses_pass switches hdistinct h
    refine ⟨huses, fun i r' hr' => ?_⟩
    rw [met, Option.mem_toList] at hr'
    obtain ⟨e, he, rfl⟩ := Option.map_eq_some_iff.1 hr'
    exact hmeetings e (List.mem_of_getElem? he)
  | succ limit ih =>
    obtain ⟨hpassed, huses, hmeetings⟩ := uses_pass switches hdistinct h
    obtain ⟨hlater, hmet⟩ := ih (distinct_pass hdistinct r) hpassed
    rw [(left_passes switches limit r ms).2]
    refine ⟨fun name s hs => hlater name s (huses name s hs), fun i r' hr' name s hs => ?_⟩
    rw [met, List.mem_append] at hr'
    rcases hr' with hr' | hr'
    · obtain ⟨e, he, rfl⟩ := Option.map_eq_some_iff.1 (Option.mem_toList.1 hr')
      exact hlater name s (hmeetings e (List.mem_of_getElem? he) name s hs)
    · split at hr'
      · exact absurd hr' List.not_mem_nil
      · exact hmet i r' hr' name s hs

theorem uses_settle_of_scan (hfresh : r.Fresh) {all : List Manifest} (hall : Distinct all)
    (hms : ms ⊆ all) (hdistinct : Distinct ms) {s : Switch} (h : (r.scan all).1.uses name s) :
    (settle switches (r.scan all).1 ms).registry.uses name s :=
  (uses_passes switches hdistinct (fun _ hm => hears_scan hfresh hall (hms hm)) _).1 name s h

/-! ### In the end -/

/-- How a run leaves a manifest behind: one that it does not select or cannot write stays as it is. -/
inductive Leaves (switches : List Switch) (r : Registry) (ms : List Manifest) (m : Manifest) :
    Manifest → Prop
  | settled {i : Nat} {m' : Manifest} (place : ms[i]? = some m) (writable : m.hasComments = false)
      (result : (settle switches r ms).manifests[i]? = some m') : Leaves switches r ms m m'
  | untouched (h : m ∉ ms ∨ m.hasComments) : Leaves switches r ms m m

/-- Who was heard at the start is heard in the end, as the run leaves it behind. -/
theorem heard_settle (switches : List Switch) {all : List Manifest} (hall : Distinct all) (hms : ms ⊆ all)
    (hdistinct : Distinct ms) (hm : m ∈ all) (h : r.Heard m name) :
    ∃ m', Leaves switches r ms m m' ∧ (settle switches r ms).registry.Heard m' name := by
  have hrounds := rounds_settle switches hdistinct r
  by_cases hmem : m ∈ ms
  · obtain ⟨i, hi⟩ := List.mem_iff_getElem?.1 hmem
    obtain ⟨m', hm', hheard⟩ : ∃ m',
      (passes switches (passLimit switches ms) r ms).manifests[i]? = some m' ∧
        (settle switches r ms).registry.Heard m' name := heard_passes hdistinct hi h _
    by_cases hc : m.hasComments
    · have hwaits := (hrounds.findingsAt_of_hasComments hdistinct hi hc).1
      obtain rfl := Option.some.inj (hwaits.symm.trans hm')
      exact ⟨m, .untouched (.inr hc), hheard⟩
    · have hc : m.hasComments = false := by simpa using hc
      obtain ⟨m₀, hm₀, hgrows⟩ := hrounds.grows hm'
      obtain rfl := Option.some.inj (hi.symm.trans hm₀)
      exact ⟨m', .settled hi hc (getElem?_settle_of_passes hm' (hgrows.hasComments.trans hc)), hheard⟩
  · refine ⟨m, .untouched (.inl hmem), heard_of_not_same (fun other hother hsame => hmem ?_) h _⟩
    exact hall.eq_of_same hm (hms hother) hsame ▸ hother

/-- The manifest that supplied a fact to the scan was heard by it. -/
theorem heard_of_supplies (hfresh : r.Fresh) (hdistinct : Distinct ms) (hm : m ∈ ms)
    (h : (r.scan ms).1.Supplies m name) : (r.scan ms).1.Heard m name := by
  obtain ⟨first, hfirst, hsame⟩ := Registry.exists_owner_of_supplies hfresh h
  obtain rfl := hdistinct.eq_of_same (List.mem_of_find?_eq_some hfirst) hm hsame
  exact Registry.heard_scan hfresh hfirst

end FeatureForwarding.Forwarding
