import FeatureForwarding.Proofs.Forwarding.Tokens

/-! What the registry knows during a run. A manifest that was heard at the start is heard in the end
as it has become, whether it took part or not; of a package that no manifest of the run names, the
passes learn nothing and forget nothing. -/

namespace FeatureForwarding.Forwarding

variable {switches : List Switch} {r : Registry} {m m' : Manifest} {ms : List Manifest} {i : Nat}
  {name : String}

/-! ### What every visit keeps -/

section Kept

variable {Q : Registry → Prop} {R : Manifest → Prop}
  (hvisit : ∀ {r : Registry} {m : Manifest}, R m → Q r →
    R (visit switches r m).manifest ∧ Q (registryAfter switches r m))
include hvisit

theorem pass_keeps (hms : ∀ m ∈ ms, R m) (hr : Q r) :
    (∀ m ∈ (pass switches r ms).manifests, R m) ∧ Q (pass switches r ms).registry ∧
      ∀ e ∈ meetings switches r ms, Q e.1 := by
  induction ms generalizing r with
  | nil => exact ⟨by simp [pass], hr, by simp [meetings]⟩
  | cons m rest ih =>
    obtain ⟨hvisited, hnext⟩ := hvisit (hms m List.mem_cons_self) hr
    obtain ⟨hrest, hlast, hmeetings⟩ := ih (fun m' hm' => hms m' (List.mem_cons_of_mem _ hm')) hnext
    rw [pass_cons, meetings]
    exact ⟨List.forall_mem_cons.2 ⟨hvisited, hrest⟩, hlast, List.forall_mem_cons.2 ⟨hr, hmeetings⟩⟩

/-- What every visit keeps holds in the end and whenever a manifest is visited. -/
theorem passes_keep (hms : ∀ m ∈ ms, R m) (hr : Q r) (limit : Nat) :
    (∀ m ∈ (passes switches limit r ms).manifests, R m) ∧ Q (passes switches limit r ms).registry ∧
      ∀ i, ∀ r' ∈ met switches limit r ms i, Q r' := by
  have hmeeting {r : Registry} {ms : List Manifest} (h : ∀ e ∈ meetings switches r ms, Q e.1)
    (i : Nat) :
      ∀ r' ∈ ((meetings switches r ms)[i]?.map Prod.fst).toList, Q r' := by
    intro r' hr'
    rw [Option.mem_toList] at hr'
    obtain ⟨e, he, rfl⟩ := Option.map_eq_some_iff.1 hr'
    exact h e (List.mem_of_getElem? he)
  induction limit generalizing r ms with
  | zero =>
    obtain ⟨hpassed, hlast, hmeetings⟩ := pass_keeps hvisit hms hr
    exact ⟨hpassed, hlast, hmeeting hmeetings⟩
  | succ limit ih =>
    obtain ⟨hpassed, hlast, hmeetings⟩ := pass_keeps hvisit hms hr
    obtain ⟨hfinal, hlater, hmet⟩ := ih hpassed hlast
    rw [passes]
    split
    · next hadded =>
      refine ⟨hpassed, hlast, fun i r' hr' => ?_⟩
      rw [met, if_pos hadded, List.append_nil] at hr'
      exact hmeeting hmeetings i r' hr'
    · next hadded =>
      refine ⟨hfinal, hlater, fun i r' hr' => ?_⟩
      rw [met, if_neg hadded, List.mem_append] at hr'
      exact hr'.elim (hmeeting hmeetings i r') (hmet i r')

end Kept

/-- Of a package that none of the manifests names, all registries of a run know the same. -/
theorem uses_of_unnamed (h : ∀ m ∈ ms, m.packageName? ≠ some name) (r : Registry) (limit : Nat) :
    (∀ s, (passes switches limit r ms).registry.uses name s = r.uses name s) ∧
      ∀ i, ∀ r' ∈ met switches limit r ms i, ∀ s, r'.uses name s = r.uses name s := by
  refine (passes_keep (Q := fun r' => ∀ s, r'.uses name s = r.uses name s)
    (R := fun m => m.packageName? ≠ some name)
    (fun {r₁ m} hm hr₁ => ⟨?_, ?_⟩) h (fun _ => rfl) limit).2
  · rwa [(grows_visit switches r₁ m).packageName?]
  · unfold registryAfter
    split
    · exact hr₁
    · by_cases haccepts : ∃ own, r₁.Accepts (visit switches r₁ m).manifest own
      · obtain ⟨own, hown⟩ := haccepts
        have hother : name ≠ own := by
          rintro rfl
          exact hm ((grows_visit switches r₁ m).packageName?.symm.trans hown.1)
        intro s
        rw [(Registry.refreshDirect_of_accepts hown).1, if_neg hother, hr₁]
      · rw [Registry.refreshDirect_of_not_accepts (not_exists.1 haccepts)]
        exact hr₁

/-! ### Who was heard -/

theorem heard_registryAfter (hpath : ¬m'.path.Same m.path) (h : r.Heard m' name) :
    (registryAfter switches r m).Heard m' name := by
  unfold registryAfter
  split
  · exact h
  · refine (Registry.heard_refreshDirect_iff ?_).2 h
    rwa [(grows_visit switches r m).path]

theorem heard_visit_of_not_same (hpath : ¬m'.path.Same m.path) (h : r.Heard m' name) :
    ¬m'.path.Same (visit switches r m).manifest.path ∧
      (registryAfter switches r m).Heard m' name := by
  refine ⟨?_, heard_registryAfter hpath h⟩
  rwa [(grows_visit switches r m).path]

/-- A manifest that takes no part stays heard. -/
theorem heard_of_not_same (hpath : ∀ other ∈ ms, ¬m.path.Same other.path) (h : r.Heard m name)
    (limit : Nat) :
    (passes switches limit r ms).registry.Heard m name := by
  exact (passes_keep (Q := fun r' => r'.Heard m name) (R := fun other => ¬m.path.Same other.path)
    heard_visit_of_not_same hpath h limit).2.1

/-- After its visit a manifest is heard as it is then. -/
theorem heard_visit (h : r.Heard m name) :
    (registryAfter switches r m).Heard (visit switches r m).manifest name := by
  unfold registryAfter
  split
  · next hadded => rwa [manifest_visit_of_added hadded]
  · have hgrows := grows_visit switches r m
    refine Registry.heard_refreshDirect ⟨hgrows.packageName?.trans h.package, ?_⟩
    rw [hgrows.path]
    exact h.accepts.2

theorem heard_pass (hdistinct : Distinct ms) (hm : ms[i]? = some m) (h : r.Heard m name) :
    ∃ m', (pass switches r ms).manifests[i]? = some m' ∧
      (pass switches r ms).registry.Heard m' name := by
  induction ms generalizing r i with
  | nil => exact absurd hm (by simp)
  | cons first rest ih =>
    rw [pass_cons]
    cases i with
    | zero =>
      obtain rfl := Option.some.inj hm
      refine ⟨_, rfl, ?_⟩
      have hpath : ∀ other ∈ rest, ¬(visit switches r first).manifest.path.Same other.path := by
        rw [(grows_visit switches r first).path]
        exact hdistinct.not_same
      exact (pass_keeps (Q := fun r' => r'.Heard _ name)
        (R := fun other => ¬(visit switches r first).manifest.path.Same other.path)
        heard_visit_of_not_same hpath (heard_visit h)).2.1
    | succ i =>
      have hpath : ¬m.path.Same first.path := fun hsame =>
        hdistinct.not_same m (List.mem_of_getElem? hm) hsame.symm
      exact ih hdistinct.tail hm (heard_registryAfter hpath h)

/-- What the registry has heard of the manifest at a place, it has heard again in the end. -/
theorem heard_passes (hdistinct : Distinct ms) (hm : ms[i]? = some m) (h : r.Heard m name)
    (limit : Nat) :
    ∃ m', (passes switches limit r ms).manifests[i]? = some m' ∧
      (passes switches limit r ms).registry.Heard m' name := by
  induction limit generalizing r ms m with
  | zero => exact heard_pass hdistinct hm h
  | succ limit ih =>
    obtain ⟨m₁, hm₁, hheard⟩ : ∃ m₁, (pass switches r ms).manifests[i]? = some m₁ ∧
        (pass switches r ms).registry.Heard m₁ name := heard_pass hdistinct hm h
    obtain ⟨hmanifests, hregistry⟩ := left_passes switches limit r ms
    rw [hmanifests, hregistry]
    exact ih (distinct_pass hdistinct r) hm₁ hheard

end FeatureForwarding.Forwarding
