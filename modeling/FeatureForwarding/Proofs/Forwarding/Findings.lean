import FeatureForwarding.Forwarding.Check
import FeatureForwarding.Proofs.Manifest.Growth

/-! What a check finds. A missing token is found once, and the first entry of its key whose
package uses the switch decides whether it counts as optional. The findings depend on the
registry only through the checked switches, and when a manifest grows they lose what the new
tokens answer and nothing else. -/

namespace FeatureForwarding

namespace Finding

/-- The dependency and the switch of a finding about a missing token. -/
def token? : Finding → Option (String × Switch)
  | .missingForwarding _ dependency s _ _ => some (dependency, s)
  | _ => none

/-- The package that a finding of a check is about. -/
def package? : Finding → Option String
  | .missingDefaultFeatures package _ => some package
  | .missingForwarding package _ _ _ _ => some package
  | _ => none

end Finding

namespace Registry

/-- Both registries know the same about the switches in question. -/
def Agree (switches : List Switch) (r r' : Registry) : Prop :=
  ∀ name, ∀ s ∈ switches, r.uses name s = r'.uses name s

namespace Agree

variable {switches : List Switch} {r r' r'' : Registry}

theorem refl (switches : List Switch) (r : Registry) : Agree switches r r := fun _ _ _ => rfl

theorem symm (h : Agree switches r r') : Agree switches r' r := fun name s hs => (h name s hs).symm

theorem trans (h : Agree switches r r') (h' : Agree switches r' r'') : Agree switches r r'' :=
  fun name s hs => (h name s hs).trans (h' name s hs)

end Agree

end Registry

namespace Forwarding

variable {r r' : Registry} {switches : List Switch} {m m' : Manifest}

/-- The first entry of a key whose package uses the switch. -/
def firstUse? (r : Registry) (m : Manifest) (s : Switch) (key : String) : Option Dependency :=
  m.dependencies.find? fun d => d.key = key ∧ r.uses d.package s

theorem uses_congr (h : Registry.Agree switches r r') (m : Manifest) :
    uses r switches m = uses r' switches m := by
  unfold uses
  congr 1
  funext d
  rw [List.filter_congr (h d.package)]

theorem findings_congr (h : Registry.Agree switches r r') (m : Manifest) :
    findings r switches m = findings r' switches m := by
  rw [findings, findings, uses_congr h]

/-- Of the uses of one entry only the switch matters. -/
theorem find?_map_pair (d : Dependency) (used : List Switch) (s : Switch) (key : String) :
    (used.map fun s => (d, s)).find? (fun u => u.1.key = key ∧ u.2 = s) =
      if d.key = key ∧ s ∈ used then some (d, s) else none := by
  induction used with
  | nil => simp
  | cons s' used ih =>
    rw [List.map_cons, List.find?_cons, ih]
    by_cases hkey : d.key = key <;> by_cases hs : s = s' <;> simp [hkey, hs, eq_comm (a := s')]

theorem find?_uses (r : Registry) (m : Manifest) {s : Switch} (hs : s ∈ switches) (key : String) :
    (uses r switches m).find? (fun u => u.1.key = key ∧ u.2 = s) =
      (firstUse? r m s key).map (·, s) := by
  unfold uses firstUse?
  induction m.dependencies with
  | nil => rfl
  | cons d rest ih =>
    have hmem : s ∈ switches.filter (r.uses d.package) ↔ r.uses d.package s := by simp [hs]
    rw [List.flatMap_cons, List.find?_append, List.find?_cons, ih, find?_map_pair]
    by_cases hd : d.key = key ∧ r.uses d.package s
    · rw [if_pos ⟨hd.1, hmem.2 hd.2⟩, decide_eq_true hd]
      rfl
    · rw [if_neg fun h => hd ⟨h.1, hmem.1 h.2⟩, decide_eq_false hd]
      rfl

/-! ### The findings of a list of uses -/

/-- A missing token is found once, with the flag of its first use. -/
theorem missingForwarding_mem_findingsFrom (m : Manifest) (defaults : List String)
    (forwarded : List (String × Switch)) (us : List (Dependency × Switch))
    {package key : String} {s : Switch} {optional repaired : Bool} :
    .missingForwarding package key s optional repaired ∈ findingsFrom m defaults forwarded us ↔
      package = m.displayName ∧ repaired = false ∧ m.forwards s key = false ∧ (key, s) ∉ forwarded ∧
        ∃ d, us.find? (fun u => u.1.key = key ∧ u.2 = s) = some (d, s) ∧ d.optional = optional := by
  induction us generalizing defaults forwarded with
  | nil => simp [findingsFrom]
  | cons u us ih =>
    obtain ⟨d, s'⟩ := u
    rw [findingsFrom, List.find?_cons]
    simp only [List.mem_append, ih]
    by_cases hhead : d.key = key ∧ s' = s
    · obtain ⟨rfl, rfl⟩ := hhead
      cases hf : m.forwards s' d.key with
      | true => simp
      | false =>
        by_cases hc : (d.key, s') ∈ forwarded
        · simp [hc]
        · have hcomm : d.optional = optional ∧ repaired = false ↔ repaired = false ∧
            d.optional = optional := and_comm
          simp [hc, eq_comm (a := optional), hcomm]
    · have hother : (key, s) ≠ (d.key, s') :=
        fun h => hhead ⟨congrArg Prod.fst h.symm, congrArg Prod.snd h.symm⟩
      have hdefaults (c : Bool) : Finding.missingForwarding package key s optional repaired ∉
          if c then [Finding.missingDefaultFeatures m.displayName d.key] else [] := by
        cases c <;> simp
      have hforwarding (c : Bool) : Finding.missingForwarding package key s optional repaired ∉
          if c then [Finding.missingForwarding m.displayName d.key s' d.optional false] else [] := by
        cases c
        · simp
        · simp only [if_true, List.mem_singleton, Finding.missingForwarding.injEq]
          exact fun h => hhead ⟨h.2.1.symm, h.2.2.1.symm⟩
      have hseen (c : Bool) : (key, s) ∈ (if c then (d.key, s') :: forwarded else forwarded) ↔
        (key, s) ∈ forwarded := by
        cases c <;> simp [hother]
      rw [decide_eq_false hhead, hseen]
      simp only [hdefaults, hforwarding, or_self, false_or]

/-- Default features are found missing once for each key, whichever of its uses shows it. -/
theorem missingDefaultFeatures_mem_findingsFrom (m : Manifest) (defaults : List String)
    (forwarded : List (String × Switch)) (us : List (Dependency × Switch)) {package key : String} :
    .missingDefaultFeatures package key ∈ findingsFrom m defaults forwarded us ↔
      package = m.displayName ∧ key ∉ defaults ∧
        ∃ u ∈ us, u.1.key = key ∧ u.1.disablesDefaults = false := by
  induction us generalizing defaults forwarded with
  | nil => simp [findingsFrom]
  | cons u us ih =>
    obtain ⟨d, s⟩ := u
    have hforwarding (c : Bool) : Finding.missingDefaultFeatures package key ∉
        if c then [Finding.missingForwarding m.displayName d.key s d.optional false] else [] := by
      cases c <;> simp
    rw [findingsFrom]
    simp only [List.mem_append, ih, hforwarding, or_false, List.mem_cons, exists_eq_or_imp]
    cases hd : d.disablesDefaults with
    | true => simp
    | false =>
      simp only [List.elem_eq_mem]
      by_cases hseen : d.key ∈ defaults
      · simp only [hseen]
        grind
      · simp only [hseen]
        grind

theorem exists_use_of_mem_findingsFrom {defaults : List String} {forwarded : List (String × Switch)}
    {us : List (Dependency × Switch)} {f : Finding} (h : f ∈ findingsFrom m defaults forwarded us) :
    ∃ u ∈ us, f = .missingDefaultFeatures m.displayName u.1.key ∨
      f = .missingForwarding m.displayName u.1.key u.2 u.1.optional false := by
  induction us generalizing defaults forwarded with
  | nil => exact absurd h List.not_mem_nil
  | cons u us ih =>
    simp only [findingsFrom, List.mem_append] at h
    rcases h with (h | h) | h
    · split at h
      · exact ⟨u, List.mem_cons_self, .inl (List.mem_singleton.1 h)⟩
      · exact absurd h List.not_mem_nil
    · split at h
      · exact ⟨u, List.mem_cons_self, .inr (List.mem_singleton.1 h)⟩
      · exact absurd h List.not_mem_nil
    · obtain ⟨u', hu', hf⟩ := ih h
      exact ⟨u', List.mem_cons_of_mem u hu', hf⟩

/-- The tokens that are found missing, in order. -/
theorem nodup_tokens_findingsFrom (m : Manifest) (defaults : List String)
    (forwarded : List (String × Switch)) (us : List (Dependency × Switch)) :
    ((findingsFrom m defaults forwarded us).filterMap Finding.token?).Nodup := by
  induction us generalizing defaults forwarded with
  | nil => exact .nil
  | cons u us ih =>
    obtain ⟨d, s⟩ := u
    rw [findingsFrom, List.filterMap_append, List.filterMap_append]
    have hdefaults (c : Bool) : (if c then [Finding.missingDefaultFeatures m.displayName d.key] else []).filterMap
        Finding.token? = [] := by
      cases c <;> rfl
    rw [hdefaults, List.nil_append]
    cases hc : (!m.forwards s d.key && !forwarded.contains (d.key, s)) with
    | false => exact ih _ _
    | true =>
      refine List.nodup_cons.2 ⟨fun hmem => ?_, ih _ _⟩
      obtain ⟨finding, hfinding, htoken⟩ := List.mem_filterMap.1 hmem
      cases finding with
      | missingForwarding package key s' optional repaired =>
        obtain ⟨rfl, rfl⟩ := Prod.mk.inj (Option.some.inj htoken)
        exact ((missingForwarding_mem_findingsFrom ..).1 hfinding).2.2.2.1 List.mem_cons_self
      | _ => exact absurd htoken (by simp [Finding.token?])

/-- When tokens are added, the findings that they answer go and the others stay in order. What was
reported before may be listed or handed on by now. -/
theorem findingsFrom_grows (hname : m'.displayName = m.displayName)
    (defaults : List String) {forwarded forwarded' : List (String × Switch)}
    (hforwarded : ∀ k s, m'.forwards s k ∨ (k, s) ∈ forwarded' ↔ m.forwards s k ∨ m'.forwards s k ∨
      (k, s) ∈ forwarded)
    (us : List (Dependency × Switch)) :
    findingsFrom m' defaults forwarded' us =
      (findingsFrom m defaults forwarded us).filter (·.token?.all fun t => !m'.forwards t.2 t.1) := by
  induction us generalizing defaults forwarded forwarded' with
  | nil => rfl
  | cons u us ih =>
    obtain ⟨d, s⟩ := u
    have hlacks : (!m'.forwards s d.key && !forwarded'.contains (d.key, s)) =
        ((!m.forwards s d.key && !forwarded.contains (d.key, s)) && !m'.forwards s d.key) := by
      have hsame := hforwarded d.key s
      cases hnew : m'.forwards s d.key with
      | true => simp
      | false =>
        simp only [hnew, Bool.false_eq_true, false_or] at hsame
        rw [Bool.eq_iff_iff]
        simp [hsame]
    simp only [findingsFrom, List.filter_append, hname, hlacks]
    have hdefaults (c : Bool) : (if c then [Finding.missingDefaultFeatures m.displayName d.key] else []).filter
        (·.token?.all fun t => !m'.forwards t.2 t.1) =
          if c then [Finding.missingDefaultFeatures m.displayName d.key] else [] := by
      cases c <;> rfl
    rw [hdefaults]
    cases hc : (!m.forwards s d.key && !forwarded.contains (d.key, s)) with
    | false => simp [ih _ hforwarded]
    | true =>
      cases hnew : m'.forwards s d.key with
      | true =>
        -- the new token answers the finding, and handing it on stands for having reported it
        have hrest : ∀ k s', m'.forwards s' k ∨ (k, s') ∈ forwarded' ↔
            m.forwards s' k ∨ m'.forwards s' k ∨ (k, s') ∈ (d.key, s) :: forwarded := by
          intro k s'
          rw [hforwarded, List.mem_cons, Prod.mk.injEq]
          constructor
          · rintro (h | h | h) <;> simp [h]
          · rintro (h | h | ⟨rfl, rfl⟩ | h) <;> simp [*]
        simp [ih _ hrest, Finding.token?, hnew]
      | false =>
        have hrest : ∀ k s', m'.forwards s' k ∨ (k, s') ∈ (d.key, s) :: forwarded' ↔
            m.forwards s' k ∨ m'.forwards s' k ∨ (k, s') ∈ (d.key, s) :: forwarded := by
          intro k s'
          have h := hforwarded k s'
          simp only [List.mem_cons]
          grind
        simp [ih _ hrest, Finding.token?, hnew]

/-! ### The findings of a manifest -/

theorem missingForwarding_mem_findings {package key : String} {s : Switch} {optional repaired : Bool}
    (hs : s ∈ switches) :
    .missingForwarding package key s optional repaired ∈ findings r switches m ↔
      m.isNoStd ∧ package = m.displayName ∧ repaired = false ∧ m.forwards s key = false ∧
        ∃ d, firstUse? r m s key = some d ∧ d.optional = optional := by
  have hfirst : (∃ d, (uses r switches m).find? (fun u => u.1.key = key ∧ u.2 = s) = some (d, s) ∧
    d.optional = optional) ↔
      ∃ d, firstUse? r m s key = some d ∧ d.optional = optional := by
    rw [find?_uses r m hs]
    simp
  unfold findings
  split
  · next hstd => rw [missingForwarding_mem_findingsFrom, hfirst]; simp [hstd]
  · next hstd => simp [hstd]

theorem missingDefaultFeatures_mem_findings {package key : String} :
    .missingDefaultFeatures package key ∈ findings r switches m ↔
      m.isNoStd ∧ package = m.displayName ∧
        ∃ d ∈ m.dependencies, d.key = key ∧ d.disablesDefaults = false ∧
          ∃ s ∈ switches, r.uses d.package s := by
  unfold findings
  split
  · next hstd =>
    rw [missingDefaultFeatures_mem_findingsFrom]
    simp only [uses, List.mem_flatMap, List.mem_map, List.mem_filter]
    grind
  · next hstd => simp [hstd]

/-- Every finding comes from an entry and a switch that its package uses. -/
theorem exists_use_of_mem_findings {f : Finding} (h : f ∈ findings r switches m) :
    ∃ d ∈ m.dependencies, ∃ s ∈ switches, r.uses d.package s ∧
      (f = .missingDefaultFeatures m.displayName d.key ∨
        f = .missingForwarding m.displayName d.key s d.optional false) := by
  unfold findings at h
  split at h
  · obtain ⟨u, hu, hf⟩ := exists_use_of_mem_findingsFrom h
    simp only [uses, List.mem_flatMap, List.mem_map, List.mem_filter] at hu
    obtain ⟨d, hd, s, ⟨hs, huses⟩, rfl⟩ := hu
    exact ⟨d, hd, s, hs, huses, hf⟩
  · exact absurd h List.not_mem_nil

theorem switch_mem_of_mem_findings {package key : String} {s : Switch} {optional repaired : Bool}
    (h : .missingForwarding package key s optional repaired ∈ findings r switches m) :
      s ∈ switches := by
  obtain ⟨d, -, s', hs, -, hf | hf⟩ := exists_use_of_mem_findings h
  · exact absurd hf nofun
  · rwa [(Finding.missingForwarding.inj hf).2.2.1]

/-- Every finding of a check names the package of its manifest. -/
theorem package?_of_mem_findings {f : Finding} (h : f ∈ findings r switches m) :
    f.package? = some m.displayName := by
  obtain ⟨d, -, s, -, -, rfl | rfl⟩ := exists_use_of_mem_findings h <;> rfl

theorem nodup_tokens_findings (r : Registry) (switches : List Switch) (m : Manifest) :
    ((findings r switches m).filterMap Finding.token?).Nodup := by
  unfold findings
  split
  · exact nodup_tokens_findingsFrom ..
  · exact .nil

theorem findings_grows (h : m.Grows m') (hstd : m.isNoStd) (r : Registry) (switches : List Switch) :
    findings r switches m' = (findings r switches m).filter
      (·.token?.all fun t => !m'.forwards t.2 t.1) := by
  have hforwarded : ∀ k s, m'.forwards s k ∨ (k, s) ∈ ([] : List (String × Switch)) ↔
      m.forwards s k ∨ m'.forwards s k ∨ (k, s) ∈ ([] : List (String × Switch)) := by
    intro k s
    simp only [List.not_mem_nil, or_false]
    exact ⟨.inr, fun hf => hf.elim h.forwards id⟩
  rw [findings, findings, if_pos hstd, if_pos (h.isNoStd hstd),
    ← findingsFrom_grows h.displayName [] hforwarded]
  simp only [uses, h.dependencies]

end Forwarding

end FeatureForwarding
