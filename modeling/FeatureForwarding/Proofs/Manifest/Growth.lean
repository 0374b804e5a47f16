import FeatureForwarding.Proofs.Manifest.Forwarding

/-! Growth of a manifest. All edits of a run hand on more switches, one token at a time; a
manifest that has grown so still states the same package and the same dependencies. -/

namespace FeatureForwarding

namespace Manifest

inductive Grows (m : Manifest) : Manifest → Prop
  | refl : Grows m m
  | add {m' m'' : Manifest} {s : Switch} {dependency : String} (grown : Grows m m')
      (added : m'.addForwarding? s dependency = some m'') : Grows m m''

namespace Grows

variable {m m' m'' : Manifest}

theorem trans (h : Grows m m') (h' : Grows m' m'') : Grows m m'' := by
  induction h' with
  | refl => exact h
  | add _ added ih => exact .add ih added

theorem path (h : Grows m m') : m'.path = m.path := by
  induction h with
  | refl => rfl
  | add _ added ih => rw [path_addForwarding? added, ih]

theorem source (h : Grows m m') : m'.source = m.source := by
  induction h with
  | refl => rfl
  | add _ added ih => rw [source_addForwarding? added, ih]

theorem render_eq (h : Grows m m') (hmodified : m'.isModified = false) : m'.render = m.source := by
  rw [← h.source]
  simpa [isModified] using hmodified

theorem hasComments (h : Grows m m') : m'.hasComments = m.hasComments := by
  simp only [Manifest.hasComments, h.source]

theorem packageName? (h : Grows m m') : m'.packageName? = m.packageName? := by
  induction h with
  | refl => rfl
  | add _ added ih => rw [packageName?_addForwarding? added, ih]

theorem displayName (h : Grows m m') : m'.displayName = m.displayName := by
  simp only [Manifest.displayName, h.packageName?, h.path]

theorem dependencies (h : Grows m m') : m'.dependencies = m.dependencies := by
  induction h with
  | refl => rfl
  | add _ added ih => rw [dependencies_addForwarding? added, ih]

theorem takes (h : Grows m m') (s : Switch) : m'.takes s = m.takes s := by
  induction h with
  | refl => rfl
  | add _ added ih => rw [takes_addForwarding? added, ih]

theorem forwards (h : Grows m m') {s : Switch} {k : String} (hf : m.forwards s k) :
    m'.forwards s k := by
  induction h with
  | refl => exact hf
  | add _ added ih => exact (forwards_addForwarding? added s k).2 (.inl ih)

theorem isNoStd (h : Grows m m') (hstd : m.isNoStd) : m'.isNoStd := by
  induction h with
  | refl => exact hstd
  | add _ added ih => exact (exposes_addForwarding? added _).2 (.inl ih)

theorem activates_mono (h : Grows m m') {s : Switch} (hs : m.activates s) : m'.activates s := by
  induction h with
  | refl => exact hs
  | add _ added ih => exact (activates_addForwarding? added s).2 (.inl ih)

/-- The last token is one that was not handed on before. -/
theorem gained_of_added {s : Switch} {k : String} (h : Grows m m')
    (added : m'.addForwarding? s k = some m'') : m''.forwards s k ∧ m.forwards s k = false := by
  have hnew := (addForwarding?_eq_some added).1
  refine ⟨(forwards_addForwarding? added s k).2 (.inr ⟨rfl, rfl⟩), Bool.eq_false_iff.2 fun hold => ?_⟩
  simp [h.forwards hold] at hnew

/-- A manifest that has grown is the same or hands on something more. -/
theorem eq_or_gained (h : Grows m m') :
    m' = m ∨ ∃ s k, m'.forwards s k ∧ m.forwards s k = false := by
  cases h with
  | refl => exact .inl rfl
  | add grown added => exact .inr ⟨_, _, grown.gained_of_added added⟩

/-- A feature comes to activate something only through a token of its own. -/
theorem activates (h : Grows m m') {s : Switch} :
    m'.activates s ↔ m.activates s ∨ ∃ k, m'.forwards s k ∧ m.forwards s k = false := by
  refine ⟨fun hs => ?_, fun hs => ?_⟩
  · induction h with
    | refl => exact .inl hs
    | @add m₁ m₂ s' k grown added ih =>
      rcases (activates_addForwarding? added s).1 hs with hs | rfl
      · refine (ih hs).imp_right fun ⟨k', hk, hold⟩ => ⟨k', ?_, hold⟩
        exact (forwards_addForwarding? added s k').2 (.inl hk)
      · exact .inr ⟨k, grown.gained_of_added added⟩
  · rcases hs with hs | ⟨k, hk, hold⟩
    · exact h.activates_mono hs
    · induction h with
      | refl => exact absurd hk (by simp [hold])
      | @add m₁ m₂ s' k' grown added ih =>
        rcases (forwards_addForwarding? added s k).1 hk with hk | ⟨rfl, -⟩
        · exact (activates_addForwarding? added s).2 (.inl (ih hk))
        · exact (activates_addForwarding? added s).2 (.inr rfl)

end Grows

end Manifest

end FeatureForwarding
