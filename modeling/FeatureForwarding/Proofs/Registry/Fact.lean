import FeatureForwarding.Registry.Fact

/-! The feature lists of a fact. They only go on, no name is taken up twice, and what is used is also
listed. Switches that are observed add the names that a list lacks; to observe them once more adds
nothing. -/

namespace FeatureForwarding.Fact

variable {fact : Fact} {names : List String} {name : String}

/-! ### Lists of distinct names -/

theorem mem_addNew {other : String} : other ∈ addNew names name ↔ other ∈ names ∨ other = name := by
  unfold addNew
  split
  · next hknown => exact ⟨.inl, fun h => h.elim id fun heq => heq ▸ hknown⟩
  · simp

theorem nodup_addNew (h : names.Nodup) : (addNew names name).Nodup := by
  unfold addNew
  split
  · exact h
  · next hnew =>
    refine List.nodup_append.2 ⟨h, List.nodup_cons.2 ⟨List.not_mem_nil, .nil⟩, ?_⟩
    rintro known hknown other hother rfl
    exact hnew (List.mem_singleton.1 hother ▸ hknown)

/-- A list goes on with the names that it lacks, each once. -/
theorem foldl_addNew (new names : List String) :
    ∃ added, new.foldl addNew names = names ++ added ∧ added.Nodup ∧
      ∀ name, name ∈ added ↔ name ∉ names ∧ name ∈ new := by
  induction new generalizing names with
  | nil => exact ⟨[], by simp⟩
  | cons first rest ih =>
    obtain ⟨added, hfold, hnodup, hmem⟩ := ih (addNew names first)
    simp only [mem_addNew] at hmem
    rw [List.foldl_cons, hfold]
    by_cases hknown : first ∈ names
    · refine ⟨added, by rw [addNew, if_pos hknown], hnodup, fun name => ?_⟩
      rw [hmem, List.mem_cons]
      grind
    · refine ⟨first :: added, by simp [addNew, hknown], ?_, fun name => ?_⟩
      · exact List.nodup_cons.2 ⟨fun h => ((hmem first).1 h).1 (.inr rfl), hnodup⟩
      · rw [List.mem_cons, hmem, List.mem_cons]
        grind

theorem foldl_addNew_of_subset {new : List String} (h : new ⊆ names) :
    new.foldl addNew names = names := by
  obtain ⟨added, hfold, -, hmem⟩ := foldl_addNew new names
  have hnone : added = [] := List.eq_nil_iff_forall_not_mem.2 fun name hname =>
    ((hmem name).1 hname).1 (h ((hmem name).1 hname).2)
  rw [hfold, hnone, List.append_nil]

/-! ### Well-formed facts -/

/-- No list repeats a name, and the used features are among the exposed ones. -/
structure WellFormed (fact : Fact) : Prop where
  used : fact.usedFeatures ⊆ fact.features
  features : fact.features.Nodup
  usedFeatures : fact.usedFeatures.Nodup

theorem wellFormed_of_no_features (name : String) (version : Option String) (direct : Bool) :
    WellFormed ⟨name, version, [], [], direct⟩ :=
  ⟨List.Subset.refl _, .nil, .nil⟩

theorem WellFormed.declare (h : fact.WellFormed) (feature : String × List String) :
    (fact.declare feature).WellFormed := by
  have hfeatures : fact.usedFeatures ⊆ addNew fact.features feature.1 := fun name hname =>
    mem_addNew.2 (.inl (h.used hname))
  unfold Fact.declare
  split
  · exact ⟨hfeatures, nodup_addNew h.features, h.usedFeatures⟩
  · refine ⟨fun name hname => ?_, nodup_addNew h.features, nodup_addNew h.usedFeatures⟩
    exact (mem_addNew.1 hname).elim (fun hold => hfeatures hold) fun hnew => mem_addNew.2 (.inr hnew)

theorem WellFormed.observe (h : fact.WellFormed) (s : Switch) : (fact.observe s).WellFormed := by
  refine ⟨fun name hname => ?_, nodup_addNew h.features, nodup_addNew h.usedFeatures⟩
  exact mem_addNew.2 ((mem_addNew.1 hname).imp (fun hold => h.used hold) id)

theorem WellFormed.foldl_observe (h : fact.WellFormed) (seen : List Switch) :
    (seen.foldl Fact.observe fact).WellFormed := by
  induction seen generalizing fact with
  | nil => exact h
  | cons s rest ih => exact ih (h.observe s)

theorem wellFormed_of_ofManifest? {m : Manifest} (h : ofManifest? m = some fact) :
    fact.WellFormed := by
  obtain ⟨name, -, rfl⟩ := Option.map_eq_some_iff.1 h
  have hstep (features : List (String × List String)) {fact : Fact} (h : fact.WellFormed) :
      (features.foldl Fact.declare fact).WellFormed := by
    induction features generalizing fact with
    | nil => exact h
    | cons feature rest ih => exact ih (h.declare feature)
  exact hstep m.features (wellFormed_of_no_features ..)

/-! ### Observed switches -/

theorem foldl_observe_eq (seen : List Switch) (fact : Fact) :
    seen.foldl Fact.observe fact =
      { fact with
        features := (seen.map Switch.name).foldl addNew fact.features
        usedFeatures := (seen.map Switch.name).foldl addNew fact.usedFeatures } := by
  induction seen generalizing fact with
  | nil => rfl
  | cons s rest ih => rw [List.foldl_cons, ih]; rfl

/-- To observe the same switches once more tells nothing new. -/
theorem foldl_observe_foldl_observe (seen : List Switch) (fact : Fact) :
    seen.foldl Fact.observe (seen.foldl Fact.observe fact) = seen.foldl Fact.observe fact := by
  have hknown (names : List String) :
      seen.map Switch.name ⊆ (seen.map Switch.name).foldl addNew names := by
    obtain ⟨added, hfold, -, hmem⟩ := foldl_addNew (seen.map Switch.name) names
    intro name hname
    rw [hfold, List.mem_append, hmem]
    exact (Classical.em (name ∈ names)).imp_right fun hnew => ⟨hnew, hname⟩
  rw [foldl_observe_eq seen (seen.foldl Fact.observe fact)]
  simp only [foldl_observe_eq seen fact, foldl_addNew_of_subset (hknown _)]

/-- The list goes on with the names of the switches in question that it lacks, each once. -/
def ExtendsBy (P : Switch → Prop) (old new : List String) : Prop :=
  ∃ added, new = old ++ added ∧ added.Nodup ∧ ∀ name, name ∈ added ↔ name ∉ old ∧ ∃ s, P s ∧ s.name = name

theorem extendsBy_foldl_addNew (seen : List Switch) (names : List String) :
    ExtendsBy (· ∈ seen) names ((seen.map Switch.name).foldl addNew names) := by
  obtain ⟨added, hfold, hnodup, hmem⟩ := foldl_addNew (seen.map Switch.name) names
  exact ⟨added, hfold, hnodup, fun name => by rw [hmem, List.mem_map]⟩

end FeatureForwarding.Fact
