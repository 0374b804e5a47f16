import FeatureForwarding.Proofs.Forwarding.Repair

/-! What a run reads off a manifest. Two manifests with the same outline are treated alike, however
their documents are laid out; a manifest reads back if its new text is one of the same outline that
is printed again as it stands, with a comment only where there was one before. -/

namespace FeatureForwarding

namespace Manifest

variable {m m' : Manifest} {s : Switch}

structure Outline where
  package : Option String
  dependencies : List Dependency
  features : List (String × List String)
  /-- The switches whose lists can be extended. -/
  takers : List Switch
  deriving DecidableEq

def outline (m : Manifest) : Outline where
  package := m.packageName?
  dependencies := m.dependencies
  features := m.features
  takers := Switch.all.filter m.takes

def ReadsBack (m : Manifest) : Prop :=
  ∃ m', read? m.path m.render = some m' ∧ m'.render = m.render ∧ m'.outline = m.outline ∧
    m'.hasComments = m.hasComments

instance (m : Manifest) : Decidable m.ReadsBack :=
  decidable_of_iff ((read? m.path m.render).any fun m' =>
      m'.render = m.render ∧ m'.outline = m.outline ∧ m'.hasComments = m.hasComments)
    (by simp [ReadsBack, Option.any_eq_true])

theorem read?_eq_some {path : Files.Path} {text : String} (h : read? path text = some m) :
    m.path = path ∧ m.source = text := by
  obtain ⟨document, -, rfl⟩ := Option.map_eq_some_iff.1 h
  exact ⟨rfl, rfl⟩

/-- An edit that reads back as it was meant shows in the text, if it shows at all. -/
theorem Grows.outline_eq (hgrows : m.Grows m') (hread : read? m.path m.source = some m)
    (h : m'.ReadsBack) (hmodified : m'.isModified = false) : m.outline = m'.outline := by
  obtain ⟨m₂, hm₂, -, houtline, -⟩ := h
  rw [hgrows.render_eq hmodified, hgrows.path] at hm₂
  obtain rfl := Option.some.inj (hread.symm.trans hm₂)
  exact houtline

/-! ### What the outline tells -/

theorem find?_features (m : Manifest) (feature : String) :
    m.features.find? (·.1 = feature) = (Toml.find? feature m.featureItems).map fun item => (feature,
      activations item) := by
  unfold features
  induction m.featureItems with
  | nil => rfl
  | cons entry rest ih =>
    obtain ⟨key, item⟩ := entry
    rw [List.map_cons, List.find?_cons, Toml.find?]
    by_cases hkey : key.name = feature
    · simp [hkey]
    · simpa [hkey] using ih

theorem forwards_eq (m : Manifest) (s : Switch) (dependency : String) :
    m.forwards s dependency = (m.features.find? (·.1 = s.name)).any
      (·.2.contains (s.token dependency)) := by
  rw [find?_features, forwards]
  cases Toml.find? s.name m.featureItems <;> rfl

theorem isNoStd_eq (m : Manifest) :
    m.isNoStd = (m.features.find? (·.1 = Switch.std.name)).isSome := by
  rw [find?_features, Option.isSome_map]
  rfl

theorem packageName?_of_outline (h : m'.outline = m.outline) : m'.packageName? = m.packageName? :=
  congrArg Outline.package h

theorem dependencies_of_outline (h : m'.outline = m.outline) : m'.dependencies = m.dependencies :=
  congrArg Outline.dependencies h

theorem forwards_of_outline (h : m'.outline = m.outline) : m'.forwards = m.forwards := by
  have hfeatures : m'.features = m.features := congrArg Outline.features h
  funext s dependency
  rw [forwards_eq, forwards_eq, hfeatures]

theorem isNoStd_of_outline (h : m'.outline = m.outline) : m'.isNoStd = m.isNoStd := by
  have hfeatures : m'.features = m.features := congrArg Outline.features h
  rw [isNoStd_eq, isNoStd_eq, hfeatures]

theorem activates_of_outline (h : m'.outline = m.outline) : m'.activates = m.activates := by
  have hfeatures : m'.features = m.features := congrArg Outline.features h
  funext s
  rw [activates, activates, hfeatures]

theorem takes_of_outline (h : m'.outline = m.outline) : m'.takes = m.takes := by
  have hmem (m : Manifest) (s : Switch) : s ∈ m.outline.takers ↔ m.takes s := by
    have hall : s ∈ Switch.all := by cases s <;> decide
    simp [outline, hall]
  funext s
  rw [Bool.eq_iff_iff, ← hmem, ← hmem, h]

theorem displayName_of_outline (hpath : m'.path = m.path) (h : m'.outline = m.outline) :
    m'.displayName = m.displayName := by
  rw [displayName, displayName, packageName?_of_outline h, hpath]

end Manifest

namespace Forwarding

open Manifest

variable {r : Registry} {switches : List Switch} {m m' : Manifest}

theorem findings_of_outline (hpath : m'.path = m.path) (h : m'.outline = m.outline) :
    findings r switches m' = findings r switches m := by
  have hfrom (us : List (Dependency × Switch)) (defaults : List String)
    (forwarded : List (String × Switch)) :
      findingsFrom m' defaults forwarded us = findingsFrom m defaults forwarded us := by
    induction us generalizing defaults forwarded with
    | nil => rfl
    | cons u rest ih => rw [findingsFrom, findingsFrom, ih, forwards_of_outline h, displayName_of_outline hpath h]
  have huses : uses r switches m' = uses r switches m := by rw [uses, uses, dependencies_of_outline h]
  rw [findings, findings, hfrom, huses, isNoStd_of_outline h]

theorem settled_of_outline (hpath : m'.path = m.path) (h : m'.outline = m.outline) :
    Settled r switches m' ↔ Settled r switches m := by
  have htakes (s : Switch) : m'.takes s = m.takes s := congrFun (takes_of_outline h) s
  simp only [Settled, findings_of_outline hpath h, Finding.isRepairable_congr htakes]

end Forwarding

end FeatureForwarding
