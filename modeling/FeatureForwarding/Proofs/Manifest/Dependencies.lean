import FeatureForwarding.Manifest

/-! The dependency tables of a manifest as they are written. An entry stands under its key in the
plain table or in that of a target; only a version or a table declares a dependency, and only a table
can opt out of the default features. -/

namespace FeatureForwarding

open Toml (Key Item)

namespace Toml.Item

def field? (item : Item) (name : String) : Option Item := item.tableLike?.bind (find? name)

/-- The field is there and set to false. -/
def denies (item : Item) (name : String) : Bool := (item.field? name).bind boolean? == some false

/-- One spelling or the other is set to false. -/
def deniesEither (item : Item) : Bool :=
  item.denies "default-features" || item.denies "default_features"

/-- The spelling with an underscore counts only where the other one is absent. -/
def deniesDefaults (item : Item) : Bool :=
  item.denies "default-features" ||
    (item.field? "default-features").isNone && item.denies "default_features"

/-- The two readings differ only where an entry has both spellings. -/
theorem deniesDefaults_eq {item : Item} (h : item.field? "default-features" = none ∨
    item.field? "default_features" = none) : item.deniesDefaults = item.deniesEither := by
  rcases h with h | h <;> simp [deniesDefaults, deniesEither, denies, h]

theorem tableLike?_of_text? {item : Item} {content : String} (h : item.text? = some content) :
    item.tableLike? = none := by
  cases item with
  | value v => cases v <;> first | rfl | exact absurd h nofun
  | _ => exact absurd h nofun

end Toml.Item

/-- One entry of a dependency table, as written. -/
structure Declaration where
  target : Option String
  key : String
  item : Item

namespace Declaration

def ofEntries (target : Option String) (entries : List (Key × Item)) : List Declaration :=
  entries.map fun (key, item) => ⟨target, key.name, item⟩

def dependency? (e : Declaration) : Option Dependency := Dependency.ofItem? e.target e.key e.item

variable {e : Declaration} {d : Dependency}

theorem key_of_dependency? (h : e.dependency? = some d) : d.key = e.key := by
  unfold dependency? Dependency.ofItem? at h
  split at h
  · exact Option.some.inj h ▸ rfl
  · exact Option.some.inj h ▸ rfl
  · exact absurd h nofun

theorem disablesDefaults_of_dependency? (h : e.dependency? = some d) :
    d.disablesDefaults = e.item.deniesDefaults := by
  unfold dependency? Dependency.ofItem? at h
  split at h
  · next content htext =>
    have hfield (name : String) : e.item.field? name = none := by
      rw [Item.field?, Item.tableLike?_of_text? htext, Option.bind_none]
    cases h
    simp [Dependency.disablesDefaults, Item.deniesDefaults, Item.denies, hfield]
  · next fields _ hfields =>
    have hfield (name : String) : e.item.field? name = Toml.find? name fields := by
      rw [Item.field?, hfields, Option.bind_some]
    cases h
    cases hfirst : Toml.find? "default-features" fields <;>
      simp [Dependency.disablesDefaults, Dependency.ofFields, Item.deniesDefaults, Item.denies, hfield, hfirst]
  · exact absurd h nofun

end Declaration

namespace Manifest

/-- The entries of the dependency table, then those of each target in order. -/
def declarations (m : Manifest) : List Declaration :=
  let plain := ((m.item? "dependencies").bind Item.tableLike?).getD []
  let targets := ((m.item? "target").bind Item.tableLike?).getD []
  Declaration.ofEntries none plain ++ targets.flatMap fun (key, target) =>
    Declaration.ofEntries (some key.name)
      (((target.field? "dependencies").bind Item.tableLike?).getD [])

theorem dependencies_eq (m : Manifest) :
    m.dependencies = m.declarations.filterMap Declaration.dependency? := by
  have hentries (target : Option String) (entries : List (Key × Item)) :
      Dependency.ofEntries target entries =
        (Declaration.ofEntries target entries).filterMap Declaration.dependency? := by
    rw [Declaration.ofEntries, List.filterMap_map]
    rfl
  simp only [dependencies, declarations, List.filterMap_append, List.filterMap_flatMap, hentries,
    Item.field?, Option.bind_assoc]
  rfl

end Manifest

end FeatureForwarding
