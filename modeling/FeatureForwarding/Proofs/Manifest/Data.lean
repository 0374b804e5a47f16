import FeatureForwarding.Proofs.Manifest.Outline
import FeatureForwarding.Proofs.Toml.Data

/-! What a manifest says, read off its data. The package fields and what an entry of a dependency table
declares do not depend on the order of keys, but features and dependencies are listed in the order of
theirs. -/

namespace FeatureForwarding

open Toml (Key Item Datum Content)

namespace Dependency

/-- What an entry of a dependency table declares. -/
def ofContent? (target : Option String) (key : String) : Content → Option Dependency
  | .text _ => some ⟨key, key, target, false, none⟩
  | .table fields => some {
      key
      package := ((fields "package").bind Content.text?).getD key
      target
      optional := ((fields "optional").bind Content.boolean?).getD false
      defaultFeatures :=
        (fields "default-features" <|> fields "default_features").bind Content.boolean? }
  | _ => none

theorem ofItem?_eq_content (target : Option String) (key : String) (item : Item) :
    ofItem? target key item = ofContent? target key item.content := by
  have htext := item.text?_eq_content
  have hmembers := item.members?_content
  have hbind {α : Type} (g : Item → Option α) (g' : Content → Option α)
      (hg : ∀ item : Item, g item = g' item.content) (found : Option Item) :
      found.bind g = (found.map Item.content).bind g' := by
    cases found <;> simp [hg]
  have hor (a b : Option Item) :
      (a <|> b).map Item.content = (a.map Item.content <|> b.map Item.content) := by
    cases a <;> rfl
  unfold ofItem?
  cases hcontent : item.content with
  | text content =>
    rw [hcontent] at htext
    rw [htext]
    rfl
  | table fields =>
    rw [hcontent] at htext hmembers
    obtain ⟨found, hfound, rfl⟩ := Option.map_eq_some_iff.1 hmembers.symm
    rw [htext, hfound]
    simp only [Content.text?, ofFields, ofContent?, hbind _ _ Item.text?_eq_content,
      hbind _ _ Item.boolean?_eq_content, hor]
  | _ =>
    rw [hcontent] at htext hmembers
    rw [htext, Option.map_eq_none_iff.1 hmembers.symm]
    rfl

theorem key_of_ofContent? {target : Option String} {key : String} {c : Content} {d : Dependency}
    (h : ofContent? target key c = some d) : d.key = key ∧ d.target = target := by
  cases c <;> simp [ofContent?] at h <;> simp [← h]

/-- What the members of a dependency table declare. -/
def ofMembers (target : Option String) (members : List (String × Datum)) : List Dependency :=
  members.filterMap fun (key, d) => ofContent? target key d.content

theorem ofEntries_eq_members (target : Option String) (entries : List (Key × Item)) :
    ofEntries target entries = ofMembers target (Item.dataIn entries) := by
  simp only [ofEntries, ofMembers, Item.dataIn_eq_map, List.filterMap_map, ofItem?_eq_content,
    Function.comp_def, Item.content]

theorem ofMembers_perm (target : Option String) {members members' : List (String × Datum)}
    (h : (members'.map fun (key, d) => (key, d.content)).Perm
      (members.map fun (key, d) => (key, d.content))) :
    (ofMembers target members').Perm (ofMembers target members) := by
  have hofMembers (members : List (String × Datum)) : ofMembers target members =
      (members.map fun (key, d) => (key, d.content)).filterMap fun (key, c) => ofContent? target key c := by
    rw [List.filterMap_map]
    rfl
  rw [hofMembers, hofMembers]
  exact h.filterMap _

theorem target_of_mem_ofMembers {target : Option String} {members : List (String × Datum)}
    {d : Dependency} (h : d ∈ ofMembers target members) : d.target = target := by
  obtain ⟨⟨key, c⟩, -, hd⟩ := List.mem_filterMap.1 h
  exact (key_of_ofContent? hd).2

theorem keys_ofMembers_sublist (target : Option String) (members : List (String × Datum)) :
    ((ofMembers target members).map (·.key)).Sublist (members.map (·.1)) := by
  unfold ofMembers
  induction members with
  | nil => exact .slnil
  | cons member rest ih =>
    obtain ⟨key, datum⟩ := member
    rw [List.map_cons, List.filterMap_cons]
    cases hd : ofContent? target key datum.content with
    | none =>
      simp only [hd]
      exact ih.cons _
    | some d =>
      simp only [hd, List.map_cons, (key_of_ofContent? hd).1]
      exact ih.cons_cons _

end Dependency

namespace Manifest

variable {m m' : Manifest}

/-- The members of the document. -/
def data (m : Manifest) : List (String × Datum) := m.document.root.data

/-- What the members of a document declare for everyone. -/
def plainDependencies (members : List (String × Datum)) : List Dependency :=
  Dependency.ofMembers none (Datum.inside "dependencies" members)

/-- What the members of a document declare for certain targets. -/
def targetDependencies (members : List (String × Datum)) : List Dependency :=
  (Datum.inside "target" members).flatMap fun (target, d) =>
    Dependency.ofMembers (some target) (Datum.inside "dependencies" (d.members?.getD []))

theorem dataIn_inside (m : Manifest) (name : String) :
    Item.dataIn (((m.item? name).bind Item.tableLike?).getD []) = Datum.inside name m.data := by
  rw [item?, Item.dataIn_inside, data, Toml.Table.data_eq]

theorem dependencies_eq_data (m : Manifest) :
    m.dependencies = plainDependencies m.data ++ targetDependencies m.data := by
  have htarget (target : Item) : Item.dataIn ((do
      let fields ← target.tableLike?
      (Toml.find? "dependencies" fields).bind Item.tableLike?).getD []) =
        Datum.inside "dependencies" (target.data.members?.getD []) := by
    rw [← Item.dataIn_tableLike?]
    cases htable : target.tableLike? with
    | none => rfl
    | some fields => exact Item.dataIn_inside "dependencies" fields
  have hplain := m.dataIn_inside "dependencies"
  have htargets := m.dataIn_inside "target"
  rw [Item.dataIn_eq_map] at htargets
  rw [plainDependencies, targetDependencies, ← hplain, ← htargets, List.flatMap_map]
  simp only [dependencies, Dependency.ofEntries_eq_members, htarget]

theorem activations_eq_data (item : Item) : activations item = item.data.texts := by
  rcases item with (⟨_, content⟩ | ⟨_, elements, _, _⟩ | _) | _ | ts
  · cases content <;> rfl
  · have htext : Toml.Value.text? = Datum.text? ∘ Toml.Value.data :=
      funext fun v => (Item.value v).text?_eq_data
    simp [activations, Item.array?, Item.data, Toml.Value.data, Datum.texts,
      Toml.Value.dataAll_eq_map, List.filterMap_map, htext]
  · rfl
  · rfl
  · simp [activations, Item.array?, Item.data, Datum.texts, Toml.Table.dataAll_eq_map,
      List.filterMap_map, Datum.text?]

theorem features_eq_data (m : Manifest) :
    m.features = (Datum.inside "features" m.data).map fun (name, d) => (name, d.texts) := by
  rw [features, featureItems, ← dataIn_inside, Item.dataIn_eq_map, List.map_map]
  simp only [activations_eq_data, Function.comp_def]

/-- What stands under each name at the top. -/
def content (m : Manifest) : String → Option Content := Datum.contentIn m.data

theorem content_eq_item? (m : Manifest) (name : String) : m.content name = (m.item? name).map Item.content := by
  rw [content, Datum.contentIn_eq_lookup, data, Toml.Table.data_eq, Item.lookup_dataIn, Option.map_map]
  rfl

theorem packageField?_eq_content (m : Manifest) (field : String) :
    m.packageField? field = (((m.content "package").bind Content.members?).bind
      fun members => members field).bind Content.text? := by
  rw [content_eq_item?, packageField?]
  cases hitem : m.item? "package" with
  | none => rfl
  | some item =>
    rw [Option.map_some, Option.bind_some, Option.bind_some, item.members?_content]
    cases item.tableLike? with
    | none => rfl
    | some fields =>
      simp only [Option.bind_eq_bind, Option.bind_some, Option.map_some]
      cases Toml.find? field fields with
      | none => rfl
      | some item => exact item.text?_eq_content

end Manifest

end FeatureForwarding
