import FeatureForwarding.Proofs.Lint.Data

/-! Where the canonical form differs from the document that it was made of: under the name of the
package, of the features and of the two dependency sections, and nowhere else. -/

namespace FeatureForwarding

open Toml (Key Item Table Document find? names)

namespace Lint

variable {root : Table} {name : String} {standards : Standards}

/-- What becomes of a dependency section. -/
def tidied : Option Item → Option Item
  | some (.table t) => if t.entries.isEmpty then none else some (.table (orderSection t))
  | found => found

theorem find?_orderSectionAt (h : (names root.entries).Nodup) (place other : String) :
    find? other (orderSectionAt root place).entries =
      if other = place then tidied (find? place root.entries) else find? other root.entries := by
  unfold orderSectionAt
  split
  · next t ht =>
    rw [ht, tidied]
    split
    · exact Toml.find?_erase h place other
    · rw [Table.withEntries, Toml.find?_modify, ht]
      rfl
  · next hother =>
    have htidied : tidied (find? place root.entries) = find? place root.entries := by
      unfold tidied
      split
      · next t ht => exact absurd ht (hother t)
      · rfl
    rw [htidied]
    split
    · next heq => rw [heq]
    · rfl

theorem nodup_names_orderSectionAt (h : (names root.entries).Nodup) (place : String) :
    (names (orderSectionAt root place).entries).Nodup := by
  unfold orderSectionAt
  split
  · split
    · exact h.sublist (Toml.names_erase_sublist ..)
    · rwa [Table.withEntries, Toml.names_modify]
  · exact h

theorem find?_orderDependencies (h : (names root.entries).Nodup) (name : String) :
    find? name (orderDependencies root).entries =
      if name ∈ dependencySections then tidied (find? name root.entries) else find? name root.entries := by
  rw [orderDependencies, dependencySections, List.foldl_cons, List.foldl_cons, List.foldl_nil,
    find?_orderSectionAt (nodup_names_orderSectionAt h _), find?_orderSectionAt h,
    find?_orderSectionAt h]
  by_cases hdev : name = "dev-dependencies"
  · simp [hdev]
  · by_cases hplain : name = "dependencies"
    · simp [hplain]
    · simp [hdev, hplain]

/-- All but the blank lines between sections. -/
def arranged (standards : Standards) (root : Table) : Table :=
  orderFeatures (orderDependencies (standards.apply root))

theorem find?_arranged (standards : Standards) (h : (names root.entries).Nodup) (name : String) :
    find? name (arranged standards root).entries =
      if name = "package" then (find? name root.entries).map standards.setFields
      else if name ∈ dependencySections then tidied (find? name root.entries)
      else if name = "features" then (find? name root.entries).map sortFeatureLists
      else find? name root.entries := by
  have happly : (names (standards.apply root).entries).Nodup := by
    rwa [Standards.apply, Table.withEntries, Toml.names_modify]
  have hpackage (name : String) : find? name (standards.apply root).entries =
      if name = "package" then (find? "package" root.entries).map standards.setFields
      else find? name root.entries := by
    rw [Standards.apply, Table.withEntries, Toml.find?_modify]
  rw [arranged, orderFeatures, Table.withEntries, Toml.find?_modify, find?_orderDependencies happly,
    find?_orderDependencies happly, hpackage, hpackage]
  by_cases hfirst : name = "package"
  · simp [hfirst, dependencySections]
  · by_cases hfeatures : name = "features"
    · simp [hfeatures, dependencySections]
    · simp [hfirst, hfeatures]

theorem data_normalize (standards : Standards) (doc : Document) :
    (doc.normalize standards).root.data = (arranged standards doc.root).data :=
  data_spaceHeaders _

theorem lookup_normalize (standards : Standards) {doc : Document} (name : String) :
    (doc.normalize standards).root.data.lookup name =
      (find? name (arranged standards doc.root).entries).map Item.data := by
  rw [data_normalize, Table.data_eq, Item.lookup_dataIn]

end Lint

end FeatureForwarding
