import FeatureForwarding.Proofs.Lint.Places
import FeatureForwarding.Proofs.Toml.Positions

/-! Keys and positions of a document whose entries were put in order. Each step of that keeps the keys
of tables distinct and brings no table to a position where none was. -/

namespace FeatureForwarding

open Toml (Key Item Value Table find? names)

namespace Toml

variable {old new : Item} {entries entries' entries'' : List (Key × Item)} {t t' : Table}

/-- The new item has distinct keys if the old one has, and no more tables at any position. -/
structure Item.Within (new old : Item) : Prop where
  keys : old.HasDistinctKeys → new.HasDistinctKeys
  count : ∀ k, new.countAt k ≤ old.countAt k

/-- The same for the entries of a table. -/
structure Item.AllWithin (new old : List (Key × Item)) : Prop where
  names : (names old).Nodup → (names new).Nodup
  keys : (∀ entry ∈ old, entry.2.HasDistinctKeys) → ∀ entry ∈ new, entry.2.HasDistinctKeys
  count : ∀ k, countIn k new ≤ countIn k old

namespace Item

theorem Within.refl (item : Item) : Within item item := ⟨id, fun _ => Nat.le_refl _⟩

theorem Within.trans {newer : Item} (h : Within newer new) (h' : Within new old) : Within newer old :=
  ⟨h.keys ∘ h'.keys, fun k => Nat.le_trans (h.count k) (h'.count k)⟩

theorem Within.value (v : Value) (old : Item) : Within (.value v) old :=
  ⟨fun _ => trivial, fun _ => Nat.zero_le _⟩

theorem Within.table (hposition : t'.position = t.position) (h : AllWithin t'.entries t.entries) :
    Within (.table t') (.table t) where
  keys ht := by
    obtain ⟨hnames, hitems⟩ := Table.hasDistinctKeys_iff.1 ht
    exact Table.hasDistinctKeys_iff.2 ⟨h.names hnames, h.keys hitems⟩
  count k := by
    rw [countAt, countAt, Table.countFrom_eq, Table.countFrom_eq, hposition]
    exact Nat.add_le_add_left (h.count k) _

namespace AllWithin

theorem refl (entries : List (Key × Item)) : AllWithin entries entries := ⟨id, id, fun _ => Nat.le_refl _⟩

theorem trans (h : AllWithin entries'' entries') (h' : AllWithin entries' entries) :
    AllWithin entries'' entries :=
  ⟨h.names ∘ h'.names, h.keys ∘ h'.keys, fun k => Nat.le_trans (h.count k) (h'.count k)⟩

theorem of_perm (h : entries'.Perm entries) : AllWithin entries' entries where
  names hnames := (h.map _).nodup_iff.2 hnames
  keys hkeys entry hentry := hkeys entry (h.mem_iff.1 hentry)
  count _ := Nat.le_of_eq (h.map _).sum_nat

/-- One entry after another changes under its name. -/
theorem of_forall₂ (h : List.Forall₂ (fun new old => new.1.name = old.1.name ∧ Within new.2 old.2)
    entries' entries) : AllWithin entries' entries := by
  have hnames : Toml.names entries' = Toml.names entries := by
    induction h with
    | nil => rfl
    | cons hfirst _ ih => exact congrArg₂ List.cons hfirst.1 ih
  refine ⟨fun hnodup => hnames ▸ hnodup, fun hkeys => ?_, fun k => ?_⟩
  · induction h with
    | nil => exact hkeys
    | cons hfirst _ ih =>
      obtain ⟨hold, holds⟩ := List.forall_mem_cons.1 hkeys
      exact List.forall_mem_cons.2 ⟨hfirst.2.keys hold, ih (List.cons.inj hnames).2 holds⟩
  · induction h with
    | nil => exact Nat.le_refl _
    | cons hfirst _ ih =>
      exact Nat.add_le_add (hfirst.2.count k) (ih (List.cons.inj hnames).2)

theorem map (g : Key × Item → Key × Item)
    (hg : ∀ entry, (g entry).1.name = entry.1.name ∧ Within (g entry).2 entry.2)
    (entries : List (Key × Item)) : AllWithin (entries.map g) entries :=
  of_forall₂ (List.forall₂_map_left_iff.2 (List.forall₂_same.2 fun entry _ => hg entry))

theorem modify {name : String} {g : Item → Item}
    (hg : ∀ item, find? name entries = some item → Within (g item) item) :
    AllWithin (modify name g entries) entries := by
  refine of_forall₂ ?_
  induction entries with
  | nil => exact .nil
  | cons entry rest ih =>
    obtain ⟨key, item⟩ := entry
    rw [Toml.modify]
    split
    · next hname =>
      exact .cons ⟨rfl, hg item (if_pos hname)⟩
        (List.forall₂_same.2 fun entry _ => ⟨rfl, .refl entry.2⟩)
    · next hname =>
      exact .cons ⟨rfl, .refl item⟩ (ih fun found h => hg found ((if_neg hname).trans h))

theorem erase (name : String) (entries : List (Key × Item)) : AllWithin (erase name entries) entries where
  names hnames := hnames.sublist (names_erase_sublist name entries)
  keys hkeys entry hentry := hkeys entry ((erase_sublist name entries).subset hentry)
  count k := by
    cases h : find? name entries with
    | none => exact Nat.le_of_eq (congrArg _ (erase_of_find?_eq_none h))
    | some item => exact Table.countIn_erase h ▸ Nat.le_add_right ..

/-- A value may be put under any name. -/
theorem put (name : String) (v : Value) (entries : List (Key × Item)) :
    AllWithin (put name (.value v) entries) entries where
  names hnames := nodup_names_put name (.value v) hnames
  keys hkeys entry hentry := by
    rcases mem_put hentry with rfl | hentry
    · trivial
    · exact hkeys entry hentry
  count k := by
    induction entries with
    | nil => exact Nat.le_refl _
    | cons entry rest ih =>
      rw [Toml.put]
      split
      · exact Nat.add_le_add_right (Nat.zero_le _) _
      · exact Nat.add_le_add_left ih _

end AllWithin

end Item

end Toml

namespace Lint

open Toml.Item (Within AllWithin)

variable {root : Table}

theorem within_setField (field wanted : String) (item : Item) :
    Within (Standards.setField field wanted item) item := by
  unfold Standards.setField
  split
  · split
    · exact .table rfl (.put field _ _)
    · exact .refl _
  · split <;> exact .value _ _
  · exact .refl item

theorem within_setFields (standards : Standards) (item : Item) :
    Within (standards.setFields item) item :=
  .trans (within_setField ..) (within_setField ..)

theorem allWithin_inlineSection (entries : List (Key × Item)) :
    AllWithin (inlineSection entries) entries := by
  refine .of_forall₂ ?_
  fun_induction inlineSection entries with
  | case1 => exact .nil
  | case2 key t rest ih => exact .cons ⟨rfl, .value _ _⟩ ih
  | case3 entry rest _ ih => exact .cons ⟨rfl, .refl entry.2⟩ ih

theorem within_orderFields (item : Item) : Within (orderFields item) item := by
  unfold orderFields
  split
  · exact .value _ _
  · exact .refl item

theorem within_sortFeatureLists (item : Item) : Within (sortFeatureLists item) item := by
  unfold sortFeatureLists
  split
  · refine .table rfl (.map _ (fun entry => ?_) _)
    split
    · exact ⟨rfl, .value _ _⟩
    · exact ⟨rfl, .refl _⟩
  · exact .value _ _
  · exact .refl item

theorem within_orderSection (t : Table) : Within (.table (orderSection t)) (.table t) := by
  have hsorted : AllWithin (Text.stableSort entryBefore (inlineSection t.entries)) t.entries :=
    .trans (.of_perm (Text.stableSort_perm ..)) (allWithin_inlineSection t.entries)
  refine .table rfl (.trans ?_ hsorted)
  exact .map (fun entry => (entry.1, orderFields entry.2))
    (fun entry => ⟨rfl, within_orderFields entry.2⟩) _

theorem allWithin_orderSectionAt (root : Table) (name : String) :
    AllWithin (orderSectionAt root name).entries root.entries := by
  unfold orderSectionAt
  split
  · next t ht =>
    split
    · exact .erase name root.entries
    · exact .modify fun item hitem => Option.some.inj (ht.symm.trans hitem) ▸ within_orderSection t
  · exact .refl root.entries

theorem allWithin_arranged (standards : Standards) (root : Table) :
    AllWithin (arranged standards root).entries root.entries := by
  have hpackage : AllWithin (standards.apply root).entries root.entries :=
    .modify fun item _ => within_setFields standards item
  have hsections : AllWithin (orderDependencies (standards.apply root)).entries
      (standards.apply root).entries :=
    .trans (allWithin_orderSectionAt ..) (allWithin_orderSectionAt ..)
  have hfeatures : AllWithin (arranged standards root).entries
      (orderDependencies (standards.apply root)).entries :=
    .modify fun item _ => within_sortFeatureLists item
  exact hfeatures.trans (hsections.trans hpackage)

theorem hasDistinctKeys_arranged (standards : Standards) (h : root.HasDistinctKeys) :
    (arranged standards root).HasDistinctKeys := by
  obtain ⟨hnames, hitems⟩ := Table.hasDistinctKeys_iff.1 h
  have hwithin := allWithin_arranged standards root
  exact Table.hasDistinctKeys_iff.2 ⟨hwithin.names hnames, hwithin.keys hitems⟩

theorem hasDistinctPositions_arranged (standards : Standards) (h : root.HasDistinctPositions) :
    (arranged standards root).HasDistinctPositions := by
  intro k
  rw [Table.countBelow_eq]
  exact Nat.le_trans ((allWithin_arranged standards root).count k) (Table.countBelow_eq k root ▸ h k)

end Lint

end FeatureForwarding
