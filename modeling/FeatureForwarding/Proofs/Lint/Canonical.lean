import FeatureForwarding.Proofs.Lint.Places
import FeatureForwarding.Proofs.Text.Sorting
import FeatureForwarding.Proofs.Toml.DistinctKeys

/-! Documents in canonical form. What is in order is not touched, and what comes out is in order: the
canonical documents are those that stay as they are. -/

namespace FeatureForwarding

open Toml (Key Item Value Table Document find? names)

namespace Lint

variable {standards : Standards} {root : Table}

/-! ### Orders -/

theorem orders_fieldBefore : Text.Orders fieldBefore where
  asymm a b h := by
    simp only [fieldBefore, Bool.or_eq_true, Bool.and_eq_true, decide_eq_true_eq] at h
    simp only [fieldBefore, Bool.or_eq_false_iff, Bool.and_eq_false_imp, decide_eq_true_eq,
      decide_eq_false_iff_not]
    rcases h with h | ⟨heq, h⟩
    · exact ⟨by omega, fun heq => by omega⟩
    · exact ⟨by omega, fun _ => String.lt_asymm h⟩
  trans a b c hab hbc := by
    simp only [fieldBefore, Bool.or_eq_false_iff, Bool.and_eq_false_imp, decide_eq_true_eq,
      decide_eq_false_iff_not] at *
    refine ⟨by omega, fun heq => ?_⟩
    have hle : a.1.name ≤ b.1.name := hab.2 (by omega)
    exact Std.le_trans hle (hbc.2 (by omega))

theorem entryBefore_iff (a b : Key × Item) : entryBefore a b ↔
    hasPath a.2 = false ∧ hasPath b.2 = true ∨ hasPath a.2 = hasPath b.2 ∧ a.1.name < b.1.name := by
  unfold entryBefore
  cases hasPath a.2 <;> cases hasPath b.2 <;> simp

theorem entryBefore_eq_false_iff (a b : Key × Item) : entryBefore a b = false ↔
    hasPath a.2 = true ∧ hasPath b.2 = false ∨ hasPath a.2 = hasPath b.2 ∧ b.1.name ≤ a.1.name := by
  rw [← Bool.not_eq_true, entryBefore_iff, ← String.not_lt]
  cases hasPath a.2 <;> cases hasPath b.2 <;> simp only [reduceCtorEq, false_and, and_false, true_and,
    and_true, or_false, false_or, not_true, not_false_iff]

theorem orders_entryBefore : Text.Orders entryBefore where
  asymm a b h := by
    rw [entryBefore_eq_false_iff]
    rcases (entryBefore_iff a b).1 h with ⟨ha, hb⟩ | ⟨heq, hlt⟩
    · exact .inl ⟨hb, ha⟩
    · exact .inr ⟨heq.symm, Std.le_of_lt hlt⟩
  trans a b c hab hbc := by
    rw [entryBefore_eq_false_iff] at *
    rcases hab with ⟨hb, ha⟩ | ⟨heq, hle⟩ <;> rcases hbc with ⟨hc, hb'⟩ | ⟨heq', hle'⟩
    · exact absurd (hb.symm.trans hb') nofun
    · exact .inl ⟨heq'.trans hb, ha⟩
    · exact .inl ⟨hc, heq.symm.trans hb'⟩
    · exact .inr ⟨heq'.trans heq, Std.le_trans hle hle'⟩

/-! ### The order of fields -/

theorem sortDottedEntries_eq_map (entries : List (Key × Value)) :
    sortDottedEntries entries = entries.map fun (key, v) => (key, sortDotted v) := by
  induction entries with
  | nil => rfl
  | cons entry rest ih => rw [sortDottedEntries, ih, List.map_cons]

theorem sortFields_perm (entries : List (Key × Value)) :
    (sortFields entries).Perm (entries.map fun (key, v) => (key, sortDotted v)) := by
  rw [sortFields, sortDottedEntries_eq_map]
  exact Text.stableSort_perm _ _

/-- Fields that are in order, with groups that are in order, stay as they are. -/
theorem sortFields_of_ordered {entries : List (Key × Value)}
    (hsorted : entries.Pairwise fun a b => fieldBefore b a = false)
    (hfixed : ∀ entry ∈ entries, sortDotted entry.2 = entry.2) : sortFields entries = entries := by
  have hmap : (entries.map fun (key, v) => (key, sortDotted v)) = entries :=
    (List.map_congr_left fun (key, _) hentry => congrArg (key, ·) (hfixed _ hentry)).trans
      (List.map_id entries)
  rw [sortFields, sortDottedEntries_eq_map, hmap, Text.stableSort_of_pairwise hsorted]

theorem pairwise_sortFields (entries : List (Key × Value)) :
    (sortFields entries).Pairwise fun a b => fieldBefore b a = false :=
  Text.stableSort_pairwise orders_fieldBefore _

theorem sortFields_of_fixed {entries : List (Key × Value)}
    (h : ∀ entry ∈ entries, sortDotted (sortDotted entry.2) = sortDotted entry.2) :
    sortFields (sortFields entries) = sortFields entries := by
  refine sortFields_of_ordered (pairwise_sortFields entries) fun entry hentry => ?_
  obtain ⟨old, hmem, rfl⟩ := List.mem_map.1 ((sortFields_perm entries).mem_iff.1 hentry)
  exact h old hmem

mutual

theorem sortDotted_sortDotted (v : Value) : sortDotted (sortDotted v) = sortDotted v := by
  match v with
  | .scalar _ _ => rfl
  | .array _ _ _ _ => rfl
  | .inline _ false _ _ => rfl
  | .inline decor true preamble entries =>
    have hsorted := sortFields_of_fixed (sortDotted_of_mem entries)
    rw [sortDotted, sortDotted, ← sortFields, ← sortFields, hsorted]
  termination_by structural v

theorem sortDotted_of_mem (entries : List (Key × Value)) :
    ∀ entry ∈ entries, sortDotted (sortDotted entry.2) = sortDotted entry.2 := by
  match entries with
  | [] => exact fun _ h => absurd h List.not_mem_nil
  | (key, v) :: rest =>
    intro entry hentry
    rcases List.mem_cons.1 hentry with rfl | hentry
    · exact sortDotted_sortDotted v
    · exact sortDotted_of_mem rest entry hentry
  termination_by structural entries

end

theorem sortFields_sortFields (entries : List (Key × Value)) :
    sortFields (sortFields entries) = sortFields entries :=
  sortFields_of_fixed fun entry _ => sortDotted_sortDotted entry.2

theorem sortDotted_withDecor (d : Toml.Decor) (v : Value) :
    sortDotted (v.withDecor d) = (sortDotted v).withDecor d := by
  match v with
  | .scalar _ _ => rfl
  | .array _ _ _ _ => rfl
  | .inline _ false _ _ => rfl
  | .inline _ true _ _ => rfl

theorem names_unsetDecor (entries : List (Key × Value)) :
    (unsetDecor entries).map (·.1.name) = entries.map (·.1.name) := by
  rw [unsetDecor, List.map_map]
  rfl

theorem sortDotted_of_sortFields {entries : List (Key × Value)} (h : sortFields entries = entries) :
    ∀ entry ∈ entries, sortDotted entry.2 = entry.2 := by
  intro entry hentry
  rw [← h] at hentry
  obtain ⟨old, -, rfl⟩ := List.mem_map.1 ((sortFields_perm entries).mem_iff.1 hentry)
  exact sortDotted_sortDotted old.2

/-- Without the text around them the fields are in the same order. -/
theorem sortFields_unsetDecor {entries : List (Key × Value)} (h : sortFields entries = entries) :
    sortFields (unsetDecor entries) = unsetDecor entries := by
  have hsorted := pairwise_sortFields entries
  rw [h] at hsorted
  refine sortFields_of_ordered (List.pairwise_map.2 hsorted) fun entry hentry => ?_
  obtain ⟨old, hold, rfl⟩ := List.mem_map.1 hentry
  rw [sortDotted_withDecor, sortDotted_of_sortFields h old hold]

theorem orderFields_orderFields (item : Item) : orderFields (orderFields item) = orderFields item := by
  match item with
  | .value (.scalar _ _) => rfl
  | .value (.array _ _ _ _) => rfl
  | .table _ => rfl
  | .tables _ => rfl
  | .value (.inline decor dotted preamble entries) =>
    have hfixed {entries : List (Key × Value)} (h : sortFields entries = entries) :
        orderFields (.value (.inline decor dotted preamble entries)) =
          .value (.inline decor dotted preamble entries) := by
      simp [orderFields, h]
    have hsorted := sortFields_sortFields entries
    rw [orderFields]
    split
    · exact hfixed (sortFields_unsetDecor hsorted)
    · exact hfixed hsorted

theorem hasPath_eq_content (item : Item) :
    hasPath item = item.content.members?.any fun fields => (fields "path").isSome := by
  rw [item.members?_content, hasPath]
  cases item.tableLike? <;> simp [Toml.hasKey]

theorem hasPath_orderFields (item : Item) : hasPath (orderFields item) = hasPath item := by
  rw [hasPath_eq_content, hasPath_eq_content, content_orderFields]

/-! ### Blank lines -/

section

variable {first : Option HeaderPath} {path : HeaderPath}

/-- An entry with the blank lines below it. -/
def spaceItem (first : Option HeaderPath) (path : HeaderPath) (name : String) : Item → Item
  | .value v => .value v
  | .table t => .table (match t.origin with
    | .dotted => t
    | .implied => spaceBelow first (path ++ [name]) t
    | .explicit => spaceHeader first (path ++ [name]) (spaceBelow first (path ++ [name]) t))
  | .tables ts => .tables (spaceArray first path name 0 ts)

theorem spaceIn_eq_map (first : Option HeaderPath) (path : HeaderPath) (entries : List (Key × Item)) :
    spaceIn first path entries =
      entries.map fun (key, item) => (key, spaceItem first path key.name item) := by
  induction entries with
  | nil => rfl
  | cons entry rest ih =>
    obtain ⟨key, item⟩ := entry
    cases item <;> rw [spaceIn, ih] <;> rfl

theorem entries_spaceBelow (first : Option HeaderPath) (path : HeaderPath) (t : Table) :
    (spaceBelow first path t).entries = spaceIn first path t.entries := by
  cases t
  rw [spaceBelow]

theorem data_spaceItem (name : String) (item : Item) :
    (spaceItem first path name item).data = item.data := by
  have hdata := dataIn_spaceIn first path [(Key.new name, item)]
  rw [spaceIn_eq_map] at hdata
  simpa [Item.dataIn, Key.new] using hdata

mutual

theorem spaceBelow_spaceBelow (first : Option HeaderPath) (path : HeaderPath) (t : Table) :
    spaceBelow first path (spaceBelow first path t) = spaceBelow first path t := by
  obtain ⟨_, _, _, entries⟩ := t
  rw [spaceBelow, spaceBelow, spaceIn_spaceIn first path entries]
  termination_by structural t

theorem spaceIn_spaceIn (first : Option HeaderPath) (path : HeaderPath) (entries : List (Key × Item)) :
    spaceIn first path (spaceIn first path entries) = spaceIn first path entries := by
  match entries with
  | [] => rfl
  | (key, .value v) :: rest => rw [spaceIn, spaceIn, spaceIn_spaceIn first path rest]
  | (key, .table t) :: rest =>
    have hbelow := spaceBelow_spaceBelow first (path ++ [key.name]) t
    obtain ⟨origin, decor, position, inner⟩ := t
    rw [spaceBelow, spaceBelow] at hbelow
    rw [spaceIn, spaceIn, spaceIn_spaceIn first path rest]
    cases origin <;> simp_all [spaceHeader, spaceBelow]
  | (key, .tables ts) :: rest =>
    rw [spaceIn, spaceIn, spaceIn_spaceIn first path rest, spaceArray_spaceArray first path key.name 0 ts]
  termination_by structural entries

theorem spaceArray_spaceArray (first : Option HeaderPath) (path : HeaderPath) (name : String)
    (index : Nat) (ts : List Table) :
    spaceArray first path name index (spaceArray first path name index ts) =
      spaceArray first path name index ts := by
  match ts with
  | [] => rfl
  | t :: ts =>
    have hbelow := spaceBelow_spaceBelow first (path ++ [elementName name index]) t
    obtain ⟨origin, decor, position, inner⟩ := t
    rw [spaceBelow, spaceBelow] at hbelow
    rw [spaceArray, spaceArray, spaceArray_spaceArray first path name (index + 1) ts]
    simp_all [spaceHeader, spaceBelow]
  termination_by structural ts

end

mutual

theorem headersBelow_spaceBelow (first : Option HeaderPath) (path path' : HeaderPath) (t : Table) :
    headersBelow path' (spaceBelow first path t) = headersBelow path' t := by
  obtain ⟨_, _, _, entries⟩ := t
  rw [spaceBelow, headersBelow, headersBelow, headersIn_spaceIn first path path' entries]
  termination_by structural t

theorem headersIn_spaceIn (first : Option HeaderPath) (path path' : HeaderPath)
    (entries : List (Key × Item)) :
    headersIn path' (spaceIn first path entries) = headersIn path' entries := by
  match entries with
  | [] => rfl
  | (key, .value v) :: rest =>
    rw [spaceIn, headersIn, headersIn, headersIn_spaceIn first path path' rest]
  | (key, .table t) :: rest =>
    have hbelow := headersBelow_spaceBelow first (path ++ [key.name]) (path' ++ [key.name]) t
    have hrest := headersIn_spaceIn first path path' rest
    obtain ⟨origin, decor, position, inner⟩ := t
    rw [spaceBelow] at hbelow
    rw [spaceIn, headersIn, headersIn, hrest]
    cases origin <;> simp_all [spaceHeader, spaceBelow, headersBelow]
  | (key, .tables ts) :: rest =>
    rw [spaceIn, headersIn, headersIn, headersIn_spaceIn first path path' rest,
      headersOfArray_spaceArray first path path' key.name 0 ts]
  termination_by structural entries

theorem headersOfArray_spaceArray (first : Option HeaderPath) (path path' : HeaderPath) (name : String)
    (index : Nat) (ts : List Table) :
    headersOfArray path' name index (spaceArray first path name index ts) =
      headersOfArray path' name index ts := by
  match ts with
  | [] => rfl
  | t :: ts =>
    have hbelow := headersBelow_spaceBelow first (path ++ [elementName name index])
      (path' ++ [elementName name index]) t
    have hrest := headersOfArray_spaceArray first path path' name (index + 1) ts
    obtain ⟨origin, decor, position, inner⟩ := t
    rw [spaceBelow] at hbelow
    rw [spaceArray, headersOfArray, headersOfArray, hrest]
    simp_all [spaceHeader, spaceBelow, headersBelow]
  termination_by structural ts

end

theorem any_isValue_spaceBelow (t : Table) :
    (spaceBelow first path t).entries.any (fun entry => isValue entry.2) =
      t.entries.any fun entry => isValue entry.2 := by
  rw [entries_spaceBelow, spaceIn_eq_map, List.any_map]
  exact congrArg (List.any t.entries) (funext fun (key, item) => by cases item <;> rfl)

theorem firstHeader_spaceBelow (t : Table) :
    firstHeader (spaceBelow first path t) = firstHeader t := by
  rw [firstHeader, firstHeader, any_isValue_spaceBelow, headersBelow_spaceBelow]

theorem spaceHeaders_spaceHeaders (root : Table) : spaceHeaders (spaceHeaders root) = spaceHeaders root := by
  rw [spaceHeaders, spaceHeaders, firstHeader_spaceBelow, spaceBelow_spaceBelow]

end

/-! ### Canonical documents -/

/-- The fields of the package state the standards or something that is no text. -/
def IsStandard (standards : Standards) (package : Item) : Prop :=
  ∀ fields ∈ package.tableLike?,
    Standards.isNeeded standards.edition (find? "edition" fields) = false ∧
      Standards.isNeeded standards.homepage (find? "homepage" fields) = false

/-- The section is not empty, no entry has a header of its own, and entries and fields are in order. -/
structure IsOrdered (t : Table) : Prop where
  nonempty : t.entries ≠ []
  inline : ∀ entry ∈ t.entries, isTable entry.2 = false
  fields : ∀ entry ∈ t.entries, orderFields entry.2 = entry.2
  entries : t.entries.Pairwise fun a b => entryBefore b a = false

def HasSortedLists (features : Item) : Prop :=
  ∀ fields ∈ features.tableLike?, ∀ entry ∈ fields, ∀ v, entry.2 = .value v → sortList v = v

structure Canonical (standards : Standards) (root : Table) : Prop where
  package : ∀ item ∈ find? "package" root.entries, IsStandard standards item
  sections : ∀ name ∈ dependencySections, ∀ t, find? name root.entries = some (.table t) → IsOrdered t
  features : ∀ item ∈ find? "features" root.entries, HasSortedLists item
  headers : spaceHeaders root = root

theorem modify_of_fixed {α : Type} {name : String} {f : α → α} {entries : List (Key × α)}
    (h : ∀ content ∈ find? name entries, f content = content) : Toml.modify name f entries = entries := by
  induction entries with
  | nil => rfl
  | cons entry rest ih =>
    obtain ⟨key, content⟩ := entry
    rw [find?] at h
    rw [Toml.modify]
    split
    · next hname =>
      rw [if_pos hname] at h
      rw [h content rfl]
    · next hname =>
      rw [if_neg hname] at h
      rw [ih h]

theorem setField_of_not_needed {field wanted : String} {item : Item}
    (h : ∀ fields ∈ item.tableLike?, Standards.isNeeded wanted (find? field fields) = false) :
    Standards.setField field wanted item = item := by
  match item with
  | .value (.scalar _ _) => rfl
  | .value (.array _ _ _ _) => rfl
  | .tables _ => rfl
  | .table t => rw [Standards.setField, h t.entries rfl]; rfl
  | .value (.inline _ _ _ entries) =>
    have hfield := h _ rfl
    rw [Toml.find?_map] at hfield
    rw [Standards.setField, hfield]
    rfl

theorem IsStandard.setFields {item : Item} (h : IsStandard standards item) :
    standards.setFields item = item := by
  rw [Standards.setFields, setField_of_not_needed fun fields hfields => (h fields hfields).1,
    setField_of_not_needed fun fields hfields => (h fields hfields).2]

/-- Where no entry has a header of its own and all fields are in order, only the entries are sorted. -/
theorem orderSection_of_inline {t : Table} (hinline : ∀ entry ∈ t.entries, isTable entry.2 = false)
    (hfields : ∀ entry ∈ t.entries, orderFields entry.2 = entry.2) :
    orderSection t = t.withEntries (Text.stableSort entryBefore t.entries) := by
  have hsection (entries : List (Key × Item)) (h : ∀ entry ∈ entries, isTable entry.2 = false) :
      inlineSection entries = entries := by
    fun_induction inlineSection entries with
    | case1 => rfl
    | case2 key t rest => exact absurd (h _ List.mem_cons_self) (by simp [isTable])
    | case3 entry rest _ ih => rw [ih fun entry hentry => h entry (List.mem_cons_of_mem _ hentry)]
  have hconverted : t.entries.any (fun entry => isTable entry.2) = false := by
    simpa using fun key item hentry => hinline (key, item) hentry
  have htables : inlineSubTables t = t := by
    rw [inlineSubTables, hsection t.entries hinline, hconverted]
    cases t
    rfl
  have hsorted : ((Text.stableSort entryBefore t.entries).map fun entry => (entry.1, orderFields entry.2)) =
      Text.stableSort entryBefore t.entries := by
    refine (List.map_congr_left fun entry hentry => ?_).trans (List.map_id _)
    exact congrArg (entry.1, ·) (hfields entry ((Text.stableSort_perm entryBefore t.entries).mem_iff.1 hentry))
  rw [orderSection, htables, hsorted]

theorem IsOrdered.orderSection {t : Table} (h : IsOrdered t) : orderSection t = t := by
  rw [orderSection_of_inline h.inline h.fields, Text.stableSort_of_pairwise h.entries, Table.withEntries_entries]

theorem HasSortedLists.sortFeatureLists {item : Item} (h : HasSortedLists item) :
    sortFeatureLists item = item := by
  cases item with
  | tables _ => rfl
  | table t =>
    rw [Lint.sortFeatureLists]
    refine congrArg Item.table (Eq.trans ?_ t.withEntries_entries)
    refine congrArg t.withEntries ((List.map_congr_left fun entry hentry => ?_).trans
      (List.map_id t.entries))
    obtain ⟨key, item⟩ := entry
    cases item with
    | value v => exact congrArg (key, Item.value ·) (h t.entries rfl (key, .value v) hentry v rfl)
    | table _ | tables _ => rfl
  | value v =>
    cases v with
    | scalar _ _ => rfl
    | array _ _ _ _ => rfl
    | inline decor dotted preamble entries =>
      rw [Lint.sortFeatureLists]
      refine congrArg (fun entries => Item.value (.inline decor dotted preamble entries))
        ((List.map_congr_left fun entry hentry => ?_).trans (List.map_id entries))
      exact congrArg (entry.1, ·) (h _ rfl (entry.1, .value entry.2)
        (List.mem_map.2 ⟨_, hentry, rfl⟩) entry.2 rfl)

/-- What is canonical stays as it is. -/
theorem Canonical.normalize {doc : Document} (h : Canonical standards doc.root) :
    doc.normalize standards = doc := by
  have happly : standards.apply doc.root = doc.root := by
    rw [Standards.apply, modify_of_fixed fun item hitem => (h.package item hitem).setFields,
      Table.withEntries_entries]
  have hsection (name : String) (hname : name ∈ dependencySections) :
      orderSectionAt doc.root name = doc.root := by
    unfold orderSectionAt
    split
    · next t ht =>
      have hordered := h.sections name hname t ht
      have hfixed : ∀ item ∈ find? name doc.root.entries, .table (orderSection t) = item := by
        intro item hitem
        rw [ht] at hitem
        rw [← Option.some.inj hitem, hordered.orderSection]
      rw [if_neg (by simpa using hordered.nonempty), modify_of_fixed hfixed, Table.withEntries_entries]
    · rfl
  have hsections : orderDependencies doc.root = doc.root := by
    rw [orderDependencies, dependencySections, List.foldl_cons, List.foldl_cons, List.foldl_nil,
      hsection _ (by decide), hsection _ (by decide)]
  have hfeatures : orderFeatures doc.root = doc.root := by
    rw [orderFeatures, modify_of_fixed fun item hitem => (h.features item hitem).sortFeatureLists,
      Table.withEntries_entries]
  rw [Document.normalize, happly, hsections, hfeatures, h.headers]

end Lint

end FeatureForwarding
