import FeatureForwarding.Proofs.Lint.Form
import FeatureForwarding.Proofs.Toml.Retained
import FeatureForwarding.Proofs.Toml.Shuffling

/-! The form of a document that was read back. A document in canonical form keeps it over writing and
reading, but for arrays of tables among the dependencies, which stand behind the entries that are written
in lines; moving them back does not change the text. -/

namespace FeatureForwarding.Lint

open Toml (Key Item Value Table Document Surround find? names)
open Toml.Item (ReadAs AllReadAs SameKind Rebuilt Shuffled AllShuffled HasFields)

variable {standards : Standards} {item item' : Item} {t : Table} {entries old new : List (Key × Item)}

/-! ### Package fields -/

theorem isNeeded_readAs {current current' : Option Item} (h : Option.Rel (ReadAs SameKind) current current')
    (wanted : String) : Standards.isNeeded wanted current' = Standards.isNeeded wanted current := by
  cases h with
  | none => rfl
  | some h => rw [Standards.isNeeded, Standards.isNeeded, h.text?_eq]

theorem IsStandard.readAs (h : IsStandard standards item) (hread : ReadAs Rebuilt item item')
    (hfields : item.HasFields) : IsStandard standards item' := by
  intro fields' hfields'
  have hrel := hread.tableLike? hfields
  rw [Option.mem_def] at hfields'
  rw [hfields'] at hrel
  cases hitem : item.tableLike? with
  | none =>
    rw [hitem] at hrel
    cases hrel
  | some fields =>
    rw [hitem] at hrel
    cases hrel with
    | some hall =>
      obtain ⟨hedition, hhomepage⟩ := h fields hitem
      have hnodup := hfields.nodup fields hitem
      rw [isNeeded_readAs (hall.find? hnodup "edition"), isNeeded_readAs (hall.find? hnodup "homepage")]
      exact ⟨hedition, hhomepage⟩

/-! ### Lists -/

theorem texts?_rereadAll (unset : Surround) (vs : List Value) :
    texts? (Value.rereadAll unset vs) = texts? vs := by
  induction vs generalizing unset with
  | nil => rw [Value.rereadAll]
  | cons v vs ih => rw [Value.rereadAll, texts?, texts?, Value.text?_reread, ih]

theorem IsSortedList.readAs (h : IsSortedList item) (hread : ReadAs SameKind item item') :
    IsSortedList item' := by
  cases hread with
  | value v unset =>
    match v with
    | .scalar _ _ => exact nofun
    | .inline _ true _ _ => exact nofun
    | .inline _ false _ _ => exact nofun
    | .array _ elements _ _ =>
      intro elements' helements' texts htexts
      obtain rfl : Value.rereadAll .firstElement elements = elements' := Option.some.inj helements'
      rw [texts?_rereadAll] at htexts
      exact h elements rfl texts htexts
  | group => exact nofun
  | headed hkind =>
    cases item <;> cases item' <;> first | exact hkind.elim | exact nofun

theorem HasSortedLists.readAs (h : HasSortedLists item) (hread : ReadAs Rebuilt item item')
    (hfields : item.HasFields) : HasSortedLists item' := by
  refine hasSortedLists_iff.2 fun fields' hfields' entry hentry => ?_
  have hrel := hread.tableLike? hfields
  rw [Option.mem_def] at hfields'
  rw [hfields'] at hrel
  cases hitem : item.tableLike? with
  | none =>
    rw [hitem] at hrel
    cases hrel
  | some fields =>
    rw [hitem] at hrel
    cases hrel with
    | some hall =>
      obtain ⟨other, hother, -, hsame⟩ := hall.all entry hentry
      exact (hasSortedLists_iff.1 h fields hitem other hother).readAs hsame

/-! ### Sections -/

theorem pairwise_fieldsFollow_iff {fields : List (Key × Value)} : fields.Pairwise FieldsFollow ↔
    (names fields).Pairwise fun a b => fieldRank a < fieldRank b ∨ fieldRank a = fieldRank b ∧ a ≤ b := by
  rw [names, List.pairwise_map]
  rfl

theorem Ordered.rereadIn {fields : List (Key × Value)} (h : Ordered fields) (isTop : Bool)
    (unset : Surround) :
    Ordered (Value.rereadIn isTop unset fields) := by
  induction h generalizing isTop unset with
  | @intro fields hfollow _ ih =>
    refine .intro ?_ fun key decor preamble group hentry => ?_
    · rw [pairwise_fieldsFollow_iff, Value.names_rereadIn, ← pairwise_fieldsFollow_iff]
      exact hfollow
    · obtain ⟨⟨key', v⟩, hother, -, unset', heq⟩ := Value.exists_of_mem_rereadIn hentry
      match v, heq with
      | .inline d true p inner, heq =>
        obtain ⟨-, -, -, rfl⟩ := Value.inline.inj heq
        exact ih key' d p inner hother false unset'

theorem orderFields_readAs (h : orderFields item = item) (hread : ReadAs SameKind item item') :
    orderFields item' = item' := by
  cases hread with
  | value v unset =>
    match v with
    | .scalar _ _ => rfl
    | .array _ _ _ _ => rfl
    | .inline d dotted preamble fields =>
      have hordered := orderFields_eq_iff.1 h d dotted preamble fields rfl
      refine orderFields_eq_iff.2 fun decor dotted' preamble' fields' heq => ?_
      cases dotted with
      | true =>
        obtain ⟨-, -, -, rfl⟩ := Value.inline.inj (Item.value.inj heq)
        exact hordered.rereadIn false unset
      | false =>
        obtain ⟨-, -, -, rfl⟩ := Value.inline.inj (Item.value.inj heq)
        exact hordered.rereadIn true .lastInline
  | group => rfl
  | headed hkind => cases item <;> cases item' <;> first | exact hkind.elim | rfl

theorem isTable_readAs (h : isTable item = false) (hread : ReadAs SameKind item item') :
    isTable item' = false := by
  cases hread with
  | value => rfl
  | group => exact absurd h (by simp [isTable])
  | headed hkind => cases item <;> cases item' <;> first | exact hkind.elim | rfl | exact h

theorem hasPath_readAs (h : isTable item = false) (hread : ReadAs SameKind item item') :
    hasPath item' = hasPath item := by
  cases hread with
  | group => exact absurd h (by simp [isTable])
  | headed hkind =>
    cases item <;> cases item' <;>
      first | exact hkind.elim | rfl | exact absurd h (by simp [isTable])
  | value v unset =>
    have hnames {entries entries' : List (Key × Value)} (hsame : names entries' = names entries) :
        Toml.hasKey "path" (entries'.map fun entry => (entry.1, Item.value entry.2)) =
          Toml.hasKey "path" (entries.map fun entry => (entry.1, Item.value entry.2)) := by
      rw [Toml.hasKey, Toml.hasKey, Toml.find?_map, Toml.find?_map, Option.isSome_map, Option.isSome_map,
        Bool.eq_iff_iff, ← Option.ne_none_iff_isSome, ← Option.ne_none_iff_isSome, Ne, Ne, Toml.find?_eq_none,
        Toml.find?_eq_none, hsame]
    obtain ⟨_, _⟩ | ⟨_, _, _, _⟩ | ⟨_, dotted, _, entries⟩ := v
    · rfl
    · rfl
    · cases dotted <;> exact hnames (Value.names_rereadIn ..)

/-- The entries that are written in lines are read back in their order. -/
theorem pairwise_rereadOwn (isTop : Bool) (hinline : ∀ entry ∈ entries, isTable entry.2 = false)
    (h : entries.Pairwise fun a b => entryBefore b a = false) :
    (Item.rereadOwn isTop entries).Pairwise fun a b => entryBefore b a = false := by
  induction entries with
  | nil => exact .nil
  | cons entry rest ih =>
    obtain ⟨hhead, hlater⟩ := List.forall_mem_cons.1 hinline
    obtain ⟨hfirst, hrest⟩ := List.pairwise_cons.1 h
    obtain ⟨key, v | t | ts⟩ := entry
    · refine List.pairwise_cons.2 ⟨fun b hb => ?_, ih hlater hrest⟩
      obtain ⟨other, hother, hname, -, hread⟩ := Item.exists_of_mem_rereadOwn SameKind hb
      have hbefore := hfirst other hother
      rw [entryBefore_eq_false_iff, hname] at hbefore
      rw [entryBefore_eq_false_iff, hasPath_readAs (hlater other hother) hread,
        hasPath_readAs hhead (ReadAs.value v Surround.value)]
      exact hbefore
    · exact absurd hhead (by simp [isTable])
    · exact ih hlater hrest

/-- A section that is in order is so again, once arrays of tables are back among its entries. -/
theorem IsOrdered.readAs (h : IsOrdered t) (hread : ReadAs Rebuilt (.table t) item')
    (hfields : HasFields (.table t)) :
    ∃ t', item' = .table t' ∧ t'.entries ≠ [] ∧ Shuffled (.table t') (.table (Lint.orderSection t')) := by
  have hrel := hread.tableLike? hfields
  have hall {t' : Table} (hall : AllReadAs SameKind t.entries t'.entries) : t'.entries ≠ [] ∧
      Lint.orderSection t' = t'.withEntries (Text.stableSort entryBefore t'.entries) := by
    refine ⟨fun hnil => ?_, orderSection_of_inline (fun entry hentry => ?_) fun entry hentry => ?_⟩
    · obtain ⟨first, rest, hentries⟩ := List.exists_cons_of_ne_nil h.nonempty
      have hmem := hall.complete first.1.name (by rw [hentries]; exact List.mem_cons_self)
      rw [hnil] at hmem
      exact absurd hmem List.not_mem_nil
    · obtain ⟨other, hother, -, hsame⟩ := hall.all entry hentry
      exact isTable_readAs (h.inline other hother) hsame
    · obtain ⟨other, hother, -, hsame⟩ := hall.all entry hentry
      exact orderFields_readAs (h.fields other hother) hsame
  cases hread with
  | group hdotted =>
    cases hrel with
    | some hrel =>
      obtain ⟨hne, horder⟩ := @hall ⟨.dotted, {}, none, t.rereadBelow⟩ hrel
      refine ⟨_, rfl, hne, ?_⟩
      have hsorted : t.rereadBelow.Pairwise fun a b => entryBefore b a = false := by
        obtain ⟨_, _, _, entries⟩ := t
        rw [Table.rereadBelow]
        exact pairwise_rereadOwn false h.inline h.entries
      rw [horder, Text.stableSort_of_pairwise hsorted]
      exact .refl _
  | headed hrebuilt =>
    cases item' with
    | value _ | tables _ => exact hrebuilt.elim
    | table t' =>
      obtain ⟨⟨-, hdotted⟩, hrebuilt⟩ := hrebuilt
      obtain ⟨hne, horder⟩ := hall hrebuilt.allReadAs
      refine ⟨t', rfl, hne, ?_⟩
      rw [horder]
      refine .table hdotted (Text.stableSort_perm ..) ?_
      rw [Text.filter_stableSort orders_entryBefore, hrebuilt.own,
        Text.stableSort_of_pairwise (pairwise_rereadOwn true h.inline h.entries)]

/-! ### The root -/

theorem allShuffled_refl (entries : List (Key × Item)) : AllShuffled entries entries :=
  List.forall₂_same.2 fun entry _ => ⟨rfl, .refl entry.2⟩

theorem allShuffled_modify {name : String} {g : Item → Item}
    (hg : ∀ item, find? name entries = some item → item.Shuffled (g item)) :
    AllShuffled entries (Toml.modify name g entries) := by
  induction entries with
  | nil => exact .nil
  | cons entry rest ih =>
    obtain ⟨key, item⟩ := entry
    rw [Toml.modify]
    split
    · next hname => exact .cons ⟨rfl, hg item (if_pos hname)⟩ (allShuffled_refl rest)
    · next hname => exact .cons ⟨rfl, .refl item⟩ (ih fun found h => hg found ((if_neg hname).trans h))

theorem shuffled_trans {item'' : Item} (h : item.Shuffled item') (h' : item'.Shuffled item'') :
    item.Shuffled item'' := by
  cases h' with
  | refl => exact h
  | table hdotted' hperm' hown' =>
    cases h with
    | refl => exact .table hdotted' hperm' hown'
    | table hdotted hperm hown => exact .table hdotted (hperm'.trans hperm) (hown'.trans hown)

theorem allShuffled_trans (h : AllShuffled old entries) (h' : AllShuffled entries new) :
    AllShuffled old new := by
  induction h generalizing new with
  | nil =>
    cases h'
    exact .nil
  | cons hfirst _ ih =>
    obtain ⟨second, later, hsecond, hlater, rfl⟩ := List.forall₂_cons_left_iff.1 h'
    exact .cons ⟨hsecond.1.trans hfirst.1, shuffled_trans hfirst.2 hsecond.2⟩ (ih hlater)

/-- What stands under the name in order is a table with entries, of which only headers have to move. -/
def IsOrderedButArrays (current : Option Item) : Prop :=
  ∀ t, current = some (.table t) → t.entries ≠ [] ∧ Shuffled (.table t) (.table (orderSection t))

theorem orderSectionAt_shuffled {root : Table} {name : String}
    (h : IsOrderedButArrays (find? name root.entries)) :
    AllShuffled root.entries (orderSectionAt root name).entries ∧
      orderSectionAt root name = root.withEntries (orderSectionAt root name).entries ∧
      ∀ other ≠ name, find? other (orderSectionAt root name).entries = find? other root.entries := by
  unfold orderSectionAt
  split
  · next t ht =>
    obtain ⟨hne, hshuffled⟩ := h t ht
    rw [if_neg (by simpa using hne)]
    refine ⟨allShuffled_modify fun item hitem => ?_, rfl, fun other hother => ?_⟩
    · rw [ht] at hitem
      rw [← Option.some.inj hitem]
      exact hshuffled
    · exact (Toml.find?_modify ..).trans (if_neg hother)
  · exact ⟨allShuffled_refl _, (Table.withEntries_entries root).symm, fun _ _ => rfl⟩

section

variable {doc again : Document} (hlegible : doc.root.IsLegible) (horderly : doc.root.IsOrderly)
  (hback : doc.ReadBackFrom again)

include hlegible horderly hback

/-- What stands in the root that was read has come about from what stood there before. -/
theorem exists_readAs {name : String} {item' : Item} (hitem' : find? name again.root.entries = some item') :
    ∃ item, find? name doc.root.entries = some item ∧ item.HasFields ∧ ReadAs Rebuilt item item' := by
  obtain ⟨hnodup, hentries⟩ := Table.isOrderly_iff.1 horderly
  have hrel := hback.entries.allReadAs.find? hnodup name
  rw [hitem'] at hrel
  cases hitem : find? name doc.root.entries with
  | none =>
    rw [hitem] at hrel
    cases hrel
  | some item =>
    rw [hitem] at hrel
    obtain ⟨key, -, hmem⟩ := Toml.mem_of_find? hitem
    cases hrel with
    | some hread =>
      exact ⟨item, rfl, Item.hasFields_of_mem hentries (Table.isLegible_iff.1 hlegible) _ hmem, hread⟩

theorem Canonical.isOrderedButArrays_readBack (h : Canonical standards doc.root) {name : String}
    (hname : name ∈ dependencySections) : IsOrderedButArrays (find? name again.root.entries) := by
  intro t' ht'
  obtain ⟨item, hitem, hfields, hread⟩ := exists_readAs hlegible horderly hback ht'
  have htable : ∃ t, item = .table t := by
    cases hread with
    | group => exact ⟨_, rfl⟩
    | headed hrebuilt => cases item <;> first | exact hrebuilt.elim | exact ⟨_, rfl⟩
  obtain ⟨t, rfl⟩ := htable
  obtain ⟨_, heq, hordered⟩ := (h.sections name hname t hitem).readAs hread hfields
  obtain rfl := Item.table.inj heq
  exact hordered

/-- What was read from the text of a document in canonical form has it, but for arrays of tables among the
dependencies. -/
theorem allShuffled_arranged (h : Canonical standards doc.root) :
    AllShuffled again.root.entries (arranged standards again.root).entries ∧
      arranged standards again.root = again.root.withEntries (arranged standards again.root).entries := by
  have hpackage : standards.apply again.root = again.root := by
    rw [Standards.apply, modify_of_fixed fun item' hitem' => ?_, Table.withEntries_entries]
    obtain ⟨item, hitem, hfields, hread⟩ := exists_readAs hlegible horderly hback hitem'
    exact ((h.package item hitem).readAs hread hfields).setFields
  have hsection (name : String) (hname : name ∈ dependencySections) :
      IsOrderedButArrays (find? name again.root.entries) :=
    h.isOrderedButArrays_readBack hlegible horderly hback hname
  obtain ⟨hfirst, heq, hothers⟩ := orderSectionAt_shuffled (hsection "dependencies" (by decide))
  have hsecond := hsection "dev-dependencies" (by decide)
  rw [← hothers "dev-dependencies" (by decide)] at hsecond
  obtain ⟨hsecond, heq', hothers'⟩ := orderSectionAt_shuffled hsecond
  have hdependencies : orderDependencies again.root =
      orderSectionAt (orderSectionAt again.root "dependencies") "dev-dependencies" := rfl
  have hfeatures : orderFeatures (orderDependencies again.root) = orderDependencies again.root := by
    rw [orderFeatures, modify_of_fixed fun item' hitem' => ?_, Table.withEntries_entries]
    rw [hdependencies, hothers' "features" (by decide), hothers "features" (by decide)] at hitem'
    obtain ⟨item, hitem, hfields, hread⟩ := exists_readAs hlegible horderly hback hitem'
    exact ((h.features item hitem).readAs hread hfields).sortFeatureLists
  rw [arranged, hpackage, hfeatures, hdependencies]
  refine ⟨allShuffled_trans hfirst hsecond, ?_⟩
  rw [heq', heq]
  rfl

end

end FeatureForwarding.Lint
