import FeatureForwarding.Proofs.Toml.RoundTrip

/-! Tables whose entries have changed places. What a table writes itself is written in the order of its
entries, but headers stand where their positions put them, so that moving them among the entries does not
change the text. -/

namespace FeatureForwarding.Toml

variable {opens : Nat → Bool} {isTop : Bool} {e : Nat × Piece} {q q' : Piece}
    {old new entries : List (Key × Item)}

/-! ### Pieces -/

/-- The pieces are printed alike, whatever else is in their tables. -/
structure Piece.Resembles (q q' : Piece) : Prop where
  steps : q'.steps = q.steps
  first : q'.first = q.first
  keys : q'.keys = q.keys
  isArray : q'.isArray = q.isArray
  position : q'.table.position = q.table.position
  origin : q'.table.origin = q.table.origin
  decor : q'.table.decor = q.table.decor
  pairs : q'.table.pairs = q.table.pairs

namespace Piece

theorem Resembles.refl (q : Piece) : q.Resembles q := ⟨rfl, rfl, rfl, rfl, rfl, rfl, rfl, rfl⟩

theorem Resembles.isShown (h : q.Resembles q') : q'.isShown = q.isShown := by
  rw [Piece.isShown, Piece.isShown, h.isArray, h.origin, h.pairs]

theorem RebuiltAs.resembles (h : RebuiltAs opens isTop e q) (hq : q.Resembles q') :
    RebuiltAs opens isTop e q' where
  steps := hq.steps.trans h.steps
  isArray := hq.isArray.trans h.isArray
  position := hq.position.trans h.position
  origin := hq.origin.trans h.origin
  decor := hq.decor.trans h.decor
  path := by
    rw [hq.first, hq.keys]
    exact h.path
  lines := by
    rw [hq.pairs]
    exact h.lines

/-- The pieces of the one list resemble those of the other, in some order. -/
def AllResemble (qs qs' : List Piece) : Prop :=
    ∃ between, List.Forall₂ Resembles qs between ∧ between.Perm qs'

namespace AllResemble

variable {qs qs' rs rs' : List Piece}

theorem refl (qs : List Piece) : AllResemble qs qs := ⟨qs, List.forall₂_same.2 fun q _ => .refl q, .refl qs⟩

theorem append (h : AllResemble qs qs') (h' : AllResemble rs rs') : AllResemble (qs ++ rs) (qs' ++ rs') := by
  obtain ⟨between, hbetween, hperm⟩ := h
  obtain ⟨between', hbetween', hperm'⟩ := h'
  exact ⟨between ++ between', List.rel_append hbetween hbetween', hperm.append hperm'⟩

theorem filter_isShown (h : AllResemble qs qs') : AllResemble (qs.filter isShown) (qs'.filter isShown) := by
  obtain ⟨between, hbetween, hperm⟩ := h
  exact ⟨between.filter isShown,
    List.rel_filter (fun q q' hq => by dsimp only; rw [hq.isShown]) hbetween, hperm.filter _⟩

theorem rebuiltAs {es : List (Nat × Piece)} (h : AllResemble qs qs') (hes : Matches opens isTop es qs) :
    Matches opens isTop es qs' := by
  obtain ⟨between, hbetween, hperm⟩ := h
  obtain ⟨es', hes', hqs⟩ := hes
  have hmoved : List.Forall₂ (RebuiltAs opens isTop) es' between := by
    clear hes' hperm
    induction hqs generalizing between with
    | nil =>
      cases hbetween
      exact .nil
    | cons hfirst _ ih =>
      obtain ⟨r, rs, hr, hrs, rfl⟩ := List.forall₂_cons_left_iff.1 hbetween
      exact .cons (hfirst.resembles hr) (ih rs hrs)
  obtain ⟨es'', hperm', hqs'⟩ := (congrFun₂ List.forall₂_comp_perm_eq_perm_comp_forall₂ es' qs').mp
    ⟨between, hmoved, hperm⟩
  exact ⟨es'', hes'.trans hperm', hqs'⟩

end AllResemble

end Piece

/-! ### Entries -/

/-- The item is the same one, or a table with a header in which entries have changed places, but not among
those that it writes itself. -/
inductive Item.Shuffled : Item → Item → Prop
  | refl (item : Item) : Shuffled item item
  | table {t : Table} {entries : List (Key × Item)} (hdotted : t.origin ≠ .dotted)
    (hperm : entries.Perm t.entries)
      (hown : entries.filter (fun entry => entry.2.isOwn) = t.entries.filter fun entry => entry.2.isOwn) :
      Shuffled (.table t) (.table (t.withEntries entries))

/-- The same of the entries one by one. -/
def Item.AllShuffled (old new : List (Key × Item)) : Prop :=
  List.Forall₂ (fun entry entry' => entry'.1 = entry.1 ∧ entry.2.Shuffled entry'.2) old new

namespace Item

theorem Shuffled.isOwn {item item' : Item} (h : item.Shuffled item') : item'.isOwn = item.isOwn := by
  cases h <;> rfl

theorem Shuffled.eq_of_isOwn {item item' : Item} (h : item.Shuffled item') (hown : item.isOwn) :
    item' = item := by
  cases h with
  | refl => rfl
  | table hdotted => exact absurd (of_decide_eq_true hown) hdotted

theorem pieces_eq_flatMap (entries : List (Key × Item)) :
    Item.pieces entries = entries.flatMap fun entry => Item.pieces [entry] := by
  induction entries with
  | nil => rfl
  | cons entry rest ih => rw [pieces_cons, ih, List.flatMap_cons]

theorem perm_pieces (h : old.Perm new) : (Item.pieces old).Perm (Item.pieces new) := by
  rw [pieces_eq_flatMap old, pieces_eq_flatMap new]
  exact h.flatMap_right _

theorem Shuffled.allResemble {key : Key} {item item' : Item} (h : item.Shuffled item') :
    Piece.AllResemble (Item.pieces [(key, item)]) (Item.pieces [(key, item')]) := by
  cases h with
  | refl => exact .refl _
  | @table t entries hdotted hperm hown =>
    have hpairs : (t.withEntries entries).pairs = t.pairs := by
      rw [Table.pairs_eq, Table.pairs_eq, ← pairs_filter_isOwn t.entries, ← hown, pairs_filter_isOwn]
      rfl
    have hbelow : (t.withEntries entries).pieces.Perm t.pieces := by
      rw [Table.pieces_eq, Table.pieces_eq]
      exact perm_pieces hperm
    have hdotted' : (t.withEntries entries).origin ≠ .dotted := hdotted
    rw [pieces, pieces, pieces, Piece.ofTable, if_neg hdotted, Piece.ofTable, if_neg hdotted',
      pieces, List.append_nil, List.append_nil]
    refine .append ⟨[⟨[.key key.name], key, [], false, t.withEntries entries⟩],
      .cons ⟨rfl, rfl, rfl, rfl, rfl, rfl, rfl, hpairs⟩ .nil, .refl _⟩ ?_
    exact ⟨_, List.forall₂_same.2 fun q _ => .refl q, (hbelow.map _).symm⟩

theorem AllShuffled.allResemble (h : AllShuffled old new) :
    Piece.AllResemble (Item.pieces old) (Item.pieces new) := by
  induction h with
  | nil => exact .refl []
  | @cons entry entry' rest rest' hfirst _ ih =>
    obtain ⟨hkey, hitem⟩ := hfirst
    obtain ⟨key, item⟩ := entry
    obtain ⟨key', item'⟩ := entry'
    obtain rfl : key' = key := hkey
    rw [pieces_cons, pieces_cons (key', item')]
    exact hitem.allResemble.append ih

theorem AllShuffled.names_eq (h : AllShuffled old new) : names new = names old := by
  induction h with
  | nil => rfl
  | cons hfirst _ ih => exact congrArg₂ List.cons (congrArg Key.name hfirst.1) ih

theorem AllShuffled.exists_of_mem (h : AllShuffled old new) {entry : Key × Item} (hentry : entry ∈ new) :
    ∃ item, (entry.1, item) ∈ old ∧ item.Shuffled entry.2 := by
  induction h with
  | nil => exact absurd hentry List.not_mem_nil
  | @cons first first' rest rest' hfirst _ ih =>
    rcases List.mem_cons.1 hentry with rfl | hentry
    · refine ⟨first.2, ?_, hfirst.2⟩
      rw [hfirst.1]
      exact List.mem_cons_self
    · obtain ⟨item, hitem, hshuffled⟩ := ih hentry
      exact ⟨item, List.mem_cons_of_mem _ hitem, hshuffled⟩

theorem AllShuffled.filter_isOwn (h : AllShuffled old new) :
    new.filter (fun entry => entry.2.isOwn) = old.filter fun entry => entry.2.isOwn := by
  induction h with
  | nil => rfl
  | @cons first first' rest rest' hfirst _ ih =>
    rw [List.filter_cons, List.filter_cons, ih, hfirst.2.isOwn]
    by_cases hown : first.2.isOwn = true
    · rw [if_pos hown, if_pos hown, Prod.ext hfirst.1 (hfirst.2.eq_of_isOwn hown)]
    · rw [if_neg hown, if_neg hown]

/-- What has come about from entries has still done so after entries have changed places. -/
theorem AllRebuilt.perm {like : Item → Item → Prop} (h : AllRebuilt like old new) (hperm : entries.Perm new)
    (hown : entries.filter (fun entry => entry.2.isOwn) = new.filter fun entry => entry.2.isOwn) :
    AllRebuilt like old entries where
  nodup := (hperm.map _).nodup_iff.2 h.nodup
  own := hown.trans h.own
  headed entry hentry := h.headed entry (hperm.mem_iff.1 hentry)
  complete name hname := (hperm.map _).mem_iff.2 (h.complete name hname)
  groups := haveClosedGroups_iff.2 fun entry hentry =>
    haveClosedGroups_iff.1 h.groups entry (hperm.mem_iff.1 hentry)

theorem Rebuilt.shuffled {item item' item'' : Item} (h : item.Rebuilt item')
    (hshuffled : item'.Shuffled item'') :
    item.Rebuilt item'' := by
  cases hshuffled with
  | refl => exact h
  | table hdotted hperm hown =>
    cases item with
    | table t => exact ⟨h.1, h.2.perm hperm hown⟩
    | value _ | tables _ => exact h.elim

theorem AllRebuilt.shuffled (h : AllRebuilt Rebuilt old new) (hshuffled : AllShuffled new entries) :
    AllRebuilt Rebuilt old entries where
  nodup := hshuffled.names_eq ▸ h.nodup
  own := hshuffled.filter_isOwn.trans h.own
  headed entry hentry hown := by
    obtain ⟨item, hitem, hmoved⟩ := hshuffled.exists_of_mem hentry
    obtain ⟨other, hother, hname, hrebuilt⟩ := h.headed _ hitem (hmoved.isOwn ▸ hown)
    exact ⟨other, hother, hname, hrebuilt.shuffled hmoved⟩
  complete name hname := hshuffled.names_eq ▸ h.complete name hname
  groups := haveClosedGroups_iff.2 fun entry hentry => by
    obtain ⟨item, hitem, hmoved⟩ := hshuffled.exists_of_mem hentry
    cases hown : item.isOwn with
    | true =>
      rw [hmoved.eq_of_isOwn hown]
      exact haveClosedGroups_iff.1 h.groups _ hitem
    | false =>
      obtain ⟨_, -, -, hrebuilt⟩ := h.headed _ hitem hown
      exact (hrebuilt.shuffled hmoved).hasClosedGroups

end Item

/-! ### Documents -/

/-- Moving headers among the entries of a table is like reading the document with them moved. -/
theorem Document.ReadBackFrom.shuffled {doc again : Document} (h : doc.ReadBackFrom again)
    (hshuffled : Item.AllShuffled again.root.entries entries) :
    doc.ReadBackFrom ⟨again.root.withEntries entries, again.trailing⟩ where
  root := ⟨h.root.origin, h.root.position⟩
  entries := h.entries.shuffled hshuffled
  headers := by
    have hmatches : Piece.Matches doc.opens true (Table.numbered 1 doc.printed)
        ((Item.pieces again.root.entries).filter Piece.isShown) := by
      obtain ⟨es, hperm, hes⟩ := (congrFun₂ List.forall₂_comp_perm_eq_perm_comp_forall₂ _ _).mp
        ⟨again.printed, h.headers, Piece.perm_inOrder 0 again.root.pieces⟩
      rw [Table.pieces_eq] at hes
      exact ⟨es, hperm, hes⟩
    exact (hshuffled.allResemble.filter_isShown.rebuiltAs hmatches).inOrder 0
  trailing := h.trailing

end FeatureForwarding.Toml
