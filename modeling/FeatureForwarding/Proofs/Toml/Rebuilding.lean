import FeatureForwarding.Proofs.Toml.Entering
import FeatureForwarding.Proofs.Toml.Reprinting
import Mathlib.Data.List.Perm.Basic
import Mathlib.Data.List.Forall2

/-! Sections that are put together again. The headers of an orderly table, each with its lines, make up a
table that has the same headers again, whichever way those of different keys are mixed. -/

namespace FeatureForwarding.Toml

variable {opens : Nat → Bool} {isTop : Bool} {key key' : Key} {t t' : Table} {item : Item}
  {entries front : List (Key × Item)} {e : Nat × Piece} {q q' : Piece}

/-! ### Headers that match -/

/-- The section that a piece is read as some keys further down. -/
def Piece.sectionAt (isTop isFirst : Bool) (q : Piece) : Section :=
  ⟨q.isArray, ⟨passedFrom (q.first.before isTop) q.first q.keys,
    endedFrom (q.last.decor.textBefore .headerPath) (q.first.before isTop) .headerPath q.first q.keys⟩,
    q.table.decor.written (Piece.surround isFirst), q.table.pairs.map Pair.line⟩

/-- The section of a piece with its position; `opens` tells which position is at the top of the text. -/
def Piece.sectionOf (opens : Nat → Bool) (isTop : Bool) (e : Nat × Piece) : Nat × Section :=
  (e.1, e.2.sectionAt isTop (opens e.1))

/-- The piece has come about from the section of the other one. -/
structure Piece.RebuiltAs (opens : Nat → Bool) (isTop : Bool) (e : Nat × Piece) (q : Piece) : Prop where
  steps : q.steps = e.2.steps
  isArray : q.isArray = e.2.isArray
  position : q.table.position = some e.1
  origin : q.table.origin = .explicit
  decor : q.table.decor = e.2.table.decor.written (Piece.surround (opens e.1))
  path : PathsAlike .headerPath isTop e.2.first e.2.keys q.first q.keys
  lines : Pair.lines q.table.pairs = Pair.lines e.2.table.pairs

/-- Piece by piece one list has come about from the other, in some order. -/
def Piece.Matches (opens : Nat → Bool) (isTop : Bool) (es : List (Nat × Piece)) (qs : List Piece) : Prop :=
  ∃ es', es.Perm es' ∧ List.Forall₂ (Piece.RebuiltAs opens isTop) es' qs

namespace Piece

variable {es es' : List (Nat × Piece)} {qs qs' : List Piece}

theorem RebuiltAs.under (h : RebuiltAs opens false e q) (hkey : key.PassesAlike isTop key') (step : Step) :
    RebuiltAs opens isTop (Prod.map id (under key step) e) (q.under key' step) where
  steps := congrArg (step :: ·) h.steps
  isArray := h.isArray
  position := h.position
  origin := h.origin
  decor := h.decor
  path := h.path.under hkey
  lines := h.lines

namespace Matches

theorem nil : Matches opens isTop [] [] := ⟨[], .refl _, .nil⟩

theorem append (h : Matches opens isTop es qs) (h' : Matches opens isTop es' qs') :
    Matches opens isTop (es ++ es') (qs ++ qs') := by
  obtain ⟨front, hfront, hqs⟩ := h
  obtain ⟨back, hback, hqs'⟩ := h'
  exact ⟨front ++ back, hfront.append hback, List.rel_append hqs hqs'⟩

theorem singleton (h : RebuiltAs opens isTop e q) : Matches opens isTop [e] [q] :=
  ⟨[e], .refl _, .cons h .nil⟩

theorem of_perm (hperm : es'.Perm es) (h : Matches opens isTop es qs) : Matches opens isTop es' qs := by
  obtain ⟨front, hfront, hqs⟩ := h
  exact ⟨front, hperm.trans hfront, hqs⟩

theorem under (h : Matches opens false es qs) (hkey : key.PassesAlike isTop key') (step : Step) :
    Matches opens isTop (es.map (Prod.map id (Piece.under key step))) (qs.map (Piece.under key' step)) := by
  obtain ⟨front, hfront, hqs⟩ := h
  refine ⟨_, hfront.map _, ?_⟩
  rw [List.forall₂_map_left_iff, List.forall₂_map_right_iff]
  exact hqs.imp fun _ _ h => h.under hkey step

end Matches

theorem filter_isShown_map_under (key : Key) (step : Step) (qs : List Piece) :
    (qs.map (under key step)).filter isShown = (qs.filter isShown).map (under key step) := by
  rw [List.filter_map]
  rfl

end Piece

/-- The pieces of one entry. -/
theorem Item.pieces_cons (entry : Key × Item) (rest : List (Key × Item)) :
    Item.pieces (entry :: rest) = Item.pieces [entry] ++ Item.pieces rest := by
  obtain ⟨key, _ | t | ts⟩ := entry <;> simp [Item.pieces]

theorem Item.pieces_append (front back : List (Key × Item)) :
    Item.pieces (front ++ back) = Item.pieces front ++ Item.pieces back := by
  induction front with
  | nil => rfl
  | cons entry front ih =>
    rw [List.cons_append, Item.pieces_cons, ih, Item.pieces_cons entry front, List.append_assoc]

theorem Table.first_of_mem_piecesOfArray {index : Nat} {ts : List Table}
    (h : q ∈ Table.piecesOfArray key index ts) :
    q.first = key := by
  induction ts generalizing index with
  | nil => exact absurd h List.not_mem_nil
  | cons t ts ih =>
    rw [Table.piecesOfArray] at h
    rcases List.mem_append.1 h with h | h
    · rcases List.mem_append.1 h with h | h
      · rw [Piece.ofTable] at h
        split at h
        · exact absurd h List.not_mem_nil
        · rw [List.mem_singleton.1 h]
      · obtain ⟨below, -, rfl⟩ := List.mem_map.1 h
        rfl
    · exact ih h

/-- The pieces of an entry start with its key. -/
theorem Item.first_of_mem_pieces (h : q ∈ Item.pieces [(key, item)]) : q.first = key := by
  cases item with
  | value v => exact absurd h List.not_mem_nil
  | table t =>
    rw [Item.pieces, Item.pieces, List.append_nil] at h
    rcases List.mem_append.1 h with h | h
    · rw [Piece.ofTable] at h
      split at h
      · exact absurd h List.not_mem_nil
      · rw [List.mem_singleton.1 h]
    · obtain ⟨below, -, rfl⟩ := List.mem_map.1 h
      rfl
  | tables ts =>
    rw [Item.pieces, Item.pieces, List.append_nil] at h
    exact Table.first_of_mem_piecesOfArray h

theorem Item.name_of_mem_pieces (h : q ∈ Item.pieces entries) : q.first.name ∈ names entries := by
  induction entries with
  | nil => exact absurd h List.not_mem_nil
  | cons entry rest ih =>
    rw [Item.pieces_cons] at h
    rcases List.mem_append.1 h with h | h
    · rw [Item.first_of_mem_pieces h]
      exact List.mem_cons_self
    · exact List.mem_cons_of_mem _ (ih h)

/-- The headers of one entry in the order in which they stand among those of all entries. -/
theorem Piece.filter_inOrder_entry {entry : Key × Item} (hnodup : (names entries).Nodup) (h : entry ∈ entries)
    (last : Nat) : ∃ last',
    (inOrder last (Item.pieces entries)).filter (fun q => q.first.name = entry.1.name) =
      inOrder last' (Item.pieces [entry]) := by
  obtain ⟨front, back, rfl⟩ := List.append_of_mem h
  rw [names, List.map_append, List.map_cons] at hnodup
  obtain ⟨-, hback, hdisjoint⟩ := List.nodup_append.1 hnodup
  rw [Item.pieces_append, Item.pieces_cons entry back, ← List.append_assoc]
  refine filter_inOrder (fun q hq => ?_) (fun q hq => ?_) fun q hq => ?_
  · exact decide_eq_true (congrArg Key.name (Item.first_of_mem_pieces hq))
  · refine decide_eq_false fun heq => ?_
    exact hdisjoint _ (Item.name_of_mem_pieces hq) _ List.mem_cons_self heq
  · refine decide_eq_false fun heq => ?_
    exact (List.nodup_cons.1 hback).1 (heq ▸ Item.name_of_mem_pieces hq)

/-- What matches entry by entry matches as a whole. -/
theorem Piece.matches_of_entries {es : List (Nat × Piece)} (hnodup : (names entries).Nodup)
    (hes : ∀ e ∈ es, e.2.first.name ∈ names entries)
    (h : ∀ entry ∈ entries, Matches opens isTop (es.filter fun e => e.2.first.name = entry.1.name)
      ((Item.pieces [entry]).filter isShown)) :
    Matches opens isTop es ((Item.pieces entries).filter isShown) := by
  induction entries generalizing es with
  | nil =>
    cases es with
    | nil => exact .nil
    | cons e es => exact absurd (hes e List.mem_cons_self) List.not_mem_nil
  | cons entry rest ih =>
    obtain ⟨hentry, hnodup⟩ := List.nodup_cons.1 hnodup
    obtain ⟨hfirst, hrest⟩ := List.forall_mem_cons.1 h
    rw [Item.pieces_cons, List.filter_append]
    refine .of_perm (List.filter_append_perm (fun e => decide (e.2.first.name = entry.1.name)) es).symm
      (hfirst.append (ih hnodup (fun e he => ?_) fun other hother => ?_))
    · obtain ⟨hmem, hne⟩ := List.mem_filter.1 he
      rcases List.mem_cons.1 (hes e hmem) with heq | hmem
      · simp [heq] at hne
      · exact hmem
    · have hne : other.1.name ≠ entry.1.name := fun heq => hentry (List.mem_map.2 ⟨other, hother, heq⟩)
      have hsame : ∀ e ∈ es,
          (decide (e.2.first.name = other.1.name) && !decide (e.2.first.name = entry.1.name)) =
          decide (e.2.first.name = other.1.name) := by
        intro e _
        by_cases heq : e.2.first.name = other.1.name
        · simp [heq, hne]
        · simp [heq]
      rw [List.filter_filter, List.filter_congr hsame]
      exact hrest other hother

/-! ### Entries that tables write themselves -/

/-- Whether the entry is written in the lines of its table. -/
def Item.isOwn : Item → Bool
  | .value _ => true
  | .table t => t.origin = .dotted
  | .tables _ => false

mutual

theorem Table.pieces_rereadBelow (t : Table) : Item.pieces t.rereadBelow = [] := by
  obtain ⟨_, _, _, entries⟩ := t
  rw [Table.rereadBelow, Item.pieces_rereadOwn false entries]
  termination_by structural t

/-- Nothing that is written in lines has a header. -/
theorem Item.pieces_rereadOwn (isTop : Bool) (entries : List (Key × Item)) :
    Item.pieces (Item.rereadOwn isTop entries) = [] := by
  match entries with
  | [] => rfl
  | (key, .value v) :: rest =>
    rw [Item.rereadOwn, Item.pieces, Item.pieces_rereadOwn isTop rest]
  | (key, .table t) :: rest =>
    rw [Item.rereadOwn, Item.pieces_append, Item.pieces_rereadOwn isTop rest, List.append_nil]
    split
    · rw [Item.pieces, Piece.ofTable, if_pos rfl, Table.pieces, Table.pieces_rereadBelow t]
      rfl
    · rfl
  | (_, .tables _) :: rest =>
    rw [Item.rereadOwn, Item.pieces_rereadOwn isTop rest]
  termination_by structural entries

end

mutual

theorem Table.haveClosedGroups_rereadBelow (t : Table) : Item.HaveClosedGroups t.rereadBelow := by
  obtain ⟨_, _, _, entries⟩ := t
  rw [Table.rereadBelow]
  exact Item.haveClosedGroups_rereadOwn false entries
  termination_by structural t

theorem Item.haveClosedGroups_rereadOwn (isTop : Bool) (entries : List (Key × Item)) :
    Item.HaveClosedGroups (Item.rereadOwn isTop entries) := by
  match entries with
  | [] => trivial
  | (_, .value _) :: rest => exact ⟨trivial, Item.haveClosedGroups_rereadOwn isTop rest⟩
  | (key, .table t) :: rest =>
    rw [Item.rereadOwn]
    split
    · refine ⟨⟨fun _ => ?_, ?_⟩, Item.haveClosedGroups_rereadOwn isTop rest⟩
      · rw [Table.pieces_eq, Table.pieces_rereadBelow]
      · rw [Table.hasClosedGroups_eq]
        exact Table.haveClosedGroups_rereadBelow t
    · exact Item.haveClosedGroups_rereadOwn isTop rest
  | (_, .tables _) :: rest => exact Item.haveClosedGroups_rereadOwn isTop rest
  termination_by structural entries

end

/-- The entries that are read back are those that are written in lines. -/
theorem Item.mem_names_rereadOwn {name : String} :
    name ∈ names (Item.rereadOwn isTop entries) ↔ ∃ entry ∈ entries, entry.1.name = name ∧ entry.2.isOwn := by
  induction entries with
  | nil => simp [Item.rereadOwn, names]
  | cons entry rest ih =>
    simp only [List.mem_cons, exists_eq_or_imp, ← ih]
    obtain ⟨key, v | t | ts⟩ := entry
    · rw [Item.rereadOwn, names, List.map_cons, List.mem_cons, ← names]
      simp only [Item.isOwn, and_true]
      exact or_congr_left eq_comm
    · rw [Item.rereadOwn, names, List.map_append, List.mem_append, ← names, ← names]
      refine or_congr_left ?_
      split
      · next hdotted =>
        simp only [Item.isOwn, hdotted, decide_true, and_true]
        exact List.mem_singleton.trans eq_comm
      · next hdotted => simp [Item.isOwn, hdotted, names]
    · rw [Item.rereadOwn]
      simp [Item.isOwn]

theorem Item.isOwn_of_mem_rereadOwn {entry : Key × Item} (h : entry ∈ Item.rereadOwn isTop entries) :
    entry.2.isOwn := by
  induction entries with
  | nil => exact absurd h List.not_mem_nil
  | cons first rest ih =>
    obtain ⟨key, v | t | ts⟩ := first
    · rcases List.mem_cons.1 h with rfl | h
      · rfl
      · exact ih h
    · rcases List.mem_append.1 h with h | h
      · split at h
        · rw [List.mem_singleton.1 h]
          rfl
        · exact absurd h List.not_mem_nil
      · exact ih h
    · exact ih h

/-- Headers below a table add nothing to its lines. -/
theorem Item.pairs_filter_isOwn (entries : List (Key × Item)) :
    Item.pairs (entries.filter fun entry => entry.2.isOwn) = Item.pairs entries := by
  induction entries with
  | nil => rfl
  | cons entry rest ih =>
    obtain ⟨key, v | t | ts⟩ := entry
    · rw [List.filter_cons_of_pos rfl, Item.pairs, Item.pairs, ih]
    · have hown : Item.isOwn (.table t) = decide (t.origin = .dotted) := rfl
      rw [List.filter_cons, hown, Item.pairs]
      by_cases hdotted : t.origin = .dotted
      · rw [if_pos (decide_eq_true hdotted), if_pos hdotted, Item.pairs, if_pos hdotted, ih]
      · rw [if_neg (by simpa using hdotted), if_neg hdotted, ih, List.nil_append]
    · rw [List.filter_cons_of_neg (by simp [Item.isOwn]), ih, Item.pairs]

theorem Item.pieces_of_isOwn (h : Item.AreOrderly entries) {entry : Key × Item} (hentry : entry ∈ entries)
    (hown : entry.2.isOwn) : Item.pieces [entry] = [] := by
  induction entries with
  | nil => exact absurd hentry List.not_mem_nil
  | cons first rest ih =>
    obtain ⟨key, v | t | ts⟩ := first
    · rcases List.mem_cons.1 hentry with rfl | hentry
      · rfl
      · exact ih h.2 hentry
    · rcases List.mem_cons.1 hentry with rfl | hentry
      · have hdotted : t.origin = .dotted := of_decide_eq_true hown
        have hgroup := h.1
        rw [if_pos hdotted] at hgroup
        rw [Item.pieces, Piece.ofTable, if_pos hdotted, hgroup.pieces]
        rfl
      · exact ih h.2.2 hentry
    · rcases List.mem_cons.1 hentry with rfl | hentry
      · simp [Item.isOwn] at hown
      · exact ih h.2.2 hentry

theorem Item.mem_pieces_iff : q ∈ Item.pieces entries ↔ ∃ entry ∈ entries, q ∈ Item.pieces [entry] := by
  induction entries with
  | nil => simp [Item.pieces]
  | cons entry rest ih =>
    rw [Item.pieces_cons, List.mem_append, ih]
    simp only [List.mem_cons, exists_eq_or_imp]

/-! ### What comes about -/

/-- Both are tables with headers or both arrays of tables. -/
def Item.SameKind : Item → Item → Prop
  | .table t, .table t' => t.origin ≠ .dotted ∧ t'.origin ≠ .dotted
  | .tables _, .tables _ => True
  | _, _ => False

/-- The entries have come about from the others: those that are written in lines as they are read back, in
their order, and the others with what is below them. -/
structure Item.AllRebuilt (like : Item → Item → Prop) (old new : List (Key × Item)) : Prop where
  nodup : (names new).Nodup
  own : new.filter (fun entry => entry.2.isOwn) = Item.rereadOwn true old
  headed : ∀ entry ∈ new, entry.2.isOwn = false →
    ∃ other ∈ old, other.1.name = entry.1.name ∧ like other.2 entry.2
  complete : ∀ name ∈ names old, name ∈ names new
  groups : HaveClosedGroups new

/-- A table or an array of tables that has come about from another one. -/
def Item.Rebuilt : Item → Item → Prop
  | .table t, .table t' => (t.origin ≠ .dotted ∧ t'.origin ≠ .dotted) ∧
    AllRebuilt SameKind t.entries t'.entries
  | .tables _, .tables ts' => Table.HaveClosedGroups ts'
  | _, _ => False

theorem Item.Rebuilt.hasClosedGroups {item item' : Item} (h : item.Rebuilt item') :
    item'.HasClosedGroups := by
  cases item <;> cases item' <;> try exact h.elim
  · refine ⟨fun hdotted => absurd hdotted h.1.2, ?_⟩
    rw [Table.hasClosedGroups_eq]
    exact h.2.groups
  · exact h

theorem Item.isOwn_of_rebuilt {item item' : Item} (h : item.Rebuilt item') :
    item.isOwn = false ∧ item'.isOwn = false := by
  cases item <;> cases item' <;> first | exact h.elim | simp_all [Item.Rebuilt, Item.isOwn]

/-- Whatever position the headers from an entry on have, they make up an entry that matches. -/
def Item.Rebuilds (opens : Nat → Bool) (isTop : Bool) (key : Key) (item : Item) : Prop :=
  ∀ es : List (Nat × Piece), (∃ last, es.map Prod.snd = Piece.inOrder last (Item.pieces [(key, item)])) →
    ∃ new : Key × Item, Table.enterAll? none (es.map (Piece.sectionOf opens isTop)) = some (some new) ∧
      new.1.name = key.name ∧ item.Rebuilt new.2 ∧
      Piece.Matches opens isTop es ((Item.pieces [new]).filter Piece.isShown)

/-- The same of the headers below a table, of which some stand in front of its own lines. -/
def Table.Rebuilds (opens : Nat → Bool) (isTop : Bool) (t : Table) : Prop :=
  ∀ front back : List (Nat × Piece), (∃ last, (front ++ back).map Prod.snd = Piece.inOrder last t.pieces) →
    ∃ known, addAll? (passage .implied) (front.map (Piece.sectionOf opens isTop)) =
        some ((passage .implied).withEntries known) ∧
      (∀ name ∈ names (Item.rereadOwn true t.entries), find? name known = none) ∧
      ∀ start : Table, start.entries = known ++ Item.rereadOwn true t.entries →
        ∃ new, addAll? start (back.map (Piece.sectionOf opens isTop)) = some (start.withEntries new) ∧
          Item.AllRebuilt Item.Rebuilt t.entries new ∧
          Piece.Matches opens isTop (front ++ back) ((Item.pieces new).filter Piece.isShown)

/-! ### From entries to their table -/

theorem Piece.head_sectionAt (isTop isFirst : Bool) (q : Piece) :
    (q.sectionAt isTop isFirst).head = q.first.name := by
  rw [Section.head, Piece.sectionAt]
  cases q.keys <;> rfl

/-- The headers that start with the name. -/
def Piece.startingWith (name : String) (es : List (Nat × Piece)) : List (Nat × Piece) :=
  es.filter fun e => e.2.first.name = name

theorem Piece.startingWith_map_sectionOf (name : String) (es : List (Nat × Piece)) :
    Table.startingWith name (es.map (Piece.sectionOf opens isTop)) =
      (Piece.startingWith name es).map (Piece.sectionOf opens isTop) := by
  rw [Table.startingWith, List.filter_map, Piece.startingWith]
  congr 2
  funext e
  simp only [Function.comp_apply, Piece.sectionOf, Piece.head_sectionAt]

theorem Piece.map_snd_startingWith (name : String) (es : List (Nat × Piece)) :
    (Piece.startingWith name es).map Prod.snd = (es.map Prod.snd).filter fun q => q.first.name = name := by
  rw [List.filter_map]
  rfl

theorem Piece.startingWith_append (name : String) (front back : List (Nat × Piece)) :
    Piece.startingWith name (front ++ back) = Piece.startingWith name front ++ Piece.startingWith name back :=
  List.filter_append ..

namespace Table

variable {es front back : List (Nat × Piece)} {known new : List (Key × Item)} {name : String}

/-- No header starts with the name, and what the table has under it stands in its lines. -/
structure WritesOwn (t : Table) (es : List (Nat × Piece)) (name : String) : Prop where
  headers : Piece.startingWith name es = []
  isOwn : ∀ entry ∈ t.entries, entry.1.name = name → entry.2.isOwn

/-- The headers that start with the name make up an entry that has come about from one of the table. -/
structure WritesHeaders (opens : Nat → Bool) (isTop : Bool) (t : Table) (es : List (Nat × Piece))
    (name : String) :
    Prop where
  isOwn : ∀ entry ∈ t.entries, entry.1.name = name → entry.2.isOwn = false
  made : ∃ entry ∈ t.entries, entry.1.name = name ∧ ∃ new : Key × Item,
    enterAll? none ((Piece.startingWith name es).map (Piece.sectionOf opens isTop)) = some (some new) ∧
      entry.2.Rebuilt new.2 ∧
      Piece.Matches opens isTop (Piece.startingWith name es) ((Item.pieces [new]).filter Piece.isShown)

/-- The names of a table fall apart into those that it writes itself and those that lead to headers. -/
theorem writes_name (h : t.IsOrderly)
    (hentries : ∀ entry ∈ t.entries, entry.2.isOwn = false → entry.2.Rebuilds opens isTop entry.1)
    {last : Nat} (hes : es.map Prod.snd = Piece.inOrder last t.pieces) (name : String) :
    t.WritesOwn es name ∨ t.WritesHeaders opens isTop es name := by
  obtain ⟨hnodup, horderly⟩ := isOrderly_iff.1 h
  rw [pieces_eq] at hes
  by_cases hheaded : ∃ entry ∈ t.entries, entry.1.name = name ∧ entry.2.isOwn = false
  · obtain ⟨entry, hentry, rfl, hown⟩ := hheaded
    obtain ⟨last', hlast⟩ := Piece.filter_inOrder_entry hnodup hentry last
    have hsame : (Piece.startingWith entry.1.name es).map Prod.snd =
        Piece.inOrder last' (Item.pieces [entry]) := by
      rw [Piece.map_snd_startingWith, hes, hlast]
    obtain ⟨new, hnew, -, hrebuilt, hmatches⟩ := hentries entry hentry hown _ ⟨last', hsame⟩
    refine .inr ⟨fun other hother heq => ?_, entry, hentry, rfl, new, hnew, hrebuilt, hmatches⟩
    rw [List.inj_on_of_nodup_map hnodup hother hentry heq]
    exact hown
  · simp only [not_exists, not_and, Bool.not_eq_false] at hheaded
    refine .inl ⟨List.filter_eq_nil_iff.2 fun e he => ?_, hheaded⟩
    have hmem : e.2 ∈ Piece.inOrder last (Item.pieces t.entries) := hes ▸ List.mem_map_of_mem he
    obtain ⟨entry, hentry, hpiece⟩ := Item.mem_pieces_iff.1 (Piece.mem_inOrder hmem).1
    have hfirst : e.2.first = entry.1 := Item.first_of_mem_pieces hpiece
    simp only [decide_eq_true_eq]
    intro hname
    rw [Item.pieces_of_isOwn horderly hentry (hheaded entry hentry (hfirst ▸ hname))] at hpiece
    exact absurd hpiece List.not_mem_nil

theorem WritesOwn.parts (h : t.WritesOwn (front ++ back) name) :
    Piece.startingWith name front = [] ∧ Piece.startingWith name back = [] :=
  List.append_eq_nil_iff.1 (Piece.startingWith_append name front back ▸ h.headers)

theorem WritesHeaders.notMem_own (h : t.WritesHeaders opens isTop es name) :
    name ∉ names (Item.rereadOwn true t.entries) := by
  intro hmem
  obtain ⟨entry, hentry, hname, hown⟩ := Item.mem_names_rereadOwn.1 hmem
  rw [h.isOwn entry hentry hname] at hown
  exact Bool.false_ne_true hown

/-! ### The run over all headers -/

/-- The headers in front of the lines make up the entries that are known by then. -/
def RunsAhead (opens : Nat → Bool) (isTop : Bool) (front : List (Nat × Piece))
    (known : List (Key × Item)) : Prop :=
  ∀ name, enterAll? none ((Piece.startingWith name front).map (Piece.sectionOf opens isTop)) =
    some (stored? name known)

/-- The headers behind the lines go on from there and from what the lines say. -/
structure RunsBehind (opens : Nat → Bool) (isTop : Bool) (t : Table) (back : List (Nat × Piece))
    (known new : List (Key × Item)) : Prop where
  nodup : (names new).Nodup
  stored : ∀ name, enterAll? (stored? name (known ++ Item.rereadOwn true t.entries))
    ((Piece.startingWith name back).map (Piece.sectionOf opens isTop)) = some (stored? name new)
  kept : ∀ p : String → Bool, (∀ e ∈ back, p e.2.first.name = false) →
    new.filter (fun entry => p entry.1.name) =
      (known ++ Item.rereadOwn true t.entries).filter fun entry => p entry.1.name

section

variable (hwrites : ∀ name, t.WritesOwn (front ++ back) name ∨
    t.WritesHeaders opens isTop (front ++ back) name)

include hwrites

theorem exists_ahead : ∃ known,
    addAll? (passage .implied) (front.map (Piece.sectionOf opens isTop)) =
        some ((passage .implied).withEntries known) ∧
      (names known).Nodup ∧ RunsAhead opens isTop front known := by
  have hfront : ∀ name, (enterAll? (stored? name (passage .implied).entries)
      (startingWith name (front.map (Piece.sectionOf opens isTop)))).isSome := by
    intro name
    rw [Piece.startingWith_map_sectionOf]
    rcases hwrites name with hown | ⟨-, _, -, -, new, hnew, -⟩
    · rw [hown.parts.1]
      rfl
    · rw [Piece.startingWith_append, List.map_append, enterAll?_append] at hnew
      obtain ⟨old, hold, -⟩ := Option.bind_eq_some_iff.1 hnew
      exact Option.isSome_iff_exists.2 ⟨old, hold⟩
  obtain ⟨known, hknown, hnodup, hrun, -⟩ := addAll?_eq_some (t := passage .implied) .nil hfront
  refine ⟨known, hknown, hnodup, fun name => ?_⟩
  rw [← Piece.startingWith_map_sectionOf, ← hrun name]
  rfl

/-- What the lines say was not known before. -/
theorem RunsAhead.stored?_own (h : RunsAhead opens isTop front known) :
    ∀ name ∈ names (Item.rereadOwn true t.entries), stored? name known = none := by
  intro name hmem
  rcases hwrites name with hown | hheaders
  · have hrun := h name
    rw [hown.parts.1] at hrun
    exact (Option.some.inj hrun).symm
  · exact absurd hmem hheaders.notMem_own

theorem RunsAhead.exists_behind (h : RunsAhead opens isTop front known) (hknown : (names known).Nodup)
    (hnodup : (names t.entries).Nodup) {start : Table}
    (hstart : start.entries = known ++ Item.rereadOwn true t.entries) :
    ∃ new, addAll? start (back.map (Piece.sectionOf opens isTop)) = some (start.withEntries new) ∧
      RunsBehind opens isTop t back known new := by
  have hstartNodup : (names start.entries).Nodup := by
    rw [hstart, names, List.map_append]
    refine List.nodup_append.2 ⟨hknown, hnodup.sublist (names_rereadOwn_sublist true t.entries), ?_⟩
    rintro name hmem other hother rfl
    exact stored?_eq_none.1 (h.stored?_own hwrites name hother) hmem
  have hback : ∀ name, (enterAll? (stored? name start.entries)
      (startingWith name (back.map (Piece.sectionOf opens isTop)))).isSome := by
    intro name
    rw [Piece.startingWith_map_sectionOf]
    rcases hwrites name with hown | hheaders
    · rw [hown.parts.2]
      rfl
    · obtain ⟨_, -, -, new, hnew, -⟩ := hheaders.made
      rw [Piece.startingWith_append, List.map_append, enterAll?_append, h name, Option.bind_some] at hnew
      rw [hstart, stored?_append, stored?_eq_none.2 hheaders.notMem_own, Option.or_none, hnew]
      rfl
  obtain ⟨new, hnew, hnewNodup, hrun, hkept⟩ := addAll?_eq_some hstartNodup hback
  refine ⟨new, hnew, hnewNodup, fun name => ?_, fun p hp => ?_⟩
  · rw [← hrun name, hstart, Piece.startingWith_map_sectionOf]
  · rw [← hstart]
    refine hkept p fun s hs => ?_
    obtain ⟨e, he, rfl⟩ := List.mem_map.1 hs
    rw [Piece.sectionOf, Piece.head_sectionAt]
    exact hp e he

omit hwrites in
theorem RunsBehind.stored?_of_headers (h : RunsBehind opens isTop t back known new)
    (hahead : RunsAhead opens isTop front known)
    (hheaders : t.WritesHeaders opens isTop (front ++ back) name) :
    enterAll? none ((Piece.startingWith name (front ++ back)).map (Piece.sectionOf opens isTop)) =
      some (stored? name new) := by
  rw [Piece.startingWith_append, List.map_append, enterAll?_append, hahead name, Option.bind_some,
    ← h.stored name, stored?_append, stored?_eq_none.2 hheaders.notMem_own, Option.or_none]

omit hwrites in
theorem RunsBehind.stored?_of_own (h : RunsBehind opens isTop t back known new)
    (hahead : RunsAhead opens isTop front known) (hown : t.WritesOwn (front ++ back) name) :
    stored? name new = stored? name (Item.rereadOwn true t.entries) := by
  obtain ⟨hfront, hback⟩ := hown.parts
  have hknown := hahead name
  have hnew := h.stored name
  rw [hfront] at hknown
  rw [hback] at hnew
  rw [← Option.some.inj hnew, stored?_append, ← Option.some.inj hknown, Option.none_or]

/-- An entry stands in the lines, or the headers of its name make it up. -/
theorem RunsBehind.cases (h : RunsBehind opens isTop t back known new)
    (hahead : RunsAhead opens isTop front known) :
    ∀ entry ∈ new, (entry ∈ Item.rereadOwn true t.entries ∧
    Piece.startingWith entry.1.name (front ++ back) = []) ∨
      entry.1.name ∉ names (Item.rereadOwn true t.entries) ∧
        (∃ other ∈ t.entries, other.1.name = entry.1.name ∧ other.2.Rebuilt entry.2) ∧
        Piece.Matches opens isTop (Piece.startingWith entry.1.name (front ++ back))
          ((Item.pieces [entry]).filter Piece.isShown) := by
  intro entry hentry
  have hself := stored?_of_mem h.nodup hentry
  rcases hwrites entry.1.name with hown | hheaders
  · rw [h.stored?_of_own hahead hown] at hself
    exact .inl ⟨(mem_of_stored? hself).1, hown.headers⟩
  · obtain ⟨other, hother, hsame, found, hfound, hrebuilt, hmatches⟩ := hheaders.made
    rw [h.stored?_of_headers hahead hheaders, hself, Option.some.injEq, Option.some.injEq] at hfound
    subst hfound
    exact .inr ⟨hheaders.notMem_own, ⟨other, hother, hsame, hrebuilt⟩, hmatches⟩

theorem RunsBehind.complete (h : RunsBehind opens isTop t back known new)
    (hahead : RunsAhead opens isTop front known) :
    ∀ name ∈ names t.entries, name ∈ names new := by
  intro name hmem
  by_contra hnone
  rw [← stored?_eq_none] at hnone
  rcases hwrites name with hown | hheaders
  · obtain ⟨entry, hentry, rfl⟩ := List.mem_map.1 hmem
    rw [h.stored?_of_own hahead hown, stored?_eq_none] at hnone
    exact hnone (Item.mem_names_rereadOwn.2 ⟨entry, hentry, rfl, hown.isOwn entry hentry rfl⟩)
  · obtain ⟨_, -, -, found, hfound, -⟩ := hheaders.made
    rw [h.stored?_of_headers hahead hheaders, hnone] at hfound
    exact absurd (Option.some.inj hfound) (Option.some_ne_none _).symm

/-- No header behind the lines touches what they say. -/
theorem RunsBehind.filter_isOwn (h : RunsBehind opens isTop t back known new)
    (hahead : RunsAhead opens isTop front known) :
    new.filter (fun entry => entry.2.isOwn) = Item.rereadOwn true t.entries := by
  have hsame : ∀ entry ∈ new, entry.2.isOwn =
      decide (entry.1.name ∈ names (Item.rereadOwn true t.entries)) := by
    intro entry hentry
    rcases h.cases hwrites hahead entry hentry with ⟨hmem, -⟩ | ⟨hnot, ⟨_, -, -, hrebuilt⟩, -⟩
    · rw [Item.isOwn_of_mem_rereadOwn hmem]
      exact (decide_eq_true (List.mem_map_of_mem hmem)).symm
    · rw [(Item.isOwn_of_rebuilt hrebuilt).2, decide_eq_false hnot]
  have hback : ∀ e ∈ back, decide (e.2.first.name ∈ names (Item.rereadOwn true t.entries)) = false := by
    intro e he
    have hstarting : e ∈ Piece.startingWith e.2.first.name (front ++ back) :=
      List.mem_filter.2 ⟨List.mem_append_right _ he, decide_eq_true rfl⟩
    rcases hwrites e.2.first.name with hown | hheaders
    · rw [hown.headers] at hstarting
      exact absurd hstarting List.not_mem_nil
    · exact decide_eq_false hheaders.notMem_own
  rw [List.filter_congr hsame, h.kept
    (fun name => decide (name ∈ names (Item.rereadOwn true t.entries))) hback,
    List.filter_append, List.filter_eq_nil_iff.2, List.nil_append, List.filter_eq_self]
  · exact fun entry hentry => decide_eq_true (List.mem_map_of_mem hentry)
  · intro entry hentry hmem
    exact stored?_eq_none.1 (hahead.stored?_own hwrites _ (of_decide_eq_true hmem))
      (List.mem_map_of_mem hentry)

theorem RunsBehind.allRebuilt (h : RunsBehind opens isTop t back known new)
    (hahead : RunsAhead opens isTop front known) : Item.AllRebuilt Item.Rebuilt t.entries new where
  nodup := h.nodup
  own := h.filter_isOwn hwrites hahead
  headed entry hentry hheaded := by
    rcases h.cases hwrites hahead entry hentry with ⟨hmem, -⟩ | ⟨-, hother, -⟩
    · rw [Item.isOwn_of_mem_rereadOwn hmem] at hheaded
      exact absurd hheaded Bool.noConfusion
    · exact hother
  complete := h.complete hwrites hahead
  groups := Item.haveClosedGroups_iff.2 fun entry hentry => by
    rcases h.cases hwrites hahead entry hentry with ⟨hmem, -⟩ | ⟨-, ⟨_, -, -, hrebuilt⟩, -⟩
    · exact Item.haveClosedGroups_iff.1 (Item.haveClosedGroups_rereadOwn true t.entries) entry hmem
    · exact hrebuilt.hasClosedGroups

theorem RunsBehind.matches (h : RunsBehind opens isTop t back known new)
    (hahead : RunsAhead opens isTop front known)
    (hnames : ∀ e ∈ front ++ back, e.2.first.name ∈ names t.entries) :
    Piece.Matches opens isTop (front ++ back) ((Item.pieces new).filter Piece.isShown) := by
  refine Piece.matches_of_entries h.nodup (fun e he => h.complete hwrites hahead _ (hnames e he))
    fun entry hentry => ?_
  rcases h.cases hwrites hahead entry hentry with ⟨hmem, hnil⟩ | ⟨-, -, hmatches⟩
  · have hpieces : Item.pieces [entry] = [] := by
      have hall := Item.pieces_rereadOwn true t.entries
      obtain ⟨front, back, hsplit⟩ := List.append_of_mem hmem
      rw [hsplit, Item.pieces_append, Item.pieces_cons] at hall
      exact (List.append_eq_nil_iff.1 (List.append_eq_nil_iff.1 hall).2).1
    rw [hpieces]
    change Piece.Matches opens isTop (Piece.startingWith entry.1.name (front ++ back)) []
    rw [hnil]
    exact .nil
  · exact hmatches

end

/-- If the entries with headers are rebuilt, so is their table. -/
theorem rebuilds_of_entries (h : t.IsOrderly)
    (hentries : ∀ entry ∈ t.entries, entry.2.isOwn = false → entry.2.Rebuilds opens isTop entry.1) :
    t.Rebuilds opens isTop := by
  rintro front back ⟨last, hes⟩
  have hwrites := writes_name h hentries hes
  have hnames : ∀ e ∈ front ++ back, e.2.first.name ∈ names t.entries := by
    intro e he
    have hmem : e.2 ∈ Piece.inOrder last t.pieces := hes ▸ List.mem_map_of_mem he
    rw [pieces_eq] at hmem
    exact Item.name_of_mem_pieces (Piece.mem_inOrder hmem).1
  obtain ⟨known, hknown, hnodup, hahead⟩ := exists_ahead hwrites
  refine ⟨known, hknown, fun name hmem => ?_, fun start hstart => ?_⟩
  · rw [find?_eq_stored?, hahead.stored?_own hwrites name hmem]
    rfl
  · obtain ⟨new, hnew, hbehind⟩ := hahead.exists_behind hwrites hnodup (isOrderly_iff.1 h).1 hstart
    exact ⟨new, hnew, hbehind.allRebuilt hwrites hahead, hbehind.matches hwrites hahead hnames⟩

end Table

end FeatureForwarding.Toml
