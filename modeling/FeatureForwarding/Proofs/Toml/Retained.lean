import FeatureForwarding.Proofs.Toml.RoundTrip

/-! What a document that was read back still holds. Entry by entry it has the names of the old one, with
the same texts and lists under them. -/

namespace FeatureForwarding.Toml

variable {like : Item → Item → Prop} {isTop : Bool} {item item' : Item} {entry : Key × Item}
  {old new entries : List (Key × Item)} {t : Table} {name : String}

namespace Value

theorem text?_reread (unset : Surround) (v : Value) : (v.reread unset).text? = v.text? := by
  match v with
  | .scalar _ s => cases s <;> rfl
  | .array _ _ _ _ => rfl
  | .inline _ true _ _ => rfl
  | .inline _ false _ _ => rfl

/-- Keys keep their names. -/
theorem names_rereadIn (isTop : Bool) (unset : Surround) (entries : List (Key × Value)) :
    names (rereadIn isTop unset entries) = names entries := by
  induction entries with
  | nil => rfl
  | cons entry rest ih => 
    rw [rereadIn, names, List.map_cons, ← names, ih, name_reread]
    rfl

theorem exists_of_mem_rereadIn {unset : Surround} {entries : List (Key × Value)} {entry : Key × Value}
    (h : entry ∈ rereadIn isTop unset entries) :
    ∃ other ∈ entries, other.1.name = entry.1.name ∧ ∃ unset, entry.2 = other.2.reread unset := by
  induction entries with
  | nil => exact absurd h List.not_mem_nil
  | cons first rest ih =>
    obtain ⟨key, v⟩ := first
    rw [rereadIn] at h
    rcases List.mem_cons.1 h with rfl | h
    · exact ⟨(key, v), List.mem_cons_self, (name_reread ..).symm, _, rfl⟩
    · obtain ⟨other, hother, hname, hvalue⟩ := ih h
      exact ⟨other, List.mem_cons_of_mem _ hother, hname, hvalue⟩

end Value

namespace Item

/-- What an item is read back as. Tables that are not written in lines are as `like` says. -/
inductive ReadAs (like : Item → Item → Prop) : Item → Item → Prop
  | value (v : Value) (unset : Surround) : ReadAs like (.value v) (.value (v.reread unset))
  | group {t : Table} (h : t.origin = .dotted) :
    ReadAs like (.table t) (.table ⟨.dotted, {}, none, t.rereadBelow⟩)
  | headed {item item' : Item} (h : like item item') : ReadAs like item item'

/-- Entries with the names of the old ones, under which what stood there was read back. -/
structure AllReadAs (like : Item → Item → Prop) (old new : List (Key × Item)) : Prop where
  nodup : (names new).Nodup
  all : ∀ entry ∈ new, ∃ other ∈ old, other.1.name = entry.1.name ∧ ReadAs like other.2 entry.2
  complete : ∀ name ∈ names old, name ∈ names new

theorem exists_of_mem_rereadOwn (like : Item → Item → Prop) (h : entry ∈ rereadOwn isTop entries) :
    ∃ other ∈ entries, other.1.name = entry.1.name ∧ other.2.isOwn ∧ ReadAs like other.2 entry.2 := by
  induction entries with
  | nil => exact absurd h List.not_mem_nil
  | cons first rest ih =>
    have hlater (h : entry ∈ rereadOwn isTop rest) :
        ∃ other ∈ first :: rest, other.1.name = entry.1.name ∧ other.2.isOwn ∧
          ReadAs like other.2 entry.2 := by
      obtain ⟨other, hother, hread⟩ := ih h
      exact ⟨other, List.mem_cons_of_mem _ hother, hread⟩
    obtain ⟨key, v | t | ts⟩ := first
    · rcases List.mem_cons.1 h with rfl | h
      · exact ⟨(key, .value v), List.mem_cons_self, rfl, rfl, .value v _⟩
      · exact hlater h
    · rcases List.mem_append.1 h with h | h
      · split at h
        · next hdotted =>
          rw [List.mem_singleton.1 h]
          exact ⟨(key, .table t), List.mem_cons_self, rfl, decide_eq_true hdotted, .group hdotted⟩
        · exact absurd h List.not_mem_nil
      · exact hlater h
    · exact hlater h

theorem AllRebuilt.allReadAs (h : AllRebuilt like old new) : AllReadAs like old new where
  nodup := h.nodup
  all entry hentry := by
    cases hown : entry.2.isOwn with
    | true =>
      have hmem : entry ∈ rereadOwn true old := h.own ▸ List.mem_filter.2 ⟨hentry, hown⟩
      obtain ⟨other, hother, hname, -, hread⟩ := exists_of_mem_rereadOwn like hmem
      exact ⟨other, hother, hname, hread⟩
    | false =>
      obtain ⟨other, hother, hname, hlike⟩ := h.headed entry hentry hown
      exact ⟨other, hother, hname, .headed hlike⟩
  complete := h.complete

/-- What is found under a name was read back from what was found there before. -/
theorem AllReadAs.find? (h : AllReadAs like old new) (hnodup : (names old).Nodup) (name : String) :
    Option.Rel (ReadAs like) (find? name old) (find? name new) := by
  cases hold : Toml.find? name old with
  | none =>
    have hnew : Toml.find? name new = none := by
      rw [find?_eq_none]
      intro hmem
      obtain ⟨entry, hentry, rfl⟩ := List.mem_map.1 hmem
      obtain ⟨other, hother, hname, -⟩ := h.all entry hentry
      exact find?_eq_none.1 hold (List.mem_map.2 ⟨other, hother, hname⟩)
    rw [hnew]
    exact .none
  | some item =>
    rw [find?_eq_stored?] at hold
    obtain ⟨first, hfirst, rfl⟩ := Option.map_eq_some_iff.1 hold
    obtain ⟨hmem, rfl⟩ := mem_of_stored? hfirst
    obtain ⟨entry, hentry, hname⟩ := List.mem_map.1 (h.complete _ (List.mem_map_of_mem hmem))
    obtain ⟨other, hother, hsame, hread⟩ := h.all entry hentry
    obtain rfl : other = first := List.inj_on_of_nodup_map hnodup hother hmem (hsame.trans hname)
    rw [find?_eq_stored?, ← hname, stored?_of_mem h.nodup hentry]
    exact .some hread

/-- Where nothing leads to a header all entries are written in lines. -/
theorem isOwn_of_pieces (h : AreOrderly entries) (hpieces : pieces entries = []) :
    ∀ entry ∈ entries, entry.2.isOwn := by
  induction entries with
  | nil => nofun
  | cons first rest ih =>
    rw [pieces_cons] at hpieces
    obtain ⟨hfirst, hrest⟩ := List.append_eq_nil_iff.1 hpieces
    obtain ⟨key, v | t | ts⟩ := first
    · exact List.forall_mem_cons.2 ⟨rfl, ih h.2 hrest⟩
    · refine List.forall_mem_cons.2 ⟨decide_eq_true ?_, ih h.2.2 hrest⟩
      by_contra hdotted
      rw [pieces, Piece.ofTable, if_neg hdotted] at hfirst
      exact absurd hfirst (List.cons_ne_nil _ _)
    · obtain ⟨t, ts, rfl⟩ := List.exists_cons_of_ne_nil h.1.2.nonempty
      rw [pieces, Table.piecesOfArray, Piece.ofTable, if_neg (h.1.2.origin t List.mem_cons_self)] at hfirst
      exact absurd hfirst (List.cons_ne_nil _ _)

/-! ### Fields -/

/-- The fields of the item have names of their own, and those of a table made by dotted keys are all
written in lines. -/
structure HasFields (item : Item) : Prop where
  nodup : ∀ fields ∈ item.tableLike?, (names fields).Nodup
  own : ∀ t, item = .table t → t.origin = .dotted → ∀ entry ∈ t.entries, entry.2.isOwn

theorem hasFields_of_mem (horderly : AreOrderly entries) (hlegible : AreLegible entries) :
    ∀ entry ∈ entries, entry.2.HasFields := by
  induction entries with
  | nil => simp
  | cons first rest ih =>
    obtain ⟨key, v | t | ts⟩ := first
    · refine List.forall_mem_cons.2 ⟨⟨fun fields hfields => ?_, by simp⟩, ih horderly.2 hlegible.2⟩
      have hvalue := hlegible.1.value
      obtain ⟨_, _⟩ | ⟨_, _, _, _⟩ | ⟨_, _, _, entries⟩ := v
      · exact absurd hfields (Option.some_ne_none _).symm
      · exact absurd hfields (Option.some_ne_none _).symm
      · rw [Option.mem_def, tableLike?, Option.some.injEq] at hfields
        have hnames : names fields = names entries := by
          rw [← hfields, names, List.map_map]
          rfl
        rw [hnames]
        exact hvalue.2.1
    · obtain ⟨htable, ht, hrest⟩ := horderly
      obtain ⟨hnodup, hentries⟩ := Table.isOrderly_iff.1 ht
      refine List.forall_mem_cons.2 ⟨⟨fun fields hfields => ?_, fun _ heq hdotted => ?_⟩,
        ih hrest hlegible.2.2⟩
      · rw [Option.mem_def, tableLike?, Option.some.injEq] at hfields
        rw [← hfields]
        exact hnodup
      · obtain rfl := Item.table.inj heq
        rw [if_pos hdotted] at htable
        exact isOwn_of_pieces hentries (Table.pieces_eq t ▸ htable.pieces)
    · exact List.forall_mem_cons.2 ⟨⟨by simp [tableLike?], by simp⟩, ih horderly.2.2 hlegible.2.2⟩

theorem allReadAs_rereadBelow (like : Item → Item → Prop) (hnodup : (names t.entries).Nodup)
    (hown : ∀ entry ∈ t.entries, entry.2.isOwn) : AllReadAs like t.entries t.rereadBelow := by
  obtain ⟨_, _, _, entries⟩ := t
  rw [Table.rereadBelow]
  refine ⟨hnodup.sublist (names_rereadOwn_sublist false entries), fun entry hentry => ?_,
    fun name hname => ?_⟩
  · obtain ⟨other, hother, hname, -, hread⟩ := exists_of_mem_rereadOwn like hentry
    exact ⟨other, hother, hname, hread⟩
  · obtain ⟨entry, hentry, rfl⟩ := List.mem_map.1 hname
    exact mem_names_rereadOwn.2 ⟨entry, hentry, rfl, hown entry hentry⟩

theorem allReadAs_rereadIn (like : Item → Item → Prop) (unset : Surround) {entries : List (Key × Value)}
    (hnodup : (names entries).Nodup) :
    AllReadAs like (entries.map fun (key, v) => (key, .value v))
      ((Value.rereadIn isTop unset entries).map fun (key, v) => (key, .value v)) := by
  have hnames (entries : List (Key × Value)) :
      names (entries.map fun (key, v) => (key, Item.value v)) = names entries := by
    rw [names, List.map_map]
    rfl
  refine ⟨?_, fun entry hentry => ?_, fun name hname => ?_⟩
  · rwa [hnames, Value.names_rereadIn]
  · obtain ⟨⟨key, v⟩, hmem, rfl⟩ := List.mem_map.1 hentry
    obtain ⟨⟨key', v'⟩, hother, hname, unset, rfl⟩ := Value.exists_of_mem_rereadIn hmem
    exact ⟨(key', .value v'), List.mem_map_of_mem hother, hname, .value v' unset⟩
  · rwa [hnames, Value.names_rereadIn, ← hnames]

/-- The fields of an item are read back under their names. -/
theorem ReadAs.tableLike? (h : ReadAs Rebuilt item item') (hfields : item.HasFields) :
    Option.Rel (AllReadAs SameKind) item.tableLike? item'.tableLike? := by
  cases h with
  | value v unset =>
    match v with
    | .scalar _ _ => exact .none
    | .array _ _ _ _ => exact .none
    | .inline d dotted preamble entries =>
      have hnodup : (names entries).Nodup := by
        have hnodup := hfields.nodup _ rfl
        rwa [names, List.map_map] at hnodup
      cases dotted with
      | true => exact .some (allReadAs_rereadIn SameKind _ hnodup)
      | false => exact .some (allReadAs_rereadIn SameKind _ hnodup)
  | group hdotted =>
    exact .some (allReadAs_rereadBelow SameKind (hfields.nodup _ rfl) (hfields.own _ rfl hdotted))
  | headed h =>
    cases item <;> cases item' <;> try exact h.elim
    · exact .some h.2.allReadAs
    · exact .none

theorem SameKind.text?_eq (h : item.SameKind item') : item'.text? = item.text? := by
  cases item <;> cases item' <;> first | exact h.elim | rfl

theorem ReadAs.text?_eq (h : ReadAs SameKind item item') : item'.text? = item.text? := by
  cases h with
  | value v unset => exact Value.text?_reread unset v
  | group => rfl
  | headed h => exact h.text?_eq

end Item

end FeatureForwarding.Toml
