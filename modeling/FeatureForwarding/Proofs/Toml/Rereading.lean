import FeatureForwarding.Proofs.Toml.Rebuilding

/-! Documents that are read back from what they print. An orderly and legible document is read as one with
the same headers and lines, which prints the same text. -/

namespace FeatureForwarding.Toml

variable {opens : Nat → Bool} {isTop : Bool} {key key' : Key} {t t' : Table} {item : Item}
  {entries front : List (Key × Item)} {e : Nat × Piece} {q q' : Piece} {step : Step}

/-! ### Headers below a key -/

/-- A numbering of pieces below a key is one of the pieces themselves. -/
theorem exists_of_map_snd_eq {α β : Type} (g : α → β) {es : List (Nat × β)} {as : List α}
    (h : es.map Prod.snd = as.map g) :
    ∃ es' : List (Nat × α), es = es'.map (Prod.map id g) ∧ es'.map Prod.snd = as := by
  induction es generalizing as with
  | nil =>
    rw [List.map_nil, eq_comm, List.map_eq_nil_iff] at h
    exact ⟨[], rfl, h.symm⟩
  | cons e es ih =>
    obtain ⟨a, as, rfl, ha, has⟩ := List.map_eq_cons_iff.1 h.symm
    obtain ⟨es', rfl, rfl⟩ := ih has.symm
    exact ⟨(e.1, a) :: es', by rw [List.map_cons]; exact congrArg (· :: _) (Prod.ext rfl ha.symm), rfl⟩

namespace Piece

/-- Sections below a key, seen from below it. -/
theorem map_below_sectionOf (opens : Nat → Bool) (isTop : Bool) (key : Key) (step : Step)
    (es : List (Nat × Piece)) :
    ((es.map (Prod.map id (under key step))).map (sectionOf opens isTop)).map (Prod.map id Section.below) =
      es.map (sectionOf opens false) := by
  rw [List.map_map, List.map_map]
  rfl

theorem parents_sectionOf_under (opens : Nat → Bool) (isTop : Bool) (key : Key) (step : Step)
    (es : List (Nat × Piece)) :
    ∀ s ∈ (es.map (Prod.map id (under key step))).map (sectionOf opens isTop), s.2.path.parents ≠ [] := by
  intro s hs
  obtain ⟨e, he, rfl⟩ := List.mem_map.1 hs
  obtain ⟨e, -, rfl⟩ := List.mem_map.1 he
  exact List.cons_ne_nil _ _

end Piece

/-- The key of a header that is read back. -/
def Key.header (isTop : Bool) (key : Key) : Key :=
  key.ended (key.decor.textBefore .headerPath) (key.before isTop) .headerPath

theorem Key.EndsHeader.passesAlike (h : key.EndsHeader) (isTop : Bool) :
    key.PassesAlike isTop (key.header isTop) where
  shown := rfl
  after := h.symm
  between := (pathsAlike_ended .headerPath isTop key).between

/-- The table of a section whose header is read when something is known of the table already. -/
def Table.opened (opens : Nat → Bool) (n : Nat) (t : Table) (known : List (Key × Item)) : Table :=
  ⟨.explicit, t.decor.written (Piece.surround (opens n)), some n, known ++ Item.rereadOwn true t.entries⟩

theorem Table.ofSection?_sectionAt (opens : Nat → Bool) (isTop : Bool) (n : Nat) (h : t.IsOrderly)
    {known : List (Key × Item)}
    (hnew : ∀ name ∈ names (Item.rereadOwn true t.entries), find? name known = none) (hq : q.table = t) :
    ofSection? (q.sectionAt isTop (opens n)) n known = some (t.opened opens n known) := by
  subst hq
  exact assignAll?_pairs h true ⟨.explicit, q.table.decor.written (Piece.surround (opens n)),
    some n, known⟩ hnew

/-- The lines of a table that has come about are those of the old one. -/
theorem Item.AllRebuilt.lines_eq {like : Item → Item → Prop} {new : List (Key × Item)} (ht : t.IsLegible)
    (h : AllRebuilt like t.entries new) : Pair.lines (Item.pairs new) = Pair.lines t.pairs := by
  rw [← Item.pairs_filter_isOwn, h.own,
    (Item.pairs_rereadOwn true t.entries (Table.isLegible_iff.1 ht)).lines_eq,
    Table.pairs_eq]

/-- The header of a table that has come about matches the old one. -/
theorem Piece.rebuiltAs_header (ht : t.IsLegible) {n : Nat} {known new : List (Key × Item)} (step : Step)
    (isArray : Bool) (hnew : Item.AllRebuilt Item.Rebuilt t.entries new) :
    RebuiltAs opens isTop (n, ⟨[step], key, [], isArray, t⟩)
      ⟨[step], key.header isTop, [], isArray, (t.opened opens n known).withEntries new⟩ where
  steps := rfl
  isArray := rfl
  position := rfl
  origin := rfl
  decor := rfl
  path := pathsAlike_ended .headerPath isTop key
  lines := hnew.lines_eq ht

/-! ### Single tables -/

theorem Item.rereadOwn_eq_nil (h : Item.AreOrderly entries) (hpairs : Item.pairs entries = []) :
    Item.rereadOwn isTop entries = [] := by
  induction entries with
  | nil => rfl
  | cons entry rest ih =>
    obtain ⟨key, v | t | ts⟩ := entry
    · rw [Item.pairs, Value.pairsAt_of_isDotted_eq_false key h.1] at hpairs
      exact absurd hpairs (List.cons_ne_nil _ _)
    · obtain ⟨hgroup, -, hrest⟩ := h
      rw [Item.pairs] at hpairs
      rw [Item.rereadOwn, ih hrest (List.append_eq_nil_iff.1 hpairs).2, List.append_nil]
      by_cases hdotted : t.origin = .dotted
      · rw [if_pos hdotted] at hpairs hgroup
        exact absurd (List.map_eq_nil_iff.1 (List.append_eq_nil_iff.1 hpairs).1) hgroup.pairs
      · rw [if_neg hdotted]
    · rw [Item.pairs] at hpairs
      rw [Item.rereadOwn, ih h.2.2 hpairs]

/-- Headers in front of that of their table imply it. -/
theorem enterAll?_implied (isTop : Bool) (key : Key) {front : List (Nat × Piece)} {known : List (Key × Item)}
    (hknown : Table.addAll? (Table.passage .implied) (front.map (Piece.sectionOf opens false)) =
      some ((Table.passage .implied).withEntries known)) :
    ∃ old, Table.enterAll? none ((front.map (Prod.map id (Piece.under key step))).map
        (Piece.sectionOf opens isTop)) = some old ∧ Table.implied? (old.map Prod.snd) = some known := by
  cases front with
  | nil => exact ⟨none, rfl, congrArg some (congrArg Table.entries (Option.some.inj hknown))⟩
  | cons first front =>
    have hbelow := Piece.map_below_sectionOf opens isTop key step (first :: front)
    have hparents : ((first.2.under key step).sectionAt isTop (opens first.1)).path.parents =
        key.passed (key.before isTop) :: _ := rfl
    have hrun := Table.enterAll?_none (n := first.1) hparents
      (Piece.parents_sectionOf_under opens isTop key step front)
    refine ⟨some (key.passed (key.before isTop),
      .table ((Table.passage .implied).withEntries known)), ?_, rfl⟩
    rw [List.map_cons, List.map_cons] at hbelow ⊢
    refine hrun.trans ?_
    refine (congrArg (fun ss => (Table.addAll? (Table.passage .implied) ss).map _) hbelow).trans ?_
    rw [hknown]
    rfl

theorem ends_of_isShown (h : (⟨[step], key, [], false, t⟩ : Piece).isShown) :
    t.origin ≠ .implied ∨ t.pairs ≠ [] := by
  by_contra hnot
  simp only [not_or, not_not] at hnot
  simp [Piece.isShown, hnot.1, hnot.2] at h

theorem Item.Rebuilt.sameKind {item item' : Item} (h : item.Rebuilt item') : item.SameKind item' := by
  cases item <;> cases item' <;> first | exact h.elim | exact h.1 | trivial

theorem Item.AllRebuilt.sameKind {new : List (Key × Item)} (h : AllRebuilt Rebuilt entries new) :
    AllRebuilt SameKind entries new where
  nodup := h.nodup
  own := h.own
  headed entry hentry hown := by
    obtain ⟨other, hother, hname, hrebuilt⟩ := h.headed entry hentry hown
    exact ⟨other, hother, hname, hrebuilt.sameKind⟩
  complete := h.complete
  groups := h.groups

/-- The headers from an explicit table on. -/
theorem Item.pieces_table_of_explicit (h : t.origin = .explicit) :
    (Item.pieces [(key, .table t)]).filter Piece.isShown =
      [⟨[.key key.name], key, [], false, t⟩] ++
      (t.pieces.filter Piece.isShown).map (Piece.under key (.key key.name)) := by
  have hshown : (⟨[.key key.name], key, [], false, t⟩ : Piece).isShown := by simp [Piece.isShown, h]
  have hdotted : t.origin ≠ .dotted := by simp [h]
  rw [Item.pieces, Item.pieces, List.append_nil, Piece.ofTable, if_neg hdotted, List.filter_append,
    Piece.filter_isShown_map_under, List.filter_cons_of_pos hshown, List.filter_nil]

/-- The headers from a table on that only leads to them. -/
theorem Item.pieces_table_of_hidden (horigin : t.origin = .implied) (hpairs : t.pairs = []) :
    (Item.pieces [(key, .table t)]).filter Piece.isShown =
      (t.pieces.filter Piece.isShown).map (Piece.under key (.key key.name)) := by
  have hdotted : t.origin ≠ .dotted := by simp [horigin]
  rw [Item.pieces, Item.pieces, List.append_nil, Piece.ofTable, if_neg hdotted, List.filter_append,
    Piece.filter_isShown_map_under, List.filter_cons_of_neg, List.filter_nil, List.nil_append]
  simp [Piece.isShown, horigin, hpairs]

/-- A table with a header has come about with it and with what stands below it, on either side of it. -/
theorem Item.rebuilds_table_shown (ht : t.Rebuilds opens false) (horderly : t.IsOrderly)
    (hlegible : t.IsLegible)
    (hdotted : t.origin ≠ .dotted) (hheaded : t.IsHeaded key)
    (hshown : (⟨[.key key.name], key, [], false, t⟩ : Piece).isShown) {es : List (Nat × Piece)} {last : Nat}
    (hes : es.map Prod.snd = Piece.inOrder last (⟨[.key key.name], key, [], false, t⟩ ::
      t.pieces.map (Piece.under key (.key key.name)))) :
    ∃ new : Key × Item, Table.enterAll? none (es.map (Piece.sectionOf opens isTop)) = some (some new) ∧
      new.1.name = key.name ∧ (Item.table t).Rebuilt new.2 ∧
      Piece.Matches opens isTop es ((Item.pieces [new]).filter Piece.isShown) := by
  obtain ⟨last', front, back, hsplit, hbelow⟩ :=
    Piece.inOrder_cons_shown hshown last (t.pieces.map (Piece.under key (.key key.name)))
  rw [hsplit] at hes
  obtain ⟨front, rest, rfl, rfl, hrest⟩ := List.map_eq_append_iff.1 hes
  obtain ⟨⟨n, header⟩, back, rfl, hheader, rfl⟩ := List.map_eq_cons_iff.1 hrest
  obtain rfl : header = ⟨[.key key.name], key, [], false, t⟩ := hheader
  rw [← List.map_append, Piece.inOrder_map_under] at hbelow
  obtain ⟨es, hes, hpieces⟩ := exists_of_map_snd_eq (Piece.under key (.key key.name)) hbelow
  obtain ⟨front, back, rfl, rfl, rfl⟩ := List.append_eq_map_iff.1 hes
  obtain ⟨known, hknown, hnew, hstart⟩ := ht front back ⟨last', hpieces⟩
  -- what the headers in front of this one imply
  obtain ⟨old, hold, himplied⟩ := enterAll?_implied isTop key hknown
  obtain ⟨new, hadd, hrebuilt, hmatches⟩ := hstart (t.opened opens n known) rfl
  have hheader :
      Table.enter? n ((⟨[.key key.name], key, [], false, t⟩ : Piece).sectionAt isTop (opens n)) old =
        some (key.header isTop, .table (t.opened opens n known)) := by
    have hsection := Table.ofSection?_sectionAt opens isTop n
      (q := ⟨[.key key.name], key, [], false, t⟩) horderly hnew rfl
    change Table.enterHere? n _ old = _
    rw [Table.enterHere?, if_neg (by exact Bool.false_ne_true), himplied, Option.bind_some, hsection]
    rfl
  have hback := Table.enterAll?_table (Piece.parents_sectionOf_under opens isTop key (.key key.name) back)
    (key.header isTop) (t.opened opens n known)
  rw [Piece.map_below_sectionOf, hadd, Option.map_some] at hback
  refine ⟨(key.header isTop, .table ((t.opened opens n known).withEntries new)), ?_, rfl,
    ⟨⟨hdotted, Origin.noConfusion⟩, hrebuilt.sameKind⟩, ?_⟩
  · rw [List.map_append, List.map_cons, Table.enterAll?_append, hold, Option.bind_some]
    change (Table.enter? n _ old).bind _ = _
    rw [hheader, Option.bind_some, hback]
  · have hkey := (hheaded.ends (ends_of_isShown hshown)).passesAlike isTop
    rw [pieces_table_of_explicit rfl, Table.pieces_eq]
    refine .of_perm ?_ ((Piece.Matches.singleton (Piece.rebuiltAs_header hlegible _ false hrebuilt)).append
      (hmatches.under hkey _))
    rw [List.map_append]
    exact List.perm_middle

/-- What a table writes itself after it has come about. -/
theorem Item.AllRebuilt.pairs_eq {like : Item → Item → Prop} {new : List (Key × Item)}
    (h : AllRebuilt like entries new) : Item.pairs new = Item.pairs (Item.rereadOwn true entries) := by
  rw [← Item.pairs_filter_isOwn, h.own]

/-- A table that only leads to headers has come about as one that does. -/
theorem Item.rebuilds_table_hidden (ht : t.Rebuilds opens false) (horderly : t.IsOrderly)
    (himplied : t.origin = .implied) (hpairs : t.pairs = []) (hheaded : t.IsHeaded key)
    {es : List (Nat × Piece)}
    {last : Nat} (hes : es.map Prod.snd = Piece.inOrder last (⟨[.key key.name], key, [], false, t⟩ ::
      t.pieces.map (Piece.under key (.key key.name)))) :
    ∃ new : Key × Item, Table.enterAll? none (es.map (Piece.sectionOf opens isTop)) = some (some new) ∧
      new.1.name = key.name ∧ (Item.table t).Rebuilt new.2 ∧
      Piece.Matches opens isTop es ((Item.pieces [new]).filter Piece.isShown) := by
  have hhidden : (⟨[.key key.name], key, [], false, t⟩ : Piece).isShown = false := by
    simp [Piece.isShown, himplied, hpairs]
  obtain ⟨last', hbelow⟩ :=
    Piece.inOrder_cons_hidden hhidden last (t.pieces.map (Piece.under key (.key key.name)))
  rw [hbelow, Piece.inOrder_map_under] at hes
  obtain ⟨es, rfl, hpieces⟩ := exists_of_map_snd_eq (Piece.under key (.key key.name)) hes
  obtain ⟨known, hknown, -, hstart⟩ := ht [] es ⟨last', hpieces⟩
  obtain rfl : [] = known := congrArg Table.entries (Option.some.inj hknown)
  have hown : Item.rereadOwn true t.entries = [] :=
    rereadOwn_eq_nil (Table.isOrderly_iff.1 horderly).2 (Table.pairs_eq t ▸ hpairs)
  obtain ⟨new, hadd, hrebuilt, hmatches⟩ := hstart (Table.passage .implied) (by rw [hown]; rfl)
  -- some header leads through the table, which is implied by it
  obtain ⟨first, rest, rfl⟩ : ∃ first rest, es = first :: rest := by
    refine List.exists_cons_of_ne_nil fun hnil => ?_
    obtain ⟨q, hq, hshown⟩ := hheaded.leads himplied hpairs
    have hmem : q ∈ Piece.inOrder last' t.pieces :=
      (Piece.perm_inOrder last' t.pieces).mem_iff.2 (List.mem_filter.2 ⟨hq, hshown⟩)
    rw [← hpieces, hnil] at hmem
    exact absurd hmem List.not_mem_nil
  have hparents : ((first.2.under key (.key key.name)).sectionAt isTop (opens first.1)).path.parents =
      key.passed (key.before isTop) :: _ := rfl
  have hrun := Table.enterAll?_none (n := first.1) hparents
    (Piece.parents_sectionOf_under opens isTop key (.key key.name) rest)
  have hlines : ((Table.passage .implied).withEntries new).pairs = [] := by
    rw [Table.pairs_eq]
    exact hrebuilt.pairs_eq.trans (by rw [hown]; rfl)
  refine ⟨(key.passed (key.before isTop), .table ((Table.passage .implied).withEntries new)), ?_, rfl,
    ⟨⟨by simp [himplied], Origin.noConfusion⟩, hrebuilt.sameKind⟩, ?_⟩
  · have hsections := Piece.map_below_sectionOf opens isTop key (.key key.name) (first :: rest)
    rw [List.map_cons, List.map_cons] at hsections ⊢
    refine hrun.trans ?_
    refine (congrArg (fun ss => (Table.addAll? (Table.passage .implied) ss).map _) hsections).trans ?_
    rw [hadd]
    rfl
  · rw [pieces_table_of_hidden rfl hlines, Table.pieces_eq]
    exact hmatches.under (passesAlike_passed isTop key) _

theorem Item.rebuilds_table (ht : t.Rebuilds opens false) (horderly : t.IsOrderly) (hlegible : t.IsLegible)
    (hdotted : t.origin ≠ .dotted) (hheaded : t.IsHeaded key) : (Item.table t).Rebuilds opens isTop key := by
  rintro es ⟨last, hes⟩
  rw [pieces, pieces, List.append_nil, Piece.ofTable, if_neg hdotted, List.singleton_append] at hes
  cases hshown : (⟨[.key key.name], key, [], false, t⟩ : Piece).isShown with
  | true => exact rebuilds_table_shown ht horderly hlegible hdotted hheaded hshown hes
  | false =>
    have hhidden : t.origin = .implied ∧ t.pairs = [] := by simpa [Piece.isShown] using hshown
    exact rebuilds_table_hidden ht horderly hhidden.1 hhidden.2 hheaded hes

/-! ### Arrays of tables -/

theorem Table.exists_of_mem_piecesOfArray {index : Nat} {ts : List Table}
    (h : q ∈ piecesOfArray key index ts) :
    ∃ u ∈ ts, ∃ later, q ∈ Piece.ofTable key (.element key.name later) true u ++
      u.pieces.map (Piece.under key (.element key.name later)) := by
  induction ts generalizing index with
  | nil => exact absurd h List.not_mem_nil
  | cons u ts ih =>
    rw [piecesOfArray] at h
    rcases List.mem_append.1 h with h | h
    · exact ⟨u, List.mem_cons_self, index, h⟩
    · obtain ⟨other, hother, later, h⟩ := ih h
      exact ⟨other, List.mem_cons_of_mem _ hother, later, h⟩

/-- All headers from an element on have positions, the first of which is that of the element itself. -/
theorem Table.HeadsBelow.position (h : t.HeadsBelow) {key : Key}
    (hq : q ∈ Piece.ofTable key step true t ++ t.pieces.map (Piece.under key step)) (hshown : q.isShown) :
    ∃ n k, t.position = some n ∧ q.table.position = some k ∧ n ≤ k := by
  obtain ⟨n, hn, hbelow⟩ := h
  rcases List.mem_append.1 hq with hq | hq
  · rw [Piece.ofTable] at hq
    split at hq
    · exact absurd hq List.not_mem_nil
    · rw [List.mem_singleton.1 hq]
      exact ⟨n, n, hn, hn, Nat.le_refl n⟩
  · obtain ⟨below, hmem, rfl⟩ := List.mem_map.1 hq
    obtain ⟨k, hk, hle⟩ := hbelow below hmem hshown
    exact ⟨n, k, hn, hk, hle⟩

/-- The headers of an array stand element by element, each followed by those below it. -/
theorem Table.inOrder_piecesOfArray (key : Key) {ts : List Table} (hturn : (t :: ts).Pairwise Precedes)
    (hheads : ∀ u ∈ t :: ts, u.HeadsBelow) (horigin : t.origin ≠ .dotted) (index last : Nat) :
    ∃ last' last'', Piece.inOrder last (piecesOfArray key index (t :: ts)) =
      ⟨[.element key.name index], key, [], true, t⟩ ::
        (Piece.inOrder last' t.pieces).map (Piece.under key (.element key.name index)) ++
        Piece.inOrder last'' (piecesOfArray key (index + 1) ts) := by
  obtain ⟨hfirst, -⟩ := List.pairwise_cons.1 hturn
  obtain ⟨hhead, hheads⟩ := List.forall_mem_cons.1 hheads
  have hofTable : Piece.ofTable key (.element key.name index) true t =
      [⟨[.element key.name index], key, [], true, t⟩] := if_neg horigin
  have hshown : (⟨[.element key.name index], key, [], true, t⟩ : Piece).isShown := rfl
  have hlater : ∀ p ∈ Piece.ofTable key (.element key.name index) true t ++
      t.pieces.map (Piece.under key (.element key.name index)), p.isShown → ∃ k, p.table.position = some k ∧
        ∀ q ∈ piecesOfArray key (index + 1) ts, q.isShown → ∃ l, q.table.position = some l ∧ k ≤ l := by
    intro p hp hshown
    obtain ⟨n, k, hn, hk, -⟩ := hhead.position hp hshown
    refine ⟨k, hk, fun q hq hshown' => ?_⟩
    obtain ⟨u, hu, later, hq⟩ := exists_of_mem_piecesOfArray hq
    obtain ⟨m, l, hm, hl, hle⟩ := (hheads u hu).position hq hshown'
    obtain ⟨hown, hbelow⟩ := hfirst u hu m hm
    refine ⟨l, hl, Nat.le_trans ?_ hle⟩
    rcases List.mem_append.1 hp with hp | hp
    · rw [hofTable] at hp
      rw [List.mem_singleton.1 hp] at hk
      exact hown k hk
    · obtain ⟨below, hmem, rfl⟩ := List.mem_map.1 hp
      exact hbelow below hmem hshown k hk
  have hhere : ∀ p ∈ [(⟨[.element key.name index], key, [], true, t⟩ : Piece)], p.isShown →
      ∃ k, p.table.position = some k ∧ ∀ q ∈ t.pieces.map (Piece.under key (.element key.name index)),
        q.isShown → ∃ l, q.table.position = some l ∧ k ≤ l := by
    rw [List.forall_mem_singleton]
    intro _
    obtain ⟨n, hn, hbelow⟩ := hhead
    refine ⟨n, hn, fun q hq hshown' => ?_⟩
    obtain ⟨below, hmem, rfl⟩ := List.mem_map.1 hq
    exact hbelow below hmem hshown'
  obtain ⟨first, second, hsplit⟩ := Piece.inOrder_append hlater last
  rw [hofTable] at hsplit
  obtain ⟨third, fourth, hsplit'⟩ := Piece.inOrder_append hhere first
  refine ⟨fourth, second, ?_⟩
  rw [piecesOfArray, hofTable, hsplit, hsplit', Piece.inOrder_singleton hshown, Piece.inOrder_map_under]
  rfl

theorem Table.piecesOfArray_cons_of_origin {ts : List Table} {index : Nat} (h : t.origin ≠ .dotted) :
    (piecesOfArray key index (t :: ts)).filter Piece.isShown =
    [⟨[.element key.name index], key, [], true, t⟩] ++
      (t.pieces.filter Piece.isShown).map (Piece.under key (.element key.name index)) ++
        (piecesOfArray key (index + 1) ts).filter Piece.isShown := by
  have hheader : (⟨[.element key.name index], key, [], true, t⟩ : Piece).isShown := rfl
  rw [piecesOfArray, Piece.ofTable, if_neg h, List.filter_append, List.filter_append,
    Piece.filter_isShown_map_under, List.filter_cons_of_pos hheader, List.filter_nil]

/-- What stands under the key of an array of which some elements have come about. -/
def Table.arrayAt (key : Key) : List Table → Option (Key × Item)
  | [] => none
  | t :: ts => some (key, .tables (t :: ts))

theorem Table.arrayAt_append (key : Key) (ts : List Table) (t : Table) :
    arrayAt key (ts ++ [t]) = some (key, .tables (ts ++ [t])) := by
  cases ts <;> rfl

theorem Table.keepKey?_arrayAt (key : Key) (ts : List Table) (t : Table) :
    keepKey? key (withElement? t) (arrayAt key ts) = arrayAt key (ts ++ [t]) := by
  cases ts <;> rfl

/-- The header of an element and the headers below it put the element behind those that have come about. -/
theorem Table.enterAll?_element (isTop : Bool) (key : Key) {n : Nat} {below later : List (Nat × Piece)}
    {new : List (Key × Item)} (horderly : t.IsOrderly)
    (hnew : ∀ name ∈ names (Item.rereadOwn true t.entries), find? name ([] : List (Key × Item)) = none)
    (hadd : addAll? (t.opened opens n []) (below.map (Piece.sectionOf opens false)) =
      some ((t.opened opens n []).withEntries new)) (done : List Table) :
    enterAll? (arrayAt (key.header isTop) done)
        (((n, ⟨[.element key.name done.length], key, [], true, t⟩) ::
          (below.map (Prod.map id (Piece.under key (.element key.name done.length))) ++ later)).map
            (Piece.sectionOf opens isTop)) =
      enterAll? (arrayAt (key.header isTop) (done ++ [(t.opened opens n []).withEntries new]))
        (later.map (Piece.sectionOf opens isTop)) := by
  have hsection := ofSection?_sectionAt opens isTop n
    (q := ⟨[.element key.name done.length], key, [], true, t⟩) horderly hnew rfl
  have hheader :
      enter? n ((⟨[.element key.name done.length], key, [], true, t⟩ : Piece).sectionAt isTop (opens n))
        (arrayAt (key.header isTop) done) = arrayAt (key.header isTop) (done ++ [t.opened opens n []]) := by
    change enterHere? n _ _ = _
    rw [enterHere?, if_pos (by rfl), hsection, Option.bind_some]
    exact keepKey?_arrayAt ..
  have hbelow := enterAll?_tables
    (Piece.parents_sectionOf_under opens isTop key (.element key.name done.length) below)
    (key.header isTop) done (t.opened opens n [])
  rw [Piece.map_below_sectionOf, hadd, Option.map_some, ← arrayAt_append, ← arrayAt_append] at hbelow
  rw [List.map_cons, List.map_append]
  change (enter? n _ _).bind _ = _
  rw [hheader, arrayAt_append, Option.bind_some, ← arrayAt_append, enterAll?_append, hbelow, Option.bind_some]

/-- One element after another comes about. -/
theorem Table.rebuilds_elements (isTop : Bool) {ts : List Table}
    (hts : ∀ t ∈ ts, t.Rebuilds opens false ∧ t.IsOrderly ∧ t.IsLegible) (hkey : key.EndsHeader)
    (hturn : ts.Pairwise Precedes) (hheads : ∀ t ∈ ts, t.HeadsBelow) (horigin : ∀ t ∈ ts, t.origin ≠ .dotted)
    (done : List Table) {es : List (Nat × Piece)} {last : Nat}
    (hes : es.map Prod.snd = Piece.inOrder last (piecesOfArray key done.length ts)) :
    ∃ new, enterAll? (arrayAt (key.header isTop) done) (es.map (Piece.sectionOf opens isTop)) =
        some (arrayAt (key.header isTop) (done ++ new)) ∧ new.length = ts.length ∧ HaveClosedGroups new ∧
      Piece.Matches opens isTop es
        ((piecesOfArray (key.header isTop) done.length new).filter Piece.isShown) := by
  induction ts generalizing done es last with
  | nil =>
    obtain rfl : es = [] := List.map_eq_nil_iff.1 hes
    exact ⟨[], by rw [List.append_nil]; rfl, rfl, trivial, .nil⟩
  | cons t ts ih =>
    obtain ⟨⟨hrebuilds, horderly, hlegible⟩, hts⟩ := List.forall_mem_cons.1 hts
    obtain ⟨last', last'', hsplit⟩ := inOrder_piecesOfArray key hturn hheads (horigin t List.mem_cons_self)
      done.length last
    rw [hsplit, List.cons_append] at hes
    obtain ⟨⟨n, header⟩, rest, rfl, hheader, hrest⟩ := List.map_eq_cons_iff.1 hes
    obtain rfl : header = ⟨[.element key.name done.length], key, [], true, t⟩ := hheader
    obtain ⟨below, later, rfl, hbelow, hlater⟩ := List.map_eq_append_iff.1 hrest
    obtain ⟨below, rfl, hpieces⟩ :=
      exists_of_map_snd_eq (Piece.under key (.element key.name done.length)) hbelow
    obtain ⟨known, hknown, hnew, hstart⟩ := hrebuilds [] below ⟨last', hpieces⟩
    obtain rfl : [] = known := congrArg entries (Option.some.inj hknown)
    obtain ⟨new, hadd, hrebuilt, hmatches⟩ := hstart (t.opened opens n []) rfl
    have hmore : later.map Prod.snd =
        Piece.inOrder last'' (piecesOfArray key
          (done ++ [(t.opened opens n []).withEntries new]).length ts) := by
      rw [List.length_append]
      exact hlater
    obtain ⟨ts', hrun, hlength, hgroups, hmatchesLater⟩ := ih hts (List.pairwise_cons.1 hturn).2
      (List.forall_mem_cons.1 hheads).2 (List.forall_mem_cons.1 horigin).2 _ hmore
    rw [List.append_assoc] at hrun
    refine ⟨(t.opened opens n []).withEntries new :: ts', ?_, congrArg (· + 1) hlength,
      ⟨Origin.noConfusion, ?_, hgroups⟩, ?_⟩
    · rw [enterAll?_element isTop key horderly hnew hadd, hrun]
      rfl
    · rw [hasClosedGroups_eq]
      exact hrebuilt.groups
    · have hpasses := hkey.passesAlike isTop
      rw [List.length_append] at hmatchesLater
      rw [piecesOfArray_cons_of_origin Origin.noConfusion, pieces_eq]
      exact ((Piece.Matches.singleton (Piece.rebuiltAs_header hlegible _ true hrebuilt)).append
        (hmatches.under hpasses _)).append hmatchesLater

theorem Item.rebuilds_tables {ts : List Table}
    (hts : ∀ t ∈ ts, t.Rebuilds opens false ∧ t.IsOrderly ∧ t.IsLegible)
    (hkey : key.EndsHeader) (hturn : Table.InTurn ts) : (Item.tables ts).Rebuilds opens isTop key := by
  rintro es ⟨last, hes⟩
  rw [pieces, pieces, List.append_nil] at hes
  obtain ⟨new, hrun, hlength, hgroups, hmatches⟩ := Table.rebuilds_elements isTop hts hkey hturn.pairwise
    hturn.heads hturn.origin [] hes
  obtain ⟨t, ts', rfl⟩ : ∃ t ts', new = t :: ts' := by
    refine List.exists_cons_of_ne_nil fun hnil => hturn.nonempty ?_
    rwa [hnil, List.length_nil, eq_comm, List.length_eq_zero_iff] at hlength
  refine ⟨(key.header isTop, .tables (t :: ts')), hrun, rfl, hgroups, ?_⟩
  rw [pieces, pieces, List.append_nil]
  exact hmatches

/-! ### All tables -/

mutual

theorem Table.rebuilds (opens : Nat → Bool) (isTop : Bool) (t : Table) (h : t.IsOrderly)
    (hlegible : t.IsLegible) :
    t.Rebuilds opens isTop := by
  obtain ⟨_, _, _, entries⟩ := t
  exact Table.rebuilds_of_entries h (Item.rebuilds opens isTop entries h.2 hlegible)
  termination_by structural t

theorem Item.rebuilds (opens : Nat → Bool) (isTop : Bool) (entries : List (Key × Item))
    (h : Item.AreOrderly entries)
    (hlegible : Item.AreLegible entries) :
    ∀ entry ∈ entries, entry.2.isOwn = false → entry.2.Rebuilds opens isTop entry.1 := by
  match entries with
  | [] => nofun
  | (_, .value _) :: rest =>
    exact List.forall_mem_cons.2 ⟨nofun, Item.rebuilds opens isTop rest h.2 hlegible.2⟩
  | (key, .table t) :: rest =>
    obtain ⟨htable, ht, hrest⟩ := h
    obtain ⟨-, ht', hrest'⟩ := hlegible
    refine List.forall_mem_cons.2 ⟨fun hown => ?_, Item.rebuilds opens isTop rest hrest hrest'⟩
    have hdotted : t.origin ≠ .dotted := by simpa [Item.isOwn] using hown
    rw [if_neg hdotted] at htable
    exact Item.rebuilds_table (Table.rebuilds opens false t ht ht') ht ht' hdotted htable
  | (key, .tables ts) :: rest =>
    obtain ⟨⟨hkey, hturn⟩, hts, hrest⟩ := h
    obtain ⟨-, hts', hrest'⟩ := hlegible
    exact List.forall_mem_cons.2 ⟨fun _ =>
      Item.rebuilds_tables (Table.rebuilds_all opens ts hts hts') hkey hturn,
      Item.rebuilds opens isTop rest hrest hrest'⟩
  termination_by structural entries

theorem Table.rebuilds_all (opens : Nat → Bool) (ts : List Table) (h : Table.AreOrderly ts)
    (hlegible : Table.AreLegible ts) :
    ∀ t ∈ ts, t.Rebuilds opens false ∧ t.IsOrderly ∧ t.IsLegible := by
  match ts with
  | [] => nofun
  | t :: ts =>
    obtain ⟨-, ht', hts'⟩ := hlegible
    exact List.forall_mem_cons.2 ⟨⟨Table.rebuilds opens false t h.1 ht', h.1, ht'⟩,
      Table.rebuilds_all opens ts h.2 hts'⟩
  termination_by structural ts

end

end FeatureForwarding.Toml
