import FeatureForwarding.Proofs.Text.Sorting
import FeatureForwarding.Proofs.Toml.Positions
import FeatureForwarding.Proofs.Toml.Values

/-! The headers of a document as they are printed: the tables that are not made by dotted keys, each with
the keys of its header, in the order of their places. -/

namespace FeatureForwarding.Toml

variable {key : Key} {t : Table} {entries rest : List (Key × Item)}

/-! ### The lines of a table -/

mutual

/-- The pairs that a table writes itself. -/
def Table.pairs : Table → List Pair
  | ⟨_, _, _, entries⟩ => Item.pairs entries
  termination_by structural t => t

def Item.pairs : List (Key × Item) → List Pair
  | [] => []
  | (key, .value v) :: rest => v.pairsAt key ++ Item.pairs rest
  | (key, .table t) :: rest =>
    (if t.origin = .dotted then t.pairs.map (Pair.under key) else []) ++ Item.pairs rest
  | (_, .tables _) :: rest => Item.pairs rest
  termination_by structural entries => entries

end

theorem Table.pairs_eq (t : Table) : t.pairs = Item.pairs t.entries := by
  cases t
  rw [Table.pairs]

theorem Pair.leaf_under (key : Key) (p : Pair) : (p.under key).leaf = p.leaf.under key := rfl

mutual

theorem Table.leaves_eq_pairs (t : Table) : t.leaves = t.pairs.map Pair.leaf := by
  obtain ⟨_, _, _, entries⟩ := t
  rw [Table.leaves, Table.pairs, Item.leaves_eq_pairs entries]
  termination_by structural t

theorem Item.leaves_eq_pairs (entries : List (Key × Item)) :
    Item.leaves entries = (Item.pairs entries).map Pair.leaf := by
  match entries with
  | [] => rfl
  | (key, .value v) :: rest =>
    rw [Item.leaves, Item.pairs, List.map_append, Value.leaves_singleton, Item.leaves_eq_pairs rest]
  | (key, .table t) :: rest =>
    rw [Item.leaves, Item.pairs, List.map_append, Item.leaves_eq_pairs rest, Table.leaves_eq_pairs t]
    split
    · simp [Function.comp_def, Pair.leaf_under]
    · rfl
  | (_, .tables _) :: rest =>
    rw [Item.leaves, Item.pairs, Item.leaves_eq_pairs rest]
  termination_by structural entries

end

/-! ### Pieces -/

/-- A table that is not made by dotted keys, with the steps and the keys that lead to it. -/
structure Piece where
  steps : List Step
  first : Key
  keys : List Key
  isArray : Bool
  table : Table

namespace Piece

/-- The piece seen from above a step. -/
def under (key : Key) (step : Step) (p : Piece) : Piece :=
  { p with steps := step :: p.steps, first := key, keys := p.first :: p.keys }

/-- A header is left out where the table is only implied and writes nothing. -/
def isShown (p : Piece) : Bool := p.isArray || !(p.table.origin = .implied && p.table.pairs.isEmpty)

/-- The table at the end of a step. -/
def ofTable (key : Key) (step : Step) (isArray : Bool) (t : Table) : List Piece :=
  if t.origin = .dotted then [] else [⟨[step], key, [], isArray, t⟩]

end Piece

mutual

/-- The pieces below a table, each before those below it. -/
def Table.pieces : Table → List Piece
  | ⟨_, _, _, entries⟩ => Item.pieces entries
  termination_by structural t => t

def Item.pieces : List (Key × Item) → List Piece
  | [] => []
  | (_, .value _) :: rest => Item.pieces rest
  | (key, .table t) :: rest =>
    Piece.ofTable key (.key key.name) false t ++ t.pieces.map (Piece.under key (.key key.name)) ++
      Item.pieces rest
  | (key, .tables ts) :: rest => Table.piecesOfArray key 0 ts ++ Item.pieces rest
  termination_by structural entries => entries

def Table.piecesOfArray (key : Key) (index : Nat) : List Table → List Piece
  | [] => []
  | t :: ts =>
    Piece.ofTable key (.element key.name index) true t ++
      t.pieces.map (Piece.under key (.element key.name index))
      ++ Table.piecesOfArray key (index + 1) ts
  termination_by structural ts => ts

end

theorem Table.pieces_eq (t : Table) : t.pieces = Item.pieces t.entries := by
  cases t
  rw [Table.pieces]

/-! ### Groups -/

mutual

def Item.HasClosedGroups : Item → Prop
  | .value _ => True
  | .table t => (t.origin = .dotted → t.pieces = []) ∧ t.HasClosedGroups
  | .tables ts => Table.HaveClosedGroups ts
  termination_by structural item => item

/-- What dotted keys make has no header, and none below it. -/
def Table.HasClosedGroups : Table → Prop
  | ⟨_, _, _, entries⟩ => Item.HaveClosedGroups entries
  termination_by structural t => t

def Table.HaveClosedGroups : List Table → Prop
  | [] => True
  | t :: ts => t.origin ≠ .dotted ∧ t.HasClosedGroups ∧ Table.HaveClosedGroups ts
  termination_by structural ts => ts

def Item.HaveClosedGroups : List (Key × Item) → Prop
  | [] => True
  | (_, item) :: rest => item.HasClosedGroups ∧ Item.HaveClosedGroups rest
  termination_by structural entries => entries

end

theorem Table.hasClosedGroups_eq (t : Table) : t.HasClosedGroups = Item.HaveClosedGroups t.entries := by
  cases t
  rw [HasClosedGroups]

theorem Item.haveClosedGroups_iff :
    HaveClosedGroups entries ↔ ∀ entry ∈ entries, entry.2.HasClosedGroups := by
  induction entries with
  | nil => simp [HaveClosedGroups]
  | cons entry rest ih => simp [HaveClosedGroups, ih]

mutual

def Item.decidableHasClosedGroups : (item : Item) → Decidable item.HasClosedGroups
  | .value _ => isTrue trivial
  | .table t =>
    have := t.decidableHasClosedGroups
    inferInstanceAs (Decidable ((t.origin = .dotted → t.pieces = []) ∧ t.HasClosedGroups))
  | .tables ts => Table.decidableHaveClosedGroups ts
  termination_by structural item => item

def Table.decidableHasClosedGroups : (t : Table) → Decidable t.HasClosedGroups
  | ⟨_, _, _, entries⟩ => Item.decidableHaveClosedGroups entries
  termination_by structural t => t

def Table.decidableHaveClosedGroups : (ts : List Table) → Decidable (Table.HaveClosedGroups ts)
  | [] => isTrue trivial
  | t :: ts =>
    have := t.decidableHasClosedGroups
    have := Table.decidableHaveClosedGroups ts
    inferInstanceAs (Decidable (t.origin ≠ .dotted ∧ t.HasClosedGroups ∧ Table.HaveClosedGroups ts))
  termination_by structural ts => ts

def Item.decidableHaveClosedGroups : (entries : List (Key × Item)) → Decidable (Item.HaveClosedGroups entries)
  | [] => isTrue trivial
  | (_, item) :: rest =>
    have := item.decidableHasClosedGroups
    have := Item.decidableHaveClosedGroups rest
    inferInstanceAs (Decidable (item.HasClosedGroups ∧ Item.HaveClosedGroups rest))
  termination_by structural entries => entries

end

instance (t : Table) : Decidable t.HasClosedGroups := t.decidableHasClosedGroups

/-! ### Places -/

/-- A piece without a position follows the one before it, whose place is handed on. -/
def placed (last : Nat) : List Piece → List (Nat × Piece)
  | [] => []
  | p :: ps => (p.table.position.getD last, p) :: placed (p.table.position.getD last) ps

def placeAfter (last : Nat) (ps : List Piece) : Nat :=
  ps.foldl (fun last p => p.table.position.getD last) last

theorem placed_append (last : Nat) (ps qs : List Piece) :
    placed last (ps ++ qs) = placed last ps ++ placed (placeAfter last ps) qs := by
  induction ps generalizing last with
  | nil => rfl
  | cons p ps ih => rw [List.cons_append, placed, placed, ih]; rfl

theorem placeAfter_append (last : Nat) (ps qs : List Piece) :
    placeAfter last (ps ++ qs) = placeAfter (placeAfter last ps) qs := List.foldl_append ..

/-- Places depend on positions only. -/
theorem placed_map (f : Piece → Piece) (h : ∀ p, (f p).table.position = p.table.position) (last : Nat)
    (ps : List Piece) : placed last (ps.map f) = (placed last ps).map (Prod.map id f) := by
  induction ps generalizing last with
  | nil => rfl
  | cons p ps ih => rw [List.map_cons, placed, placed, h, ih]; rfl

theorem placeAfter_map (f : Piece → Piece) (h : ∀ p, (f p).table.position = p.table.position) (last : Nat)
    (ps : List Piece) : placeAfter last (ps.map f) = placeAfter last ps := by
  simp only [placeAfter, List.foldl_map, h]

theorem map_snd_placed (last : Nat) (ps : List Piece) : (placed last ps).map Prod.snd = ps := by
  induction ps generalizing last with
  | nil => rfl
  | cons p ps ih => rw [placed, List.map_cons, ih]

theorem mem_placed {last place : Nat} {p : Piece} {ps : List Piece} (h : (place, p) ∈ placed last ps) :
    p ∈ ps ∧ ∀ k ∈ p.table.position, place = k := by
  induction ps generalizing last with
  | nil => exact absurd h List.not_mem_nil
  | cons first ps ih =>
    rcases List.mem_cons.1 h with heq | h
    · obtain ⟨rfl, rfl⟩ := Prod.mk.inj heq
      exact ⟨List.mem_cons_self, fun k hk => by rw [Option.mem_def.1 hk]; rfl⟩
    · exact ⟨List.mem_cons_of_mem _ (ih h).1, (ih h).2⟩

namespace Piece

/-- Whether the one place stands in front of the other. -/
def isBefore (a b : Nat × Piece) : Bool := a.1 < b.1

theorem orders_isBefore : Text.Orders isBefore where
  asymm a b h := by simp only [isBefore, decide_eq_true_eq, decide_eq_false_iff_not] at *; omega
  trans a b c h h' := by simp only [isBefore, decide_eq_false_iff_not] at *; omega

/-- The pieces that have headers, in the order of their places. -/
def inOrder (last : Nat) (ps : List Piece) : List Piece :=
  (Text.stableSort isBefore ((placed last ps).filter fun p => p.2.isShown)).map Prod.snd

theorem mem_inOrder {last : Nat} {p : Piece} {ps : List Piece} (h : p ∈ inOrder last ps) :
    p ∈ ps ∧ p.isShown := by
  obtain ⟨⟨place, p⟩, hmem, rfl⟩ := List.mem_map.1 h
  obtain ⟨hplaced, hshown⟩ := List.mem_filter.1 (Text.mem_stableSort.1 hmem)
  exact ⟨(mem_placed hplaced).1, hshown⟩

theorem perm_inOrder (last : Nat) (ps : List Piece) : (inOrder last ps).Perm (ps.filter isShown) := by
  have hperm := (Text.stableSort_perm isBefore ((placed last ps).filter fun p => p.2.isShown)).map Prod.snd
  have hfilter : ((placed last ps).filter fun p => p.2.isShown).map Prod.snd = ps.filter isShown := by
    rw [← map_snd_placed last ps, List.filter_map, map_snd_placed]
    rfl
  rwa [hfilter] at hperm

/-- A change that leaves places and headers alone leaves the order alone. -/
theorem inOrder_map {f : Piece → Piece} (hposition : ∀ p, (f p).table.position = p.table.position)
    (hshown : ∀ p, (f p).isShown = p.isShown) (last : Nat) (ps : List Piece) :
    inOrder last (ps.map f) = (inOrder last ps).map f := by
  have hfilter : (placed last (ps.map f)).filter (fun p => p.2.isShown) =
      ((placed last ps).filter fun p => p.2.isShown).map (Prod.map id f) := by
    rw [placed_map f hposition, List.filter_map]
    simp only [Function.comp_def, Prod.map, hshown]
  have hkept (a b : Nat × Piece) : isBefore (Prod.map id f a) (Prod.map id f b) = isBefore a b := rfl
  have hsort := Text.map_stableSort hkept ((placed last ps).filter fun p => p.2.isShown)
  rw [inOrder, inOrder, hfilter, ← hsort, List.map_map, List.map_map]
  rfl

theorem inOrder_map_under (key : Key) (step : Step) (last : Nat) (ps : List Piece) :
    inOrder last (ps.map (under key step)) = (inOrder last ps).map (under key step) :=
  inOrder_map (f := under key step) (fun _ => rfl) (fun _ => rfl) last ps

/-- What is selected from one part of the pieces stands in the order of that part. -/
theorem filter_inOrder {f : Piece → Bool} {last : Nat} {front ps back : List Piece} (hps : ∀ p ∈ ps, f p)
    (hfront : ∀ p ∈ front, f p = false) (hback : ∀ p ∈ back, f p = false) :
    ∃ last', (inOrder last (front ++ ps ++ back)).filter f = inOrder last' ps := by
  have hall {last : Nat} {qs : List Piece} {b : Bool} (h : ∀ q ∈ qs, f q = b) :
      ((placed last qs).filter fun p => p.2.isShown).filter (fun p => f p.2) =
        if b then (placed last qs).filter fun p => p.2.isShown else [] := by
    cases b with
    | true => exact List.filter_eq_self.2 fun p hp => h p.2 (mem_placed (List.mem_of_mem_filter hp)).1
    | false =>
      exact List.filter_eq_nil_iff.2 fun p hp => by simp [h p.2 (mem_placed (List.mem_of_mem_filter hp)).1]
  refine ⟨placeAfter last front, ?_⟩
  rw [inOrder, List.filter_map, placed_append, placed_append, List.filter_append, List.filter_append]
  change ((Text.stableSort isBefore _).filter fun p => f p.2).map Prod.snd = _
  rw [Text.filter_stableSort orders_isBefore, List.filter_append, List.filter_append, hall hfront, hall hps,
    hall hback]
  simp [inOrder]

/-- A header is put somewhere among those below it. -/
theorem inOrder_cons_shown {p : Piece} (hp : p.isShown) (last : Nat) (ps : List Piece) :
    ∃ last' front back, inOrder last (p :: ps) = front ++ p :: back ∧ front ++ back = inOrder last' ps := by
  obtain ⟨front, back, hsplit, hinsert⟩ := Text.exists_of_insertBy isBefore (p.table.position.getD last, p)
    (Text.stableSort isBefore ((placed (p.table.position.getD last) ps).filter fun p => p.2.isShown))
  refine ⟨p.table.position.getD last, front.map Prod.snd, back.map Prod.snd, ?_, ?_⟩
  · rw [inOrder, placed, List.filter_cons, if_pos hp, Text.stableSort, hinsert, List.map_append,
      List.map_cons]
  · rw [← List.map_append, ← hsplit, inOrder]

theorem inOrder_cons_hidden {p : Piece} (hp : p.isShown = false) (last : Nat) (ps : List Piece) :
    ∃ last', inOrder last (p :: ps) = inOrder last' ps :=
  ⟨_, by rw [inOrder, placed, List.filter_cons, if_neg (by simp [hp])]; rfl⟩

/-- Pieces that stand in front of others are put in order by themselves. -/
theorem inOrder_append {ps qs : List Piece}
    (h : ∀ p ∈ ps, p.isShown → ∃ k, p.table.position = some k ∧
      ∀ q ∈ qs, q.isShown → ∃ l, q.table.position = some l ∧ k ≤ l) (last : Nat) :
    ∃ last' last'', inOrder last (ps ++ qs) = inOrder last' ps ++ inOrder last'' qs := by
  refine ⟨last, placeAfter last ps, ?_⟩
  rw [inOrder, placed_append, List.filter_append, Text.stableSort_append, List.map_append]
  · rfl
  · rintro ⟨place, p⟩ hp ⟨place', q⟩ hq
    obtain ⟨hp, hshown⟩ := List.mem_filter.1 hp
    obtain ⟨hq, hshown'⟩ := List.mem_filter.1 hq
    obtain ⟨k, hk, hall⟩ := h p (mem_placed hp).1 hshown
    obtain ⟨l, hl, hle⟩ := hall q (mem_placed hq).1 hshown'
    rw [(mem_placed hp).2 k hk, (mem_placed hq).2 l hl]
    simpa [isBefore] using hle

theorem inOrder_singleton {p : Piece} (hp : p.isShown) (last : Nat) : inOrder last [p] = [p] := by
  simp [inOrder, placed, hp, Text.stableSort, Text.insertBy]

/-- No header has a smaller position than the one that comes first. -/
theorem le_of_head_inOrder {last k l : Nat} {ps : List Piece} {p q : Piece}
    (hhead : (inOrder last ps).head? = some p)
    (hq : q ∈ inOrder last ps) (hk : p.table.position = some k) (hl : q.table.position = some l) : k ≤ l := by
  have hsorted := Text.stableSort_pairwise orders_isBefore ((placed last ps).filter fun p => p.2.isShown)
  have hplace {place : Nat} {r : Piece}
      (h : (place, r) ∈ Text.stableSort isBefore ((placed last ps).filter fun p => p.2.isShown)) :
      ∀ k ∈ r.table.position, place = k := (mem_placed (List.mem_of_mem_filter (Text.mem_stableSort.1 h))).2
  unfold inOrder at hhead hq
  cases hcases : Text.stableSort isBefore ((placed last ps).filter fun p => p.2.isShown) with
  | nil => simp [hcases] at hhead
  | cons first rest =>
    rw [hcases] at hhead hq hsorted hplace
    obtain rfl : first.2 = p := Option.some.inj hhead
    have hfirst : first.1 = k := hplace List.mem_cons_self k hk
    rcases List.mem_cons.1 hq with heq | hq
    · rw [heq, hk] at hl
      exact Nat.le_of_eq (Option.some.inj hl)
    · obtain ⟨⟨place, _⟩, hmem, rfl⟩ := List.mem_map.1 hq
      obtain rfl : place = l := hplace (List.mem_cons_of_mem _ hmem) l hl
      have hle := (List.pairwise_cons.1 hsorted).1 _ hmem
      simp only [isBefore, decide_eq_false_iff_not] at hle
      omega

end Piece

/-- What is said of the pieces below a table holds of those from it on. -/
theorem Table.exists_spot_from (t : Table) (key : Key) (step : Step) (isArray : Bool)
    (hbelow : ∀ q ∈ t.pieces, ∃ spot ∈ t.spots, spot.place = q.steps ∧ spot.table = q.table) :
    ∀ q ∈ Piece.ofTable key step isArray t ++ t.pieces.map (Piece.under key step),
      ∃ spot ∈ t.spotsFrom step, spot.place = q.steps ∧ spot.table = q.table := by
  rw [List.forall_mem_append, List.forall_mem_map]
  constructor
  · rw [Piece.ofTable]
    split
    · simp
    · exact List.forall_mem_singleton.2 ⟨_, List.mem_cons_self, rfl, rfl⟩
  · intro q hq
    obtain ⟨spot, hspot, hplace, htable⟩ := hbelow q hq
    exact ⟨spot.under step t, List.mem_cons_of_mem _ (List.mem_map_of_mem hspot),
      congrArg (step :: ·) hplace, htable⟩

mutual

/-- The pieces are tables at the places that their steps lead to. -/
theorem Table.exists_spot_of_piece (t : Table) : ∀ q ∈ t.pieces, ∃ spot ∈ t.spots, spot.place = q.steps ∧
    spot.table = q.table := by
  obtain ⟨_, _, _, entries⟩ := t
  rw [Table.pieces, Table.spots]
  exact Item.exists_spot_of_piece entries
  termination_by structural t

theorem Item.exists_spot_of_piece (entries : List (Key × Item)) :
    ∀ q ∈ Item.pieces entries, ∃ spot ∈ Item.spotsIn entries, spot.place = q.steps ∧
    spot.table = q.table := by
  match entries with
  | [] => simp [Item.pieces]
  | (_, .value _) :: rest => exact Item.exists_spot_of_piece rest
  | (key, .table t) :: rest =>
    intro q hq
    rcases List.mem_append.1 hq with hq | hq
    · obtain ⟨spot, hspot, hsame⟩ :=
        Table.exists_spot_from t key (.key key.name) false (Table.exists_spot_of_piece t) q hq
      exact ⟨spot, List.mem_append_left _ hspot, hsame⟩
    · obtain ⟨spot, hspot, hsame⟩ := Item.exists_spot_of_piece rest q hq
      exact ⟨spot, List.mem_append_right _ hspot, hsame⟩
  | (key, .tables ts) :: rest =>
    intro q hq
    rcases List.mem_append.1 hq with hq | hq
    · obtain ⟨spot, hspot, hsame⟩ := Table.exists_spot_of_array key 0 ts q hq
      exact ⟨spot, List.mem_append_left _ hspot, hsame⟩
    · obtain ⟨spot, hspot, hsame⟩ := Item.exists_spot_of_piece rest q hq
      exact ⟨spot, List.mem_append_right _ hspot, hsame⟩
  termination_by structural entries

theorem Table.exists_spot_of_array (key : Key) (index : Nat) (ts : List Table) :
    ∀ q ∈ Table.piecesOfArray key index ts, ∃ spot ∈ Table.spotsOfArray key.name index ts,
      spot.place = q.steps ∧ spot.table = q.table := by
  match ts with
  | [] => simp [Table.piecesOfArray]
  | t :: ts =>
    intro q hq
    rcases List.mem_append.1 hq with hq | hq
    · obtain ⟨spot, hspot, hsame⟩ :=
        Table.exists_spot_from t key (.element key.name index) true (Table.exists_spot_of_piece t) q hq
      exact ⟨spot, List.mem_append_left _ hspot, hsame⟩
    · obtain ⟨spot, hspot, hsame⟩ := Table.exists_spot_of_array key (index + 1) ts q hq
      exact ⟨spot, List.mem_append_right _ hspot, hsame⟩
  termination_by structural ts

end

/-- Positions tell the pieces of a document apart. -/
theorem Table.HasDistinctPositions.steps_eq {t : Table} (h : t.HasDistinctPositions) {p q : Piece}
    (hp : p ∈ t.pieces)
    (hq : q ∈ t.pieces) {k : Nat} (hk : p.table.position = some k) (hk' : q.table.position = some k) :
    p.steps = q.steps := by
  obtain ⟨spot, hspot, hplace, htable⟩ := t.exists_spot_of_piece p hp
  obtain ⟨other, hother, hplace', htable'⟩ := t.exists_spot_of_piece q hq
  rw [← htable] at hk
  rw [← htable'] at hk'
  rw [← hplace, ← hplace', h.eq_of_position hspot hother hk hk']

/-! ### Blocks -/

namespace Piece

def heading (path : List Key) (p : Piece) : Heading :=
  if p.isArray then .array (path ++ p.first :: p.keys) else .single (path ++ p.first :: p.keys)

/-- The block of a piece that stands at some place below a path. -/
def block (path : List Key) (p : Nat × Piece) : Block :=
  ⟨p.1, p.2.heading path, p.2.table.origin, p.2.table.decor, p.2.table.leaves⟩

theorem block_under (path : List Key) (step : Step) (key : Key) :
    Piece.block path ∘ Prod.map id (Piece.under key step) = Piece.block (path ++ [key]) := by
  funext p
  simp only [Piece.block, Piece.heading, Function.comp_apply, Prod.map, id, Piece.under, List.append_assoc,
    List.singleton_append]
  rfl

/-- The blocks of pieces below a path, and the place that is handed on. -/
def layOut (path : List Key) (last : Nat) (ps : List Piece) : List Block × Nat :=
  ((placed last ps).map (Piece.block path), placeAfter last ps)

theorem layOut_append (path : List Key) (last : Nat) (ps qs : List Piece) :
    layOut path last (ps ++ qs) =
      ((layOut path last ps).1 ++ (layOut path (layOut path last ps).2 qs).1,
        (layOut path (layOut path last ps).2 qs).2) := by
  rw [layOut, placed_append, placeAfter_append, List.map_append]
  rfl

theorem layOut_under (path : List Key) (last : Nat) (key : Key) (step : Step) (ps : List Piece) :
    layOut path last (ps.map (Piece.under key step)) = layOut (path ++ [key]) last ps := by
  rw [layOut, layOut, placed_map (Piece.under key step) fun _ => rfl, List.map_map, block_under,
    placeAfter_map (Piece.under key step) fun _ => rfl]

end Piece

/-- The blocks from one table on, given those of its entries. -/
theorem Table.blocks_eq_layOut (path : List Key) (key : Key) (step : Step) (isArray : Bool)
    (last : Nat) (t : Table)
    (h : ∀ last, Item.blocks (path ++ [key]) last t.entries = Piece.layOut (path ++ [key]) last t.pieces) :
    t.blocks (if isArray then .array else .single) (path ++ [key]) last =
      Piece.layOut path last (Piece.ofTable key step isArray t ++ t.pieces.map (Piece.under key step)) := by
  rw [Piece.layOut_append, Piece.layOut_under]
  obtain ⟨origin, decor, position, entries⟩ := t
  rw [Table.blocks]
  dsimp only at h ⊢
  rw [Piece.ofTable]
  by_cases hdotted : origin = .dotted
  · simp only [hdotted, if_pos, h]
    rfl
  · simp only [hdotted, if_neg, not_false_eq_true, h]
    cases isArray <;> simp [Piece.layOut, Piece.block, Piece.heading, placed, placeAfter, Table.leaves]

mutual

theorem Table.blocks_below_eq (path : List Key) (last : Nat) (t : Table) :
    Item.blocks path last t.entries = Piece.layOut path last t.pieces := by
  obtain ⟨_, _, _, entries⟩ := t
  rw [Table.pieces, ← Item.blocks_eq_layOut path last entries]
  termination_by structural t

theorem Item.blocks_eq_layOut (path : List Key) (last : Nat) (entries : List (Key × Item)) :
    Item.blocks path last entries = Piece.layOut path last (Item.pieces entries) := by
  match entries with
  | [] => rfl
  | (_, .value _) :: rest => exact Item.blocks_eq_layOut path last rest
  | (key, .table t) :: rest =>
    have hhere := Table.blocks_eq_layOut path key (.key key.name) false last t
      fun last => Table.blocks_below_eq (path ++ [key]) last t
    simp only [Bool.false_eq_true, if_false] at hhere
    rw [Item.blocks, hhere, Item.pieces, Piece.layOut_append path last (_ ++ _)]
    rw [Item.blocks_eq_layOut path _ rest]
  | (key, .tables ts) :: rest =>
    rw [Item.blocks, Table.blocksOfArray_eq path last key 0 ts, Item.pieces, Piece.layOut_append]
    rw [Item.blocks_eq_layOut path _ rest]
  termination_by structural entries

theorem Table.blocksOfArray_eq (path : List Key) (last : Nat) (key : Key) (index : Nat) (ts : List Table) :
    Table.blocksOfArray (path ++ [key]) last ts =
    Piece.layOut path last (Table.piecesOfArray key index ts) := by
  match ts with
  | [] => rfl
  | t :: ts =>
    have hhere := Table.blocks_eq_layOut path key (.element key.name index) true last t
      fun last => Table.blocks_below_eq (path ++ [key]) last t
    simp only [if_true] at hhere
    rw [Table.blocksOfArray, hhere, Table.piecesOfArray, Piece.layOut_append path last (_ ++ _)]
    rw [Table.blocksOfArray_eq path _ key (index + 1) ts]
  termination_by structural ts

end

/-! ### The text -/

def Pair.lines (ps : List Pair) : String := String.join (ps.map fun p => p.leaf.line)

namespace Piece

def opening (p : Piece) : String := if p.isArray then "[[" else "["

def closing (p : Piece) : String := if p.isArray then "]]" else "]"

def text (isFirst : Bool) (p : Piece) : String :=
  Block.headerText p.table.decor isFirst p.opening p.closing (p.first :: p.keys) ++ Pair.lines p.table.pairs

/-- The text of pieces one after another; only the first one can open a text. -/
def textAll (isFirst : Bool) : List Piece → String
  | [] => ""
  | p :: ps => p.text isFirst ++ textAll false ps

theorem lines_block (path : List Key) (p : Nat × Piece) :
    (block path p).lines = Pair.lines p.2.table.pairs := by
  rw [Block.lines, block, Table.leaves_eq_pairs, List.map_map]
  rfl

theorem text_block (isFirst : Bool) (p : Nat × Piece) :
    (block [] p).text isFirst = if p.2.isShown then p.2.text isFirst else "" := by
  obtain ⟨place, p⟩ := p
  have hlines := lines_block [] (place, p)
  rw [Block.text]
  cases harray : p.isArray with
  | true => simp [block, heading, harray, isShown, text, opening, closing, ← hlines]
  | false =>
    have hleaves : p.table.leaves.isEmpty = p.table.pairs.isEmpty := by
      rw [Table.leaves_eq_pairs, List.isEmpty_map]
    by_cases hhidden : (p.table.origin = .implied && p.table.pairs.isEmpty) = true
    · obtain ⟨himplied, hempty⟩ := Bool.and_eq_true_iff.1 hhidden
      have hpairs : p.table.pairs = [] := List.isEmpty_iff.1 hempty
      simp [block, heading, harray, isShown, of_decide_eq_true himplied, Block.lines,
        Table.leaves_eq_pairs, hpairs]
    · simp [block, heading, harray, isShown, hhidden, hleaves, text, opening, closing, ← hlines]

theorem text_ne_empty (isFirst : Bool) (p : Piece) : p.text isFirst ≠ "" := by
  intro h
  have hlength := congrArg (fun text => text.toList.length) h
  simp [text, Block.headerText] at hlength

theorem textFrom_blocks (isFirst : Bool) (ps : List (Nat × Piece)) :
    Block.textFrom isFirst (ps.map (block [])) = textAll isFirst ((ps.map Prod.snd).filter isShown) := by
  induction ps generalizing isFirst with
  | nil => rfl
  | cons p ps ih =>
    rw [List.map_cons, Block.textFrom, List.map_cons, List.filter_cons, text_block]
    split
    · have hne : (p.2.text isFirst).isEmpty = false :=
        Bool.eq_false_iff.2 fun h => text_ne_empty isFirst p.2 (String.isEmpty_iff.1 h)
      rw [ih, textAll, hne, Bool.and_false]
    · have hempty : "".isEmpty = true := rfl
      rw [ih, hempty, Bool.and_true, String.empty_append]

end Piece

namespace Document

/-- The root of a document that was read: no header stands for it. -/
structure HasPlainRoot (doc : Document) : Prop where
  origin : doc.root.origin = .explicit
  position : doc.root.position = none

/-- The headers of the text from its top on. -/
def printed (doc : Document) : List Piece := Piece.inOrder 0 doc.root.pieces

theorem print_eq {doc : Document} (h : doc.HasPlainRoot) :
    doc.print = Pair.lines doc.root.pairs ++ Piece.textAll doc.root.pairs.isEmpty doc.printed
      ++ withoutReturns doc.trailing := by
  obtain ⟨⟨origin, decor, position, entries⟩, trailing⟩ := doc
  obtain ⟨rfl, rfl⟩ : origin = .explicit ∧ position = none := ⟨h.origin, h.position⟩
  have hblocks : blocks ⟨⟨.explicit, decor, none, entries⟩, trailing⟩ =
      ⟨0, .root, .explicit, decor, Item.leaves entries⟩ ::
        (placed 0 (Item.pieces entries)).map (Piece.block []) := by
    rw [blocks, Table.blocks]
    simp [Item.blocks_eq_layOut, Piece.layOut]
  have hsort : Text.stableSort (fun a b : Block => a.place < b.place)
      ((placed 0 (Item.pieces entries)).map (Piece.block [])) =
        (Text.stableSort Piece.isBefore (placed 0 (Item.pieces entries))).map (Piece.block []) :=
    (Text.map_stableSort (fun _ _ => rfl) _).symm
  have hshown : ((Text.stableSort Piece.isBefore (placed 0 (Item.pieces entries))).map Prod.snd).filter
      Piece.isShown = Piece.inOrder 0 (Item.pieces entries) := by
    rw [Piece.inOrder, ← Text.filter_stableSort Piece.orders_isBefore, List.filter_map]
    rfl
  have hlines : String.join ((Item.leaves entries).map Leaf.line) = Pair.lines (Item.pairs entries) := by
    rw [Item.leaves_eq_pairs, List.map_map]
    rfl
  have hempty : (Pair.lines (Item.pairs entries)).isEmpty = (Item.pairs entries).isEmpty := by
    cases Item.pairs entries with
    | nil => rfl
    | cons p ps =>
      have hline : p.leaf.line ≠ "" := fun h => by simpa [Leaf.line] using congrArg String.toList h
      simp [Pair.lines, String.join_cons, hline]
  rw [print, hblocks, Text.stableSort_cons (fun b _ => by simp), hsort, Block.textFrom, Piece.textFrom_blocks,
    hshown]
  simp only [Block.text, Block.lines, hlines, hempty, Bool.true_and]
  rfl

end Document

end FeatureForwarding.Toml
