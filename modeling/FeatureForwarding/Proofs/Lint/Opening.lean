import FeatureForwarding.Proofs.Lint.Retained
import FeatureForwarding.Proofs.Lint.Spacing

/-! The header that opens a text, and the blank lines above the others, in a document that was read back.
Positions of what was read count the headers of the text, so that the header with the smallest position is
the one that the text starts with; before writing, tables without a position can stand in front of it. -/

namespace FeatureForwarding

open Toml (Key Item Value Table Document Piece Step names)

namespace Toml.Piece

def labels (q : Piece) : Lint.HeaderPath := q.steps.map Step.label

/-- A header that blank lines are put above. -/
def isHeader (q : Piece) : Bool := q.isArray || q.table.origin = .explicit

theorem isShown_of_isHeader {q : Piece} (h : q.isHeader) : q.isShown := by
  rw [isHeader, Bool.or_eq_true, decide_eq_true_eq] at h
  rcases h with harray | horigin
  · simp [isShown, harray]
  · simp [isShown, horigin]

/-- The labels of a piece below a path, with its table. -/
def located (path : Lint.HeaderPath) (q : Piece) : Lint.HeaderPath × Table := (path ++ q.labels, q.table)

theorem located_under (path : Lint.HeaderPath) (key : Key) (step : Step) (q : Piece) :
    (q.under key step).located path = q.located (path ++ [step.label]) := by
  simp [located, labels, under]

/-- Headers from a table on. -/
theorem map_located_table (path : Lint.HeaderPath) (key : Key) (step : Step) (isArray : Bool) (t : Table) :
    ((ofTable key step isArray t ++ t.pieces.map (under key step)).filter isHeader).map (located path) =
      (if isArray && t.origin ≠ .dotted || t.origin = .explicit then [(path ++ [step.label], t)] else []) ++
        (t.pieces.filter isHeader).map (located (path ++ [step.label])) := by
  have hbelow : ((t.pieces.map (under key step)).filter isHeader).map (located path) =
      (t.pieces.filter isHeader).map (located (path ++ [step.label])) := by
    rw [List.filter_map, List.map_map]
    exact List.map_congr_left fun q _ => located_under path key step q
  rw [List.filter_append, List.map_append, hbelow, ofTable]
  congr 1
  cases horigin : t.origin <;> cases isArray <;> simp [isHeader, horigin, located, labels]

end Toml.Piece

namespace Lint

variable {first : Option HeaderPath} {path : HeaderPath} {t : Table} {q : Piece}

/-! ### Headers that blank lines are put above -/

mutual

theorem tablesBelow_eq_pieces (path : HeaderPath) (t : Table) (h : t.HasClosedGroups) :
    tablesBelow path t = (t.pieces.filter Piece.isHeader).map (Piece.located path) := by
  obtain ⟨_, _, _, entries⟩ := t
  rw [tablesBelow, Table.pieces]
  exact tablesIn_eq_pieces path entries h
  termination_by structural t

theorem tablesIn_eq_pieces (path : HeaderPath) (entries : List (Key × Item))
    (h : Item.HaveClosedGroups entries) :
    tablesIn path entries = ((Item.pieces entries).filter Piece.isHeader).map (Piece.located path) := by
  match entries with
  | [] => rfl
  | (_, .value _) :: rest => exact tablesIn_eq_pieces path rest h.2
  | (key, .table t) :: rest =>
    obtain ⟨⟨hdotted, ht⟩, hrest⟩ := h
    have hbelow := tablesBelow_eq_pieces (path ++ [key.name]) t ht
    rw [tablesIn, Item.pieces, List.filter_append, List.map_append, Piece.map_located_table,
      ← tablesIn_eq_pieces path rest hrest]
    have hlabel : (Step.key key.name).label = key.name := rfl
    rw [hlabel, ← hbelow]
    cases horigin : t.origin with
    | dotted =>
      rw [hbelow, hdotted horigin]
      simp
    | implied => simp
    | explicit => simp
  | (key, .tables ts) :: rest =>
    rw [tablesIn, Item.pieces, List.filter_append, List.map_append, ← tablesIn_eq_pieces path rest h.2]
    rw [tablesOfArray_eq_pieces path key 0 ts h.1]
  termination_by structural entries

theorem tablesOfArray_eq_pieces (path : HeaderPath) (key : Key) (index : Nat) (ts : List Table)
    (h : Table.HaveClosedGroups ts) : tablesOfArray path key.name index ts =
      ((Table.piecesOfArray key index ts).filter Piece.isHeader).map (Piece.located path) := by
  match ts with
  | [] => rfl
  | t :: ts =>
    rw [tablesOfArray, Table.piecesOfArray, List.filter_append, List.map_append, Piece.map_located_table,
      ← tablesOfArray_eq_pieces path key (index + 1) ts h.2.2,
      ← tablesBelow_eq_pieces (path ++ [(Step.element key.name index).label]) t h.2.1]
    simp [h.1, Step.label]
  termination_by structural ts

end

mutual

theorem headersBelow_eq_tables (path : HeaderPath) (t : Table) :
    headersBelow path t = (tablesBelow path t).map fun header => ⟨header.2.position, header.1⟩ := by
  obtain ⟨_, _, _, entries⟩ := t
  rw [headersBelow, tablesBelow]
  exact headersIn_eq_tables path entries
  termination_by structural t

theorem headersIn_eq_tables (path : HeaderPath) (entries : List (Key × Item)) :
    headersIn path entries = (tablesIn path entries).map fun header => ⟨header.2.position, header.1⟩ := by
  match entries with
  | [] => rfl
  | (_, .value _) :: rest => exact headersIn_eq_tables path rest
  | (key, .table t) :: rest =>
    have hbelow := headersBelow_eq_tables (path ++ [key.name]) t
    have hrest := headersIn_eq_tables path rest
    rw [headersIn, tablesIn]
    cases t.origin <;> simp [hbelow, hrest]
  | (key, .tables ts) :: rest =>
    rw [headersIn, tablesIn, List.map_append, ← headersIn_eq_tables path rest]
    rw [headersOfArray_eq_tables path key.name 0 ts]
  termination_by structural entries

theorem headersOfArray_eq_tables (path : HeaderPath) (name : String) (index : Nat) (ts : List Table) :
    headersOfArray path name index ts =
      (tablesOfArray path name index ts).map fun header => ⟨header.2.position, header.1⟩ := by
  match ts with
  | [] => rfl
  | t :: ts =>
    have hbelow := headersBelow_eq_tables (path ++ [elementName name index]) t
    have hrest := headersOfArray_eq_tables path name (index + 1) ts
    rw [headersOfArray, tablesOfArray]
    simp [hbelow, hrest]
  termination_by structural ts

end

/-! ### Documents that were read back -/

section

variable {doc again : Document}

theorem exists_of_forall₂ {α β : Type} {R : α → β → Prop} {as : List α} {bs : List β}
    (h : List.Forall₂ R as bs) :
    ∀ b ∈ bs, ∃ a ∈ as, R a b := by
  induction h with
  | nil => nofun
  | cons hfirst _ ih =>
    refine List.forall_mem_cons.2 ⟨⟨_, List.mem_cons_self, hfirst⟩, fun b hb => ?_⟩
    obtain ⟨a, ha, hab⟩ := ih b hb
    exact ⟨a, List.mem_cons_of_mem _ ha, hab⟩

theorem mem_printed_of_isHeader (hq : q ∈ doc.root.pieces) (hheader : q.isHeader) : q ∈ doc.printed :=
  (Piece.perm_inOrder 0 doc.root.pieces).mem_iff.2 (List.mem_filter.2 ⟨hq, Piece.isShown_of_isHeader hheader⟩)

/-- The headers of what was read back are those that were printed. -/
theorem exists_of_isHeader (hback : doc.ReadBackFrom again) (hq : q ∈ again.root.pieces)
    (hheader : q.isHeader) :
    ∃ e ∈ Table.numbered 1 doc.printed, Piece.RebuiltAs doc.opens true e q :=
  exists_of_forall₂ hback.headers q (mem_printed_of_isHeader hq hheader)

theorem isHeader_of_mem_printed (hback : doc.ReadBackFrom again) (hq : q ∈ again.printed) :
    q ∈ again.root.pieces ∧ q.isHeader := by
  obtain ⟨e, -, hrebuilt⟩ := exists_of_forall₂ hback.headers q hq
  exact ⟨(Piece.mem_inOrder hq).1, by simp [Piece.isHeader, hrebuilt.origin]⟩

theorem hasClosedGroups_of_readBack (hback : doc.ReadBackFrom again) : again.root.HasClosedGroups := by
  rw [Table.hasClosedGroups_eq]
  exact hback.entries.groups

theorem hasValues_readBack (horderly : doc.root.IsOrderly) (hback : doc.ReadBackFrom again) :
    hasValues again.root = hasValues doc.root := by
  obtain ⟨hnodup, -⟩ := Table.isOrderly_iff.1 horderly
  have hall := hback.entries.allReadAs
  rw [Bool.eq_iff_iff, hasValues, hasValues, List.any_eq_true, List.any_eq_true]
  constructor
  · rintro ⟨⟨key, item⟩, hentry, hvalue⟩
    obtain ⟨⟨key', other⟩, hother, -, hread⟩ := hall.all _ hentry
    refine ⟨_, hother, ?_⟩
    cases hread with
    | value => rfl
    | group => exact hvalue
    | headed h => cases other <;> cases item <;> first | exact h.elim | exact hvalue
  · rintro ⟨⟨key, item⟩, hentry, hvalue⟩
    have hfind : Toml.find? key.name doc.root.entries = some item := by
      rw [Toml.find?_eq_stored?, Toml.stored?_of_mem hnodup hentry]
      rfl
    have hrel := hall.find? hnodup key.name
    rw [hfind] at hrel
    cases hfound : Toml.find? key.name again.root.entries with
    | none =>
      rw [hfound] at hrel
      cases hrel
    | some item' =>
      rw [hfound] at hrel
      obtain ⟨key', -, hmem⟩ := Toml.mem_of_find? hfound
      refine ⟨_, hmem, ?_⟩
      cases hrel with
      | some hread =>
        cases hread with
        | value => rfl
        | group => exact hvalue
        | headed h => cases item <;> cases item' <;> first | exact h.elim | exact hvalue

/-- The header that the text of a document starts with, unless a value does. -/
def openingHeader (doc : Document) : Option HeaderPath :=
  if hasValues doc.root then none else doc.printed.head?.map Piece.labels

/-- In what was read the header with the smallest position opens the text. -/
theorem firstHeader_readBack (horderly : doc.root.IsOrderly) (hback : doc.ReadBackFrom again) :
    firstHeader again.root = openingHeader doc := by
  have hheaders : headersBelow [] again.root =
      (again.root.pieces.filter Piece.isHeader).map fun q => ⟨q.table.position, q.labels⟩ := by
    rw [headersBelow_eq_tables, tablesBelow_eq_pieces [] _ (hasClosedGroups_of_readBack hback), List.map_map]
    rfl
  have hvalues := hasValues_readBack horderly hback
  rw [hasValues] at hvalues
  rw [firstHeader, hvalues, openingHeader]
  split
  · rfl
  rw [hheaders]
  have hmem {header : Header} (hheader : header ∈ (again.root.pieces.filter Piece.isHeader).map
      fun q : Piece => (⟨q.table.position, q.labels⟩ : Header)) :
      ∃ e ∈ Table.numbered 1 doc.printed, header.position = some e.1 ∧ header.path = e.2.labels := by
    obtain ⟨q, hq, rfl⟩ := List.mem_map.1 hheader
    obtain ⟨hpiece, hheader⟩ := List.mem_filter.1 hq
    obtain ⟨e, he, hrebuilt⟩ := exists_of_isHeader hback hpiece hheader
    exact ⟨e, he, hrebuilt.position, congrArg (List.map Step.label) hrebuilt.steps⟩
  cases hprinted : doc.printed with
  | nil =>
    refine leastFrom_eq_none.2 ⟨rfl, fun header hheader => ?_⟩
    obtain ⟨e, he, -⟩ := hmem hheader
    rw [hprinted] at he
    exact absurd he List.not_mem_nil
  | cons p ps =>
    have hfirst := hback.headers
    rw [hprinted, Table.numbered] at hfirst
    obtain ⟨q, qs, hrebuilt, -, hagain⟩ := List.forall₂_cons_left_iff.1 hfirst
    obtain ⟨hq, hheader⟩ := isHeader_of_mem_printed hback (hagain ▸ List.mem_cons_self)
    have hqmem := List.mem_map_of_mem (f := fun q : Piece => (⟨q.table.position, q.labels⟩ : Header))
      (List.mem_filter.2 ⟨hq, hheader⟩)
    cases hleast : leastFrom none ((again.root.pieces.filter Piece.isHeader).map
        fun q : Piece => (⟨q.table.position, q.labels⟩ : Header)) with
    | none =>
      have hnone := (leastFrom_eq_none.1 hleast).2 _ hqmem
      exact absurd (hrebuilt.position.symm.trans hnone) (Option.some_ne_none 1)
    | some found =>
      obtain ⟨n, hfrom, -, hle⟩ := leastFrom_eq_some hleast
      obtain ⟨header, hheader, hposition, rfl⟩ :=
        hfrom.resolve_left fun hinit => absurd hinit (Option.some_ne_none _).symm
      obtain ⟨⟨k, p'⟩, he, hk, hpath⟩ := hmem hheader
      obtain rfl : n = k := Option.some.inj (hposition.symm.trans hk)
      have hone : n ≤ 1 := hle _ hqmem 1 hrebuilt.position
      rw [hprinted] at he
      rcases List.mem_cons.1 he with heq | he
      · obtain ⟨-, rfl⟩ := Prod.mk.inj heq
        rw [hpath]
        rfl
      · have htwo : 2 ≤ n := Table.le_of_mem_numbered he
        omega

/-- Blank lines stand in what was read as they should exactly if they are printed so. -/
theorem spaceHeaders_readBack (horderly : doc.root.IsOrderly) (hback : doc.ReadBackFrom again) :
    spaceHeaders again.root = again.root ↔ ∀ e ∈ Table.numbered 1 doc.printed,
      e.2.table.decor.textBefore (Piece.surround (doc.opens e.1)) =
        if openingHeader doc = some e.2.labels then "" else "\n" := by
  rw [spaceHeaders, spaceBelow_eq_iff, tablesBelow_eq_pieces [] _ (hasClosedGroups_of_readBack hback),
    List.forall_mem_map, firstHeader_readBack horderly hback]
  have hspaced {e : Nat × Piece} {q : Piece} (hrebuilt : Piece.RebuiltAs doc.opens true e q) :
      IsSpaced (openingHeader doc) (q.located []) ↔
        e.2.table.decor.textBefore (Piece.surround (doc.opens e.1)) =
        if openingHeader doc = some e.2.labels then "" else "\n" := by
    have hlabels : q.labels = e.2.labels := congrArg (List.map Step.label) hrebuilt.steps
    have hdecor : q.table.decor.before = some (e.2.table.decor.textBefore (Piece.surround (doc.opens e.1))) :=
      congrArg Toml.Decor.before hrebuilt.decor
    rw [IsSpaced, Piece.located, hdecor, Option.some.injEq, List.nil_append, hlabels]
  constructor
  · intro h e he
    obtain ⟨q, hq, hrebuilt⟩ := exists_of_forall₂ hback.headers.flip e he
    exact (hspaced hrebuilt).1 (h q (List.mem_filter.2 (isHeader_of_mem_printed hback hq)))
  · intro h q hq
    obtain ⟨hpiece, hheader⟩ := List.mem_filter.1 hq
    obtain ⟨e, he, hrebuilt⟩ := exists_of_isHeader hback hpiece hheader
    exact (hspaced hrebuilt).2 (h e he)

end

end Lint

end FeatureForwarding
