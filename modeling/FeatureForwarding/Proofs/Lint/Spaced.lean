import FeatureForwarding.Proofs.Lint.Opening

/-! Blank lines and what can be read back. The pass over the headers changes nothing but the text in front
of them, so that lines, places and what is below each table stay. -/

namespace FeatureForwarding

open Toml (Key Item Value Table Document Piece Step names)

namespace Toml.Piece

variable (first : Option Lint.HeaderPath) (path : Lint.HeaderPath) (q : Piece)

/-- The piece with its blank line, if it is a header that gets one. -/
def spaced : Piece :=
  let table := Lint.spaceBelow first (path ++ q.labels) q.table
  { q with table := if q.isHeader then Lint.spaceHeader first (path ++ q.labels) table else table }

theorem spaced_under (key : Key) (step : Step) :
    (q.under key step).spaced first path = (q.spaced first (path ++ [step.label])).under key step := by
  have hlabels : path ++ (q.under key step).labels = path ++ [step.label] ++ q.labels := by
    simp [labels, under]
  rw [spaced, hlabels]
  rfl

theorem position_spaced : (q.spaced first path).table.position = q.table.position := by
  unfold spaced
  split <;> exact Lint.position_spaceBelow q.table

theorem origin_spaced : (q.spaced first path).table.origin = q.table.origin := by
  unfold spaced
  split <;> exact Lint.origin_spaceBelow q.table

theorem decor_spaced (h : q.isHeader = false) : (q.spaced first path).table.decor = q.table.decor := by
  rw [spaced, if_neg (by simp [h])]
  exact Lint.decor_spaceBelow q.table

theorem isHeader_spaced : (q.spaced first path).isHeader = q.isHeader := by
  rw [isHeader, isHeader, origin_spaced]
  rfl

end Toml.Piece

namespace Lint

variable {first : Option HeaderPath} {path : HeaderPath} {key : Key} {t : Table} {entries : List (Key × Item)}

/-! ### Lines and pieces -/

/-- Tables that dotted keys make are passed over, so that all lines stay. -/
theorem pairs_spaceIn (entries : List (Key × Item)) :
    Item.pairs (spaceIn first path entries) = Item.pairs entries := by
  induction entries with
  | nil => rfl
  | cons entry rest ih =>
    obtain ⟨key, v | t | ts⟩ := entry
    · exact congrArg (_ ++ ·) ih
    · rw [spaceIn, Item.pairs, Item.pairs, ih]
      cases horigin : t.origin <;> simp [horigin, origin_spaceBelow, spaceHeader]
    · exact ih

theorem pairs_spaceBelow (t : Table) : (spaceBelow first path t).pairs = t.pairs := by
  rw [Table.pairs_eq, Table.pairs_eq, entries_spaceBelow, pairs_spaceIn]

theorem pairs_spaceHeader (t : Table) : (spaceHeader first path t).pairs = t.pairs := by
  rw [Table.pairs_eq, Table.pairs_eq]
  rfl

theorem pieces_spaceHeader (t : Table) : (spaceHeader first path t).pieces = t.pieces := by
  rw [Table.pieces_eq, Table.pieces_eq]
  rfl

theorem names_spaceIn (entries : List (Key × Item)) : names (spaceIn first path entries) = names entries := by
  rw [spaceIn_eq_map, names, List.map_map]
  rfl

theorem pairs_spaced (q : Piece) : (q.spaced first path).table.pairs = q.table.pairs := by
  unfold Piece.spaced
  split
  · exact (pairs_spaceHeader _).trans (pairs_spaceBelow _)
  · exact pairs_spaceBelow _

theorem isShown_spaced (q : Piece) : (q.spaced first path).isShown = q.isShown := by
  rw [Piece.isShown, Piece.isShown, pairs_spaced, Piece.origin_spaced]
  rfl

/-- The pieces from a table on, given those below it. -/
theorem spaced_pieces_table {step : Step} {isArray : Bool} {t' : Table} (hdotted : t.origin ≠ .dotted)
    (htable : (⟨[step], key, [], isArray, t⟩ : Piece).spaced first path = ⟨[step], key, [], isArray, t'⟩)
    (horigin : t'.origin = t.origin)
    (hpieces : t'.pieces = t.pieces.map (Piece.spaced first (path ++ [step.label]))) :
    Piece.ofTable key step isArray t' ++ t'.pieces.map (Piece.under key step) =
      (Piece.ofTable key step isArray t ++ t.pieces.map (Piece.under key step)).map
      (Piece.spaced first path) := by
  rw [Piece.ofTable, Piece.ofTable, if_neg hdotted, if_neg (horigin ▸ hdotted), hpieces,
    List.map_append, List.map_map, List.map_map, List.map_singleton, htable]
  exact congrArg (_ ++ ·) (List.map_congr_left fun q _ => (Piece.spaced_under first path q key step).symm)

mutual

theorem pieces_spaceBelow (first : Option HeaderPath) (path : HeaderPath) (t : Table)
    (h : t.HasClosedGroups) :
    (spaceBelow first path t).pieces = t.pieces.map (Piece.spaced first path) := by
  obtain ⟨_, _, _, entries⟩ := t
  rw [spaceBelow, Table.pieces, Table.pieces]
  exact pieces_spaceIn first path entries h
  termination_by structural t

theorem pieces_spaceIn (first : Option HeaderPath) (path : HeaderPath) (entries : List (Key × Item))
    (h : Item.HaveClosedGroups entries) :
    Item.pieces (spaceIn first path entries) = (Item.pieces entries).map (Piece.spaced first path) := by
  match entries with
  | [] => rfl
  | (_, .value _) :: rest => exact pieces_spaceIn first path rest h.2
  | (key, .table t) :: rest =>
    obtain ⟨⟨hclosed, ht⟩, hrest⟩ := h
    have hbelow := pieces_spaceBelow first (path ++ [key.name]) t ht
    rw [spaceIn, Item.pieces, Item.pieces, List.map_append, pieces_spaceIn first path rest hrest]
    congr 1
    cases horigin : t.origin with
    | dotted => simp [Piece.ofTable, horigin, hclosed horigin]
    | implied =>
      refine spaced_pieces_table (by simp [horigin]) ?_ (origin_spaceBelow t) hbelow
      simp [Piece.spaced, Piece.isHeader, horigin, Piece.labels, Step.label]
    | explicit =>
      refine spaced_pieces_table (by simp [horigin]) ?_ (origin_spaceBelow t)
        ((pieces_spaceHeader _).trans hbelow)
      simp [Piece.spaced, Piece.isHeader, horigin, Piece.labels, Step.label]
  | (key, .tables ts) :: rest =>
    rw [spaceIn, Item.pieces, Item.pieces, List.map_append, pieces_spaceIn first path rest h.2,
      piecesOfArray_spaceArray first path key 0 ts h.1]
  termination_by structural entries

theorem piecesOfArray_spaceArray (first : Option HeaderPath) (path : HeaderPath) (key : Key) (index : Nat)
    (ts : List Table) (h : Table.HaveClosedGroups ts) :
    Table.piecesOfArray key index (spaceArray first path key.name index ts) =
      (Table.piecesOfArray key index ts).map (Piece.spaced first path) := by
  match ts with
  | [] => rfl
  | t :: ts =>
    obtain ⟨hdotted, ht, hts⟩ := h
    have hbelow := pieces_spaceBelow first (path ++ [elementName key.name index]) t ht
    rw [spaceArray, Table.piecesOfArray, Table.piecesOfArray, List.map_append,
      piecesOfArray_spaceArray first path key (index + 1) ts hts]
    congr 1
    refine spaced_pieces_table hdotted ?_ (origin_spaceBelow t) ((pieces_spaceHeader _).trans hbelow)
    simp [Piece.spaced, Piece.isHeader, Piece.labels, Step.label]
  termination_by structural ts

end

/-! ### Legible tables -/

theorem isAroundHeader_spaceHeader (h : t.decor.IsAroundHeader) :
    (spaceHeader first path t).decor.IsAroundHeader := by
  refine ⟨?_, h.tail⟩
  have hnone : Toml.IsGap (Toml.withoutReturns "") := by
    rw [Toml.IsGap]
    decide
  have hblank : Toml.IsGap (Toml.withoutReturns "\n") := by
    rw [Toml.IsGap]
    decide
  simp only [Toml.Decor.IsLead, spaceHeader, Option.mem_def, Option.some.injEq, forall_eq']
  split
  · exact hnone
  · exact hblank

theorem isLegible_spaceHeader : (spaceHeader first path t).IsLegible ↔ t.IsLegible := by
  rw [Table.isLegible_iff, Table.isLegible_iff]
  rfl

mutual

theorem isLegible_spaceBelow (first : Option HeaderPath) (path : HeaderPath) (t : Table) (h : t.IsLegible) :
    (spaceBelow first path t).IsLegible := by
  obtain ⟨_, _, _, entries⟩ := t
  rw [spaceBelow]
  exact areLegible_spaceIn first path entries h
  termination_by structural t

theorem areLegible_spaceIn (first : Option HeaderPath) (path : HeaderPath) (entries : List (Key × Item))
    (h : Item.AreLegible entries) : Item.AreLegible (spaceIn first path entries) := by
  match entries with
  | [] => trivial
  | (_, .value _) :: rest => exact ⟨h.1, areLegible_spaceIn first path rest h.2⟩
  | (key, .table t) :: rest =>
    obtain ⟨⟨hkey, haround⟩, ht, hrest⟩ := h
    have hbelow := isLegible_spaceBelow first (path ++ [key.name]) t ht
    refine ⟨⟨hkey, ?_⟩, ?_, areLegible_spaceIn first path rest hrest⟩
    · cases horigin : t.origin with
      | dotted => exact fun hheader => absurd horigin hheader
      | implied =>
        intro _
        rw [decor_spaceBelow]
        exact haround (by simp [horigin])
      | explicit =>
        obtain ⟨hblank, haround⟩ := haround (by simp [horigin])
        refine fun _ => ⟨hblank, isAroundHeader_spaceHeader ?_⟩
        rwa [decor_spaceBelow]
    · cases horigin : t.origin with
      | dotted => exact ht
      | implied => exact hbelow
      | explicit => exact isLegible_spaceHeader.2 hbelow
  | (key, .tables ts) :: rest =>
    exact ⟨h.1, areLegible_spaceArray first path key.name 0 ts h.2.1,
      areLegible_spaceIn first path rest h.2.2⟩
  termination_by structural entries

theorem areLegible_spaceArray (first : Option HeaderPath) (path : HeaderPath) (name : String) (index : Nat)
    (ts : List Table) (h : Table.AreLegible ts) : Table.AreLegible (spaceArray first path name index ts) := by
  match ts with
  | [] => trivial
  | t :: ts =>
    have hbelow := isLegible_spaceBelow first (path ++ [elementName name index]) t h.2.1
    refine ⟨isAroundHeader_spaceHeader ?_, isLegible_spaceHeader.2 hbelow,
      areLegible_spaceArray first path name (index + 1) ts h.2.2⟩
    rw [decor_spaceBelow]
    exact h.1
  termination_by structural ts

end

/-! ### Orderly tables -/

/-- An element of an array with the blank lines above the headers from it on. -/
structure IsSpacedOut (first : Option HeaderPath) (t spaced : Table) : Prop where
  origin : spaced.origin = t.origin
  position : spaced.position = t.position
  pieces : ∃ path, spaced.pieces = t.pieces.map (Piece.spaced first path)

theorem IsSpacedOut.forall_pieces {P : Piece → Prop} {spaced : Table} (h : IsSpacedOut first t spaced)
    (hp : ∀ q ∈ t.pieces, ∀ path, P (q.spaced first path)) : ∀ q ∈ spaced.pieces, P q := by
  obtain ⟨path, hpieces⟩ := h.pieces
  rw [hpieces, List.forall_mem_map]
  exact fun q hq => hp q hq path

theorem isSpacedOut_spaceHeader (path : HeaderPath) (h : t.HasClosedGroups) :
    IsSpacedOut first t (spaceHeader first path (spaceBelow first path t)) :=
  ⟨origin_spaceBelow t, position_spaceBelow t, path,
    (pieces_spaceHeader _).trans (pieces_spaceBelow first path t h)⟩

theorem exists_of_mem_spaceArray {name : String} {index : Nat} {ts : List Table} {spaced : Table}
    (hclosed : Table.HaveClosedGroups ts) (h : spaced ∈ spaceArray first path name index ts) :
    ∃ t ∈ ts, IsSpacedOut first t spaced := by
  induction ts generalizing index with
  | nil => exact absurd h List.not_mem_nil
  | cons t ts ih =>
    obtain ⟨-, ht, hclosed⟩ := hclosed
    rw [spaceArray] at h
    rcases List.mem_cons.1 h with rfl | h
    · exact ⟨t, List.mem_cons_self, isSpacedOut_spaceHeader _ ht⟩
    · obtain ⟨t', ht', hspaced⟩ := ih hclosed h
      exact ⟨t', List.mem_cons_of_mem _ ht', hspaced⟩

theorem headsBelow_spaced {spaced : Table} (hspaced : IsSpacedOut first t spaced) (h : t.HeadsBelow) :
    spaced.HeadsBelow := by
  obtain ⟨n, hn, hbelow⟩ := h
  refine ⟨n, hspaced.position.trans hn, hspaced.forall_pieces fun q hq path hshown => ?_⟩
  rw [isShown_spaced] at hshown
  rw [Piece.position_spaced]
  exact hbelow q hq hshown

theorem precedes_spaced {u spaced spaced' : Table} (hspaced : IsSpacedOut first t spaced)
    (hspaced' : IsSpacedOut first u spaced') (h : t.Precedes u) : spaced.Precedes spaced' := by
  intro n hn
  rw [hspaced'.position] at hn
  obtain ⟨hposition, hbelow⟩ := h n hn
  refine ⟨by rwa [hspaced.position], hspaced.forall_pieces fun q hq path hshown => ?_⟩
  rw [isShown_spaced] at hshown
  rw [Piece.position_spaced]
  exact hbelow q hq hshown

theorem inTurn_spaceArray {name : String} {ts : List Table} (hclosed : Table.HaveClosedGroups ts)
    (h : Table.InTurn ts) (index : Nat) : Table.InTurn (spaceArray first path name index ts) := by
  have hall {spaced : Table} (hmem : spaced ∈ spaceArray first path name index ts) :=
    exists_of_mem_spaceArray hclosed hmem
  refine ⟨?_, fun spaced hmem => ?_, fun spaced hmem => ?_, ?_⟩
  · obtain ⟨t, ts, rfl⟩ := List.exists_cons_of_ne_nil h.nonempty
    exact List.cons_ne_nil _ _
  · obtain ⟨t, ht, hspaced⟩ := hall hmem
    rw [hspaced.origin]
    exact h.origin t ht
  · obtain ⟨t, ht, hspaced⟩ := hall hmem
    exact headsBelow_spaced hspaced (h.heads t ht)
  · have hpairwise := h.pairwise
    clear hall h
    induction ts generalizing index with
    | nil => exact .nil
    | cons t ts ih =>
      obtain ⟨-, ht, hclosed⟩ := hclosed
      obtain ⟨hfirst, hrest⟩ := List.pairwise_cons.1 hpairwise
      refine List.pairwise_cons.2 ⟨fun spaced hmem => ?_, ih hclosed (index + 1) hrest⟩
      obtain ⟨u, hu, hspaced⟩ := exists_of_mem_spaceArray hclosed hmem
      exact precedes_spaced (isSpacedOut_spaceHeader _ ht) hspaced (hfirst u hu)

theorem isHeaded_spaced {t' : Table} (h : t.IsHeaded key) (horigin : t'.origin = t.origin)
    (hpairs : t'.pairs = t.pairs)
    (hpieces : t'.pieces = t.pieces.map (Piece.spaced first path)) : t'.IsHeaded key := by
  refine ⟨by rw [horigin, hpairs]; exact h.ends, fun himplied hempty => ?_⟩
  obtain ⟨q, hq, hshown⟩ := h.leads (horigin ▸ himplied) (hpairs ▸ hempty)
  refine ⟨q.spaced first path, hpieces ▸ List.mem_map_of_mem hq, ?_⟩
  rwa [isShown_spaced]

theorem isOrderly_spaceHeader : (spaceHeader first path t).IsOrderly ↔ t.IsOrderly := by
  rw [Table.isOrderly_iff, Table.isOrderly_iff]
  rfl

mutual

theorem isOrderly_spaceBelow (first : Option HeaderPath) (path : HeaderPath) (t : Table) (h : t.IsOrderly) :
    (spaceBelow first path t).IsOrderly := by
  obtain ⟨_, _, _, entries⟩ := t
  rw [spaceBelow]
  exact ⟨(names_spaceIn entries).symm ▸ h.1, areOrderly_spaceIn first path entries h.2⟩
  termination_by structural t

theorem areOrderly_spaceIn (first : Option HeaderPath) (path : HeaderPath) (entries : List (Key × Item))
    (h : Item.AreOrderly entries) : Item.AreOrderly (spaceIn first path entries) := by
  match entries with
  | [] => trivial
  | (_, .value _) :: rest => exact ⟨h.1, areOrderly_spaceIn first path rest h.2⟩
  | (key, .table t) :: rest =>
    obtain ⟨hplace, ht, hrest⟩ := h
    have hbelow := isOrderly_spaceBelow first (path ++ [key.name]) t ht
    have hpieces := pieces_spaceBelow first (path ++ [key.name]) t ht.hasClosedGroups
    rw [spaceIn]
    cases horigin : t.origin with
    | dotted => exact ⟨hplace, ht, areOrderly_spaceIn first path rest hrest⟩
    | implied =>
      rw [if_neg (by simp [horigin])] at hplace
      refine ⟨?_, hbelow, areOrderly_spaceIn first path rest hrest⟩
      rw [if_neg (by simp [origin_spaceBelow, horigin])]
      exact isHeaded_spaced hplace (origin_spaceBelow t) (pairs_spaceBelow t) hpieces
    | explicit =>
      rw [if_neg (by simp [horigin])] at hplace
      have horigin' : (spaceHeader first (path ++ [key.name])
          (spaceBelow first (path ++ [key.name]) t)).origin = t.origin :=
        origin_spaceBelow t
      refine ⟨?_, isOrderly_spaceHeader.2 hbelow, areOrderly_spaceIn first path rest hrest⟩
      rw [if_neg (by simp [horigin', horigin])]
      exact isHeaded_spaced hplace horigin' ((pairs_spaceHeader _).trans (pairs_spaceBelow t))
        ((pieces_spaceHeader _).trans hpieces)
  | (key, .tables ts) :: rest =>
    obtain ⟨⟨hends, hturn⟩, hts, hrest⟩ := h
    exact ⟨⟨hends, inTurn_spaceArray (Table.haveClosedGroups_of_orderly ts hts hturn.origin) hturn 0⟩,
      areOrderly_spaceArray first path key.name 0 ts hts, areOrderly_spaceIn first path rest hrest⟩
  termination_by structural entries

theorem areOrderly_spaceArray (first : Option HeaderPath) (path : HeaderPath) (name : String) (index : Nat)
    (ts : List Table) (h : Table.AreOrderly ts) : Table.AreOrderly (spaceArray first path name index ts) := by
  match ts with
  | [] => trivial
  | t :: ts =>
    exact ⟨isOrderly_spaceHeader.2 (isOrderly_spaceBelow first (path ++ [elementName name index]) t h.1),
      areOrderly_spaceArray first path name (index + 1) ts h.2⟩
  termination_by structural ts

end

/-! ### Texts -/

/-- What is printed for a piece behind the text above its header. -/
def textBelow (q : Piece) : String :=
  q.opening ++ Toml.pathText .headerPath (q.first :: q.keys) ++ q.closing ++
    Toml.withoutReturns (q.table.decor.after.getD "") ++ "\n" ++ Toml.Pair.lines q.table.pairs

theorem text_eq_below {q : Piece} {lead : String} (h : q.table.decor.before = some lead) (isFirst : Bool) :
    q.text isFirst = Toml.withoutReturns lead ++ textBelow q := by
  simp [Piece.text, textBelow, Toml.Block.headerText, Toml.Decor.textBefore, Toml.Decor.textAfter,
    h, String.append_assoc]

theorem head_textBelow (q : Piece) (text : String) : (textBelow q ++ text).toList.head? = some '[' := by
  cases harray : q.isArray <;> simp [textBelow, Piece.opening, harray]

theorem textBelow_spaced (q : Piece) : textBelow (q.spaced first path) = textBelow q := by
  have hafter : (q.spaced first path).table.decor.after = q.table.decor.after := by
    cases hheader : q.isHeader with
    | true =>
      rw [Piece.spaced, if_pos hheader, spaceHeader]
      exact congrArg (·.after) (decor_spaceBelow q.table)
    | false => rw [Piece.decor_spaced first path q hheader]
  rw [textBelow, textBelow, hafter, pairs_spaced]
  rfl

/-- Where a bracket follows, a blank line shows. -/
theorem eq_of_blankLine {lead lead' text text' : String} (hlead : lead = "" ∨ lead = "\n")
    (hlead' : lead' = "" ∨ lead' = "\n") (htext : text.toList.head? = some '[')
    (htext' : text'.toList.head? = some '[')
    (h : lead ++ text = lead' ++ text') : lead = lead' ∧ text = text' := by
  have hlists := congrArg String.toList h
  rcases hlead with rfl | rfl <;> rcases hlead' with rfl | rfl
  · exact ⟨rfl, by simpa using h⟩
  · have hhead := congrArg List.head? hlists
    simp [htext] at hhead
  · have hhead := congrArg List.head? hlists
    simp [htext'] at hhead
  · exact ⟨rfl, by simpa using h⟩

/-- Headers whose text does not change have their blank lines already. -/
theorem before_of_textAll {ps : List Piece} {isFirst : Bool} (hheaders : ∀ q ∈ ps, q.isHeader)
    (hleads : ∀ q ∈ ps, ∃ lead, q.table.decor.before = some lead ∧ (lead = "" ∨ lead = "\n"))
    (h : Piece.textAll isFirst (ps.map (Piece.spaced first path)) = Piece.textAll isFirst ps) :
    ∀ q ∈ ps, IsSpaced first (q.located path) := by
  induction ps generalizing isFirst with
  | nil => simp
  | cons q ps ih =>
    obtain ⟨hheader, hheaders⟩ := List.forall_mem_cons.1 hheaders
    obtain ⟨⟨lead, hbefore, hlead⟩, hleads⟩ := List.forall_mem_cons.1 hleads
    have hspaced : (q.spaced first path).table.decor.before =
        some (if first = some (path ++ q.labels) then "" else "\n") := by
      rw [Piece.spaced, if_pos hheader]
      rfl
    have hreturns {text : String} (h : text = "" ∨ text = "\n") : Toml.withoutReturns text = text := by
      rcases h with rfl | rfl <;> decide
    have hblank : (if first = some (path ++ q.labels) then "" else "\n") = "" ∨
        (if first = some (path ++ q.labels) then "" else "\n") = "\n" := by
      split <;> simp
    rw [List.map_cons, Piece.textAll, Piece.textAll, text_eq_below hspaced, text_eq_below hbefore,
      textBelow_spaced,
      hreturns hblank, hreturns hlead, String.append_assoc, String.append_assoc] at h
    obtain ⟨heq, hbelow⟩ := eq_of_blankLine hblank hlead (head_textBelow q _) (head_textBelow q _) h
    have hlists := congrArg String.toList hbelow
    rw [String.toList_append, String.toList_append] at hlists
    have hrest := String.toList_inj.1 (List.append_cancel_left hlists)
    refine List.forall_mem_cons.2 ⟨?_, ih hheaders hleads hrest⟩
    rw [IsSpaced, Piece.located, hbefore, heq]

theorem printed_spaceBelow {root : Table} {trailing : String} (hclosed : root.HasClosedGroups) :
    (⟨spaceBelow first [] root, trailing⟩ : Document).printed =
      (⟨root, trailing⟩ : Document).printed.map (Piece.spaced first []) := by
  rw [Document.printed, Document.printed, pieces_spaceBelow first [] root hclosed,
    Piece.inOrder_map (Piece.position_spaced first []) isShown_spaced]

/-- The pass leaves a text alone only if it finds nothing to do, where all headers have been through it once. -/
theorem print_spaceHeaders_eq_iff {doc : Document} (hroot : doc.HasPlainRoot)
    (hclosed : doc.root.HasClosedGroups)
    (hheaders : ∀ q ∈ doc.printed, q.isHeader)
    (hleads : ∀ q ∈ doc.printed, ∃ lead, q.table.decor.before = some lead ∧ (lead = "" ∨ lead = "\n")) :
    (⟨spaceHeaders doc.root, doc.trailing⟩ : Document).print = doc.print ↔
    spaceHeaders doc.root = doc.root := by
  constructor
  · intro h
    have hplain : (⟨spaceHeaders doc.root, doc.trailing⟩ : Document).HasPlainRoot :=
      ⟨(origin_spaceBelow doc.root).trans hroot.origin, (position_spaceBelow doc.root).trans hroot.position⟩
    have hpairs : (spaceHeaders doc.root).pairs = doc.root.pairs := pairs_spaceBelow doc.root
    have hprinted : (⟨spaceHeaders doc.root, doc.trailing⟩ : Document).printed =
        doc.printed.map (Piece.spaced (firstHeader doc.root) []) := printed_spaceBelow hclosed
    rw [Document.print_eq hplain, Document.print_eq hroot, hprinted, hpairs] at h
    have hlists := congrArg String.toList h
    simp only [String.toList_append, List.append_assoc, List.append_cancel_left_eq,
      List.append_cancel_right_eq] at hlists
    have hspaced := before_of_textAll hheaders hleads (String.toList_inj.1 hlists)
    rw [spaceHeaders, spaceBelow_eq_iff, tablesBelow_eq_pieces [] _ hclosed, List.forall_mem_map]
    intro q hq
    obtain ⟨hpiece, hheader⟩ := List.mem_filter.1 hq
    exact hspaced q (mem_printed_of_isHeader hpiece hheader)
  · intro h
    rw [h]

end Lint

end FeatureForwarding
