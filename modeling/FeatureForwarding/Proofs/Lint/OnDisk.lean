import FeatureForwarding.Proofs.Lint.Spaced

/-! The canonical form of a document over writing and reading. What was brought into it is read back as a
document that is already in it, provided that the header that opens the text is the one that the blank
lines were put for. -/

namespace FeatureForwarding

open Toml (Key Item Value Table Document Piece Step names find?)

namespace Lint

variable {standards : Standards} {doc again : Document} {q : Piece} {entries : List (Key × Item)}

/-- Below the table is a header that was there when the text was read. -/
def LeadsToHeader (t : Table) : Prop := ∃ q ∈ t.pieces, q.isHeader ∧ q.table.position.isSome

/-- A table that is written with a header although it came about through others, which is what becomes of
a package that only those imply. -/
structure IsNewPackage (q : Piece) : Prop where
  steps : q.steps = [.key "package"]
  isArray : q.isArray = false
  origin : q.table.origin = .implied
  before : q.table.decor.before = none
  leads : LeadsToHeader q.table

/-- A table of the root that got its header later. -/
structure IsNewHeader (q : Piece) : Prop where
  steps : ∃ name, '[' ∉ name.toList ∧ q.steps = [.key name]
  position : q.table.position = none
  kind : q.isHeader ∨ IsNewPackage q

/-- Every header was read or is one of the new ones. -/
def HasSettledHeaders (doc : Document) : Prop :=
  ∀ q ∈ doc.root.pieces, q.isShown → q.isHeader ∧ q.table.position.isSome ∨ IsNewHeader q

theorem HasSettledHeaders.kind (h : HasSettledHeaders doc) (hq : q ∈ doc.root.pieces) (hshown : q.isShown) :
    q.isHeader ∨ IsNewPackage q := by
  rcases h q hq hshown with ⟨hheader, -⟩ | hnew
  · exact .inl hheader
  · exact hnew.kind

theorem steps_ne_nil (h : q ∈ Item.pieces entries) : q.steps ≠ [] := by
  obtain ⟨⟨key, v | t | ts⟩, -, h⟩ := Item.mem_pieces_iff.1 h
  · exact absurd h List.not_mem_nil
  · rw [Item.pieces, Item.pieces, List.append_nil] at h
    rcases List.mem_append.1 h with h | h
    · rw [Piece.ofTable] at h
      split at h
      · exact absurd h List.not_mem_nil
      · rw [List.mem_singleton.1 h]
        exact List.cons_ne_nil _ _
    · obtain ⟨below, -, rfl⟩ := List.mem_map.1 h
      exact List.cons_ne_nil _ _
  · rw [Item.pieces, Item.pieces, List.append_nil] at h
    obtain ⟨t, -, index, h⟩ := Table.exists_of_mem_piecesOfArray h
    rcases List.mem_append.1 h with h | h
    · rw [Piece.ofTable] at h
      split at h
      · exact absurd h List.not_mem_nil
      · rw [List.mem_singleton.1 h]
        exact List.cons_ne_nil _ _
    · obtain ⟨below, -, rfl⟩ := List.mem_map.1 h
      exact List.cons_ne_nil _ _

/-- One key leads to the table of an entry. -/
theorem exists_of_steps (h : q ∈ Item.pieces entries) {name : String} (hsteps : q.steps = [.key name]) :
    ∃ key, (key, .table q.table) ∈ entries ∧ key.name = name ∧ q.isArray = false := by
  obtain ⟨⟨key, v | t | ts⟩, hentry, h⟩ := Item.mem_pieces_iff.1 h
  · exact absurd h List.not_mem_nil
  · rw [Item.pieces, Item.pieces, List.append_nil] at h
    rcases List.mem_append.1 h with h | h
    · rw [Piece.ofTable] at h
      split at h
      · exact absurd h List.not_mem_nil
      · rw [List.mem_singleton.1 h] at hsteps ⊢
        obtain ⟨rfl⟩ := Step.key.inj (List.cons.inj hsteps).1
        exact ⟨key, hentry, rfl, rfl⟩
    · obtain ⟨below, hbelow, rfl⟩ := List.mem_map.1 h
      rw [Table.pieces_eq] at hbelow
      exact absurd (List.cons.inj hsteps).2 (steps_ne_nil hbelow)
  · rw [Item.pieces, Item.pieces, List.append_nil] at h
    obtain ⟨t, -, index, h⟩ := Table.exists_of_mem_piecesOfArray h
    rcases List.mem_append.1 h with h | h
    · rw [Piece.ofTable] at h
      split at h
      · exact absurd h List.not_mem_nil
      · rw [List.mem_singleton.1 h] at hsteps
        exact absurd (List.cons.inj hsteps).1 nofun
    · obtain ⟨below, -, rfl⟩ := List.mem_map.1 h
      exact absurd (List.cons.inj hsteps).1 nofun

theorem label_eq_key {step : Step} {name : String} (hname : '[' ∉ name.toList) (h : step.label = name) :
    step = .key name := by
  cases step with
  | key other => exact congrArg Step.key h
  | element other index =>
    have htext := congrArg String.toList h
    rw [Step.label, toList_elementName] at htext
    rw [← htext] at hname
    exact absurd (List.mem_append_right _ List.mem_cons_self) hname

/-- What is spelled like a table of the root is that table. -/
theorem table_eq_of_labels (hnames : (names doc.root.entries).Nodup) (hq : q ∈ doc.root.pieces)
    {name : String}
    (hplain : '[' ∉ name.toList) (hsteps : q.steps = [.key name]) {other : Piece}
    (hother : other ∈ doc.root.pieces)
    (hlabels : other.labels = q.labels) : other.table = q.table ∧ other.isArray = q.isArray := by
  rw [Piece.labels, Piece.labels, hsteps] at hlabels
  obtain ⟨step, hstep, hlabel⟩ := List.map_eq_singleton_iff.1 hlabels
  rw [label_eq_key hplain hlabel] at hstep
  rw [Table.pieces_eq] at hq hother
  obtain ⟨key, hentry, hname, harray⟩ := exists_of_steps hq hsteps
  obtain ⟨key', hentry', hname', harray'⟩ := exists_of_steps hother hstep
  have heq := List.inj_on_of_nodup_map hnames hentry' hentry (hname'.trans hname.symm)
  exact ⟨Item.table.inj (Prod.mk.inj heq).2, harray'.trans harray.symm⟩

/-! ### The first header -/

/-- The header that no blank line is put above is one with the smallest position. -/
theorem exists_of_firstHeader {root : Table} (hclosed : root.HasClosedGroups) {labels : HeaderPath}
    (h : firstHeader root = some labels) : ∃ q ∈ root.pieces, q.isHeader ∧ q.labels = labels ∧
      ∃ n, q.table.position = some n ∧ ∀ other ∈ root.pieces, other.isHeader →
      ∀ m ∈ other.table.position, n ≤ m := by
  unfold firstHeader at h
  split at h
  · exact absurd h nofun
  · obtain ⟨n, hfrom, -, hle⟩ := leastFrom_eq_some h
    rw [headersBelow_eq_tables, tablesBelow_eq_pieces [] root hclosed, List.map_map] at hfrom hle
    obtain ⟨header, hheader, hposition, rfl⟩ := hfrom.resolve_left nofun
    obtain ⟨q, hq, rfl⟩ := List.mem_map.1 hheader
    obtain ⟨hpiece, hheader⟩ := List.mem_filter.1 hq
    exact ⟨q, hpiece, hheader, rfl, n, hposition, fun other hother hheader' =>
      hle _ (List.mem_map_of_mem (List.mem_filter.2 ⟨hother, hheader'⟩))⟩

theorem firstHeader_ne_none {root : Table} (hclosed : root.HasClosedGroups) (hvalues : hasValues root = false)
    (hq : q ∈ root.pieces) (hheader : q.isHeader) (hposition : q.table.position.isSome) :
    firstHeader root ≠ none := by
  intro hnone
  rw [hasValues] at hvalues
  rw [firstHeader, hvalues, if_neg Bool.false_ne_true, leastFrom_eq_none, headersBelow_eq_tables,
    tablesBelow_eq_pieces [] _ hclosed, List.forall_mem_map, List.forall_mem_map] at hnone
  rw [Option.isSome_iff_ne_none] at hposition
  exact hposition (hnone.2 _ (List.mem_filter.2 ⟨hq, hheader⟩))

/-- The text starts with a line, or with a header that was read. -/
def StartsAsRead (doc : Document) : Prop :=
  hasValues doc.root = false → ∀ q ∈ doc.printed.head?, q.table.position.isSome

instance (doc : Document) : Decidable (StartsAsRead doc) := inferInstanceAs (Decidable (_ → _))

/-- The header at the top of the text is the one that no blank line is put above, unless it is a new one. -/
theorem opening_eq_iff (hheaders : HasSettledHeaders doc) (hclosed : doc.root.HasClosedGroups)
    (hnames : (names doc.root.entries).Nodup) (hdistinct : doc.root.HasDistinctPositions) :
    openingHeader doc = firstHeader doc.root ↔ StartsAsRead doc := by
  cases hvalues : hasValues doc.root with
  | true =>
    have hnone : firstHeader doc.root = none := by
      rw [hasValues] at hvalues
      rw [firstHeader, hvalues, if_pos rfl]
    simp [openingHeader, StartsAsRead, hvalues, hnone]
  | false =>
    rw [openingHeader, StartsAsRead, hvalues, if_neg Bool.false_ne_true]
    cases hhead : doc.printed.head? with
    | none =>
      cases hfirst : firstHeader doc.root with
      | none => simp
      | some labels =>
        obtain ⟨q, hq, hheader, -⟩ := exists_of_firstHeader hclosed hfirst
        have hprinted := mem_printed_of_isHeader hq hheader
        rw [List.head?_eq_none_iff.1 hhead] at hprinted
        exact absurd hprinted List.not_mem_nil
    | some top =>
      have hmem : top ∈ doc.printed := List.mem_of_mem_head? hhead
      obtain ⟨htop, hshown⟩ := Piece.mem_inOrder hmem
      simp only [Option.map_some, Option.mem_def, Option.some.injEq, forall_eq', forall_const]
      constructor
      · intro hopening
        obtain ⟨q, hq, hheader, hlabels, n, hn, -⟩ := exists_of_firstHeader hclosed hopening.symm
        rcases hheaders top htop hshown with ⟨-, hread⟩ | hnew
        · exact hread
        · -- a new header stands under a key of the root, and no other header is spelled like it
          obtain ⟨name, hplain, hsteps⟩ := hnew.steps
          rw [(table_eq_of_labels hnames htop hplain hsteps hq hlabels).1] at hn
          exact absurd (hn.symm.trans hnew.position) (Option.some_ne_none n)
      · intro hread
        obtain ⟨k, hk⟩ := Option.isSome_iff_exists.1 hread
        have hheader : top.isHeader := by
          rcases hheaders top htop hshown with ⟨hheader, -⟩ | hnew
          · exact hheader
          · exact absurd (hk.symm.trans hnew.position) (Option.some_ne_none k)
        cases hfirst : firstHeader doc.root with
        | none => exact absurd hfirst (firstHeader_ne_none hclosed hvalues htop hheader hread)
        | some labels =>
          obtain ⟨q, hq, hheader', rfl, n, hn, hle⟩ := exists_of_firstHeader hclosed hfirst
          have hge : k ≤ n := Piece.le_of_head_inOrder hhead (mem_printed_of_isHeader hq hheader') hk hn
          have heq : n = k := Nat.le_antisymm (hle top htop hheader k hk) hge
          rw [heq] at hn
          rw [Piece.labels, Piece.labels, hdistinct.steps_eq htop hq hk hn]

/-! ### Blank lines -/

theorem hasValues_of_pairs (h : Item.AreOrderly entries) (hpairs : Item.pairs entries = []) :
    (entries.any fun entry => isValue entry.2) = false := by
  induction entries with
  | nil => rfl
  | cons entry rest ih =>
    obtain ⟨key, v | t | ts⟩ := entry
    · rw [Item.pairs, Value.pairsAt_of_isDotted_eq_false key h.1] at hpairs
      exact absurd hpairs (List.cons_ne_nil _ _)
    · rw [Item.pairs] at hpairs
      rw [List.any_cons, ih h.2.2 (List.append_eq_nil_iff.1 hpairs).2]
      rfl
    · rw [Item.pairs] at hpairs
      rw [List.any_cons, ih h.2.2 hpairs]
      rfl

theorem IsNewPackage.isHeader_eq_false (h : IsNewPackage q) : q.isHeader = false := by
  simp [Piece.isHeader, h.isArray, h.origin]

/-- If a package is written with a header that it did not have, there is a header to put no blank line above. -/
theorem IsNewPackage.firstHeader_ne_none (hclosed : doc.root.HasClosedGroups)
    (hvalues : hasValues doc.root = false)
    (hq : q ∈ doc.root.pieces) (h : IsNewPackage q) : firstHeader doc.root ≠ none := by
  obtain ⟨below, hbelow, hheader, hposition⟩ := h.leads
  rw [Table.pieces_eq] at hq
  obtain ⟨key, hentry, -, -⟩ := exists_of_steps hq h.steps
  have hmem : below.under key (.key key.name) ∈ doc.root.pieces := by
    rw [Table.pieces_eq]
    refine Item.mem_pieces_iff.2 ⟨_, hentry, ?_⟩
    rw [Item.pieces, Item.pieces, List.append_nil]
    exact List.mem_append_right _ (List.mem_map_of_mem hbelow)
  exact Lint.firstHeader_ne_none hclosed hvalues hmem hheader hposition

/-- The text above a header of a document in canonical form: a package with a new header opens the text or
stands behind a blank line. -/
theorem textBefore_settled (hheaders : HasSettledHeaders doc) (hcanonical : Canonical standards doc.root)
    (hclosed : doc.root.HasClosedGroups) {e : Nat × Piece} (hmem : e.2 ∈ doc.printed) :
    e.2.isHeader ∧ e.2.table.decor.textBefore (Piece.surround (doc.opens e.1)) =
        (if firstHeader doc.root = some e.2.labels then "" else "\n") ∨
      IsNewPackage e.2 ∧ e.2.table.decor.textBefore (Piece.surround (doc.opens e.1)) =
        if doc.opens e.1 then "" else "\n" := by
  obtain ⟨hpiece, hshown⟩ := Piece.mem_inOrder hmem
  have hblank : Toml.withoutReturns "\n" = "\n" := by decide
  rcases hheaders.kind hpiece hshown with hheader | hnew
  · have hspaced := (spaceBelow_eq_iff (firstHeader doc.root) [] doc.root).1 hcanonical.headers
    rw [tablesBelow_eq_pieces [] _ hclosed, List.forall_mem_map] at hspaced
    have hbefore := hspaced e.2 (List.mem_filter.2 ⟨hpiece, hheader⟩)
    rw [IsSpaced, Piece.located, List.nil_append] at hbefore
    refine .inl ⟨hheader, ?_⟩
    rw [Toml.Decor.textBefore, hbefore]
    split
    · rfl
    · exact hblank
  · refine .inr ⟨hnew, ?_⟩
    rw [Toml.Decor.textBefore, hnew.before]
    cases doc.opens e.1
    · exact hblank
    · rfl

/-- Where no line stands in front of the headers the first of them opens the text. -/
theorem openingHeader_of_opens (horderly : doc.root.IsOrderly) {e : Nat × Piece}
    (he : e ∈ Table.numbered 1 doc.printed) :
    doc.opens e.1 → openingHeader doc = some e.2.labels := by
  obtain ⟨-, hentries⟩ := Table.isOrderly_iff.1 horderly
  intro hopens
  obtain ⟨hpairs, hone⟩ : doc.root.pairs.isEmpty = true ∧ e.1 = 1 := by
    simpa [Document.opens, Toml.opensAt] using hopens
  have hvalues : hasValues doc.root = false :=
    hasValues_of_pairs hentries (Table.pairs_eq doc.root ▸ List.isEmpty_iff.1 hpairs)
  have hhead : doc.printed.head? = some e.2 := by
    cases hprinted : doc.printed with
    | nil =>
      rw [hprinted] at he
      exact absurd he List.not_mem_nil
    | cons p ps =>
      rw [hprinted] at he
      rcases List.mem_cons.1 he with rfl | he
      · rfl
      · have htwo : 2 ≤ e.1 := Table.le_of_mem_numbered he
        omega
  rw [openingHeader, hvalues, if_neg Bool.false_ne_true, hhead]
  rfl

/-- Above every header is printed what should be there once it is read. -/
def StartsSpaced (doc : Document) : Prop :=
  ∀ e ∈ Table.numbered 1 doc.printed, e.2.table.decor.textBefore (Piece.surround (doc.opens e.1)) =
    if openingHeader doc = some e.2.labels then "" else "\n"

theorem mem_printed_of_numbered {e : Nat × Piece} (he : e ∈ Table.numbered 1 doc.printed) :
    e.2 ∈ doc.printed := by
  rw [← Table.map_snd_numbered 1 doc.printed]
  exact List.mem_map_of_mem he

theorem exists_numbered (hq : q ∈ doc.printed) : ∃ n, (n, q) ∈ Table.numbered 1 doc.printed := by
  rw [← Table.map_snd_numbered 1 doc.printed] at hq
  obtain ⟨⟨n, _⟩, he, rfl⟩ := List.mem_map.1 hq
  exact ⟨n, he⟩

theorem openingHeader_eq_some {labels : HeaderPath} (h : openingHeader doc = some labels) :
    hasValues doc.root = false ∧ ∃ q ∈ doc.printed, q.labels = labels := by
  unfold openingHeader at h
  split at h
  · exact absurd h nofun
  · next hvalues =>
    obtain ⟨q, hhead, rfl⟩ := Option.map_eq_some_iff.1 h
    exact ⟨by simpa using hvalues, q, List.mem_of_mem_head? hhead, rfl⟩

section

variable (hheaders : HasSettledHeaders doc) (hcanonical : Canonical standards doc.root)
  (horderly : doc.root.IsOrderly)

include hheaders hcanonical horderly

theorem StartsSpaced.opening_eq (h : StartsSpaced doc) : openingHeader doc = firstHeader doc.root := by
  have hclosed : doc.root.HasClosedGroups := Table.IsOrderly.hasClosedGroups _ horderly
  cases hfirst : firstHeader doc.root with
  | some labels =>
    -- nothing stands above the first header, which is right only where the text opens
    obtain ⟨q, hq, hheader, rfl, -⟩ := exists_of_firstHeader hclosed hfirst
    have hprinted := mem_printed_of_isHeader hq hheader
    obtain ⟨n, he⟩ := exists_numbered hprinted
    have hlead := h _ he
    rcases textBefore_settled hheaders hcanonical hclosed (e := (n, q)) hprinted with ⟨-, hspaced⟩ | ⟨hnew, -⟩
    · rw [hspaced, if_pos hfirst] at hlead
      by_contra hother
      exact absurd hlead (by simp [hother])
    · exact absurd hheader (by simp [hnew.isHeader_eq_false])
  | none =>
    refine Option.eq_none_iff_forall_ne_some.2 fun labels hopening => ?_
    obtain ⟨hvalues, q, hprinted, rfl⟩ := openingHeader_eq_some hopening
    obtain ⟨n, he⟩ := exists_numbered hprinted
    have hlead := h _ he
    rw [if_pos hopening] at hlead
    rcases textBefore_settled hheaders hcanonical hclosed (e := (n, q)) hprinted with ⟨-, hspaced⟩ | ⟨hnew, -⟩
    · rw [hspaced, hfirst] at hlead
      exact absurd hlead (by simp)
    · exact hnew.firstHeader_ne_none hclosed hvalues (Document.mem_printed hprinted) hfirst

theorem startsSpaced_of_opening (hopening : openingHeader doc = firstHeader doc.root) : StartsSpaced doc := by
  have hclosed : doc.root.HasClosedGroups := Table.IsOrderly.hasClosedGroups _ horderly
  obtain ⟨hnames, -⟩ := Table.isOrderly_iff.1 horderly
  intro e he
  have hprinted := mem_printed_of_numbered he
  rcases textBefore_settled hheaders hcanonical hclosed hprinted with ⟨-, hlead⟩ | ⟨hnew, hlead⟩
  · rw [hlead, hopening]
  · rw [hlead]
    by_cases hopens : doc.opens e.1 = true
    · rw [if_pos hopens, if_pos (openingHeader_of_opens horderly he hopens)]
    · rw [if_neg hopens, if_neg]
      intro hlabels
      obtain ⟨q, hq, hheader, heq, -⟩ := exists_of_firstHeader hclosed (hopening.symm.trans hlabels)
      obtain ⟨htable, harray⟩ :=
        table_eq_of_labels hnames (Document.mem_printed hprinted) (by decide) hnew.steps hq heq
      rw [Piece.isHeader, htable, harray, ← Piece.isHeader, hnew.isHeader_eq_false] at hheader
      exact absurd hheader Bool.false_ne_true

/-- A document in canonical form that was read back stays as it is exactly if its text does not start with a
new header. -/
theorem print_normalize_readBack_iff (hdistinct : doc.root.HasDistinctPositions) (hlegible : doc.IsLegible)
    (hback : doc.ReadBackFrom again) : (again.normalize standards).print = doc.print ↔ StartsAsRead doc := by
  have hclosed : doc.root.HasClosedGroups := Table.IsOrderly.hasClosedGroups _ horderly
  obtain ⟨hshuffled, harranged⟩ := allShuffled_arranged hlegible.table horderly hback hcanonical
  have hsettled := hback.shuffled hshuffled
  rw [← harranged] at hsettled
  have hleads : ∀ q ∈ (⟨arranged standards again.root, again.trailing⟩ : Document).printed,
      ∃ lead, q.table.decor.before = some lead ∧ (lead = "" ∨ lead = "\n") := by
    intro q hq
    obtain ⟨e, he, hrebuilt⟩ := exists_of_forall₂ hsettled.headers q hq
    refine ⟨_, congrArg (·.before) hrebuilt.decor, ?_⟩
    rcases textBefore_settled hheaders hcanonical hclosed
      (mem_printed_of_numbered he) with ⟨-, hlead⟩ | ⟨-, hlead⟩
    · rw [hlead]
      split <;> simp
    · rw [hlead]
      split <;> simp
  have hprint := print_spaceHeaders_eq_iff hsettled.root (hasClosedGroups_of_readBack hsettled)
    (fun q hq => (isHeader_of_mem_printed hsettled hq).2) hleads
  rw [hsettled.print_eq hlegible.root hlegible.table] at hprint
  have hstart : StartsSpaced doc ↔ openingHeader doc = firstHeader doc.root :=
    ⟨StartsSpaced.opening_eq hheaders hcanonical horderly,
      startsSpaced_of_opening hheaders hcanonical horderly⟩
  exact hprint.trans ((spaceHeaders_readBack horderly hsettled).trans (hstart.trans
    (opening_eq_iff hheaders hclosed (Table.isOrderly_iff.1 horderly).1 hdistinct)))

end

end Lint

end FeatureForwarding
