import FeatureForwarding.Proofs.Toml.Pieces

/-! The lines of a text. A text that is printed line by line is read line by line, each header with the
lines below it, and the text behind the last line is what is left. -/

namespace FeatureForwarding.Toml

open Lexeme Reading

variable {p : Pair} {q : Piece} {key : Key} {c : Char} {cs rest : List Char} {unset : Surround} {d : Decor}
  {lead text : String} {fuel : Nat}

/-! ### The text around lines -/

theorem startsLine_cons (h : c ∉ [' ', '\t', '#', '\n', '\r']) (cs : List Char) : StartsLine (c :: cs) where
  blank := by
    simp only [List.mem_cons, List.not_mem_nil, or_false, not_or] at h
    exact stopsBlank_cons (by simp [isSpace, h]) cs
  comment d hd := by
    obtain rfl : c = d := by simpa using hd
    simp only [List.mem_cons, List.not_mem_nil, or_false, not_or] at h
    exact h.2.2.1
  newline := by
    simp only [List.mem_cons, List.not_mem_nil, or_false, not_or] at h
    unfold newline
    split
    · next heq => exact absurd (List.cons.inj heq).1 h.2.2.2.1
    · next heq => exact absurd (List.cons.inj heq).1 h.2.2.2.2
    · rfl

/-- A key starts with nothing that starts anything else. -/
theorem exists_head_of_isLegible (h : key.IsLegible) (cs : List Char) :
    ∃ c more, key.shown.toList ++ cs = c :: more ∧ c ∉ [' ', '\t', '#', '\n', '\r', '['] := by
  obtain ⟨c, hc, hhead⟩ := head_of_spells h.spells
  obtain ⟨more, hmore⟩ := List.head?_eq_some_iff.1 hc
  refine ⟨c, more ++ cs, by rw [hmore, List.cons_append], fun hmem => ?_⟩
  have hall : ∀ c ∈ [' ', '\t', '#', '\n', '\r', '['], c ≠ '"' ∧ c ≠ '\'' ∧ isBareKeyChar c = false :=
    List.all_iff_forall_prop.1 (by decide)
  obtain ⟨hdouble, hsingle, hbare⟩ := hall c hmem
  simp [hdouble, hsingle, hbare] at hhead

/-- The text in front of a line or header, without its carriage returns. -/
def Decor.IsLead (d : Decor) : Prop := ∀ text ∈ d.before, Toml.IsGap (withoutReturns text)

/-- The text behind the value of a line or behind a header. -/
def Decor.EndsLine (d : Decor) : Prop := ∀ text ∈ d.after, IsTail (withoutReturns text)

theorem Decor.IsLead.textBefore (h : d.IsLead) (hunset : Toml.IsGap (withoutReturns unset.before)) :
    Toml.IsGap (d.textBefore unset) := by
  rw [Decor.textBefore]
  cases hbefore : d.before with
  | none => exact hunset
  | some text => exact h text hbefore

theorem Decor.EndsLine.textAfter (h : d.EndsLine) (hunset : unset.after = "") :
    IsTail (d.textAfter unset) := by
  rw [Decor.textAfter]
  cases hafter : d.after with
  | none => rw [Option.getD_none, hunset]; exact isBlank_empty.isTail
  | some text => exact h text hafter

theorem endsValue_tail (h : IsTail text) (cs : List Char) : EndsValue (text.toList ++ '\n' :: cs) := by
  unfold IsTail at h
  generalize text.toList = tail at h ⊢
  -- what ends the blanks is the mark of a comment
  have hmark {c : Char} {more : List Char} (hspace : ¬ isSpace c = true)
      (h : dropComment ((c :: more).dropWhile isSpace) = []) : c = '#' := by
    rw [List.dropWhile_cons_of_neg hspace] at h
    by_contra hmark
    rw [dropComment_of_ne (by simpa using hmark)] at h
    simp at h
  cases tail with
  | nil => exact ⟨by decide, by simp⟩
  | cons c more =>
    by_cases hspace : isSpace c = true
    · refine ⟨by simp [isDelimiter, hspace], fun _ => ?_⟩
      rw [List.dropWhile_cons_of_pos hspace] at h
      cases more with
      | nil => simp [Text.isDigit]
      | cons d more =>
        have hd : isDelimiter d = true := by
          by_cases hspace : isSpace d = true
          · simp [isDelimiter, hspace]
          · rw [hmark hspace h]
            decide
        simpa using Numeral.isDigit_of_isDelimiter hd
    · rw [hmark hspace h]
      exact ⟨by decide, by simp⟩

/-! ### One line -/

/-- The pair can be read as a line. -/
structure Pair.ReadsAsLine (p : Pair) : Prop where
  keys : ∀ key ∈ p.first :: p.keys, key.IsLegible
  limit : p.keys.length + 1 < keyPartLimit
  lead : p.last.decor.IsLead
  behindKey : ∀ text ∈ p.last.decor.after, IsBlank text
  isDotted : p.value.isDotted = false
  beforeValue : ∀ text ∈ p.value.decor.before, IsBlank text
  tail : p.value.decor.EndsLine
  value : Toml.ReadsBack Reading.value p.value

/-- The line that the pair is read as. -/
def Pair.line (p : Pair) : Assignment := p.assignment true .key .value

theorem textBefore_blank (h : ∀ text ∈ d.before, IsBlank text) (hunset : IsBlank unset.before) :
    IsBlank (d.textBefore unset) := by
  have hd : (⟨d.before, none⟩ : Decor).IsBlank := ⟨h, by simp⟩
  have hunset : (⟨unset.before, ""⟩ : Surround).IsBlank := ⟨hunset, isBlank_empty⟩
  have htext := hd.textBefore hunset
  exact htext

theorem textAfter_blank (h : ∀ text ∈ d.after, IsBlank text) (hunset : IsBlank unset.after) :
    IsBlank (d.textAfter unset) := by
  have hd : (⟨none, d.after⟩ : Decor).IsBlank := ⟨by simp, h⟩
  have hunset : (⟨"", unset.after⟩ : Surround).IsBlank := ⟨isBlank_empty, hunset⟩
  have htext := hd.textAfter hunset
  exact htext

theorem assignment_line (hp : p.ReadsAsLine) (lead : String) (cs : List Char) :
    Reading.assignment lead (p.first.shown.toList ++ ((dottedTail .key p.first p.keys).toList ++
      '=' :: ((p.value.shown.text .value).toList ++ '\n' :: cs))) =
        some (⟨⟨passedFrom "" p.first p.keys, endedFrom lead "" .key p.first p.keys⟩,
        p.value.reread .value⟩, cs) := by
  have htext : (p.value.shown.text .value).toList ++ '\n' :: cs =
      (p.value.decor.textBefore .value).toList ++
        (p.value.shown.bare.toList ++ ((p.value.decor.textAfter .value).toList ++ '\n' :: cs)) := by
    simp [Shown.text, Value.decor_shown]
  have htail : IsTail (p.value.decor.textAfter .value) := hp.tail.textAfter rfl
  obtain ⟨d, more, hhead, hd⟩ := hp.value.head ((p.value.decor.textAfter .value).toList ++ '\n' :: cs)
  have hstops : StopsBlank (p.value.shown.bare.toList ++
      ((p.value.decor.textAfter .value).toList ++ '\n' :: cs)) := by
    rw [hhead]
    simp only [isDelimiter, Bool.or_eq_false_iff] at hd
    exact stopsBlank_cons hd.1 more
  have hread := hp.value ((p.value.decor.textAfter .value).toList ++ '\n' :: cs) (endsValue_tail htail cs)
  have hpath := keyPath_pathText "" .key hp.keys hp.limit isBlank_empty
    (textAfter_blank hp.behindKey isBlank_space)
    (stopsPath_cons (c := '=') (by decide) ((p.value.shown.text .value).toList ++ '\n' :: cs))
  rw [String.toList_empty, List.nil_append] at hpath
  have hlast : ({ (rereadPath "" .key p.first p.keys).last with
      decor := { (rereadPath "" .key p.first p.keys).last.decor with before := some lead } } : Key) =
        endedFrom lead "" .key p.first p.keys := by
    generalize p.first = first
    rw [rereadPath]
    dsimp only
    generalize hbefore : ("" : String) = before
    have hended (outer : String) :
      ∀ (first : Key) (before : String), ({ endedFrom outer before .key first p.keys with
        decor := { (endedFrom outer before .key first p.keys).decor with before := some lead } } : Key) =
          endedFrom lead before .key first p.keys := by
      induction p.keys with
      | nil => exact fun _ _ => rfl
      | cons key keys ih => exact fun _ _ => ih key key.between
    exact hended before first before
  rw [Reading.assignment, hpath]
  simp only [Option.bind_eq_bind, Option.bind_some, Text.literal, if_pos]
  rw [htext, spaces_append (textBefore_blank hp.beforeValue isBlank_space) hstops]
  simp only [hread, Option.bind_some]
  rw [lineTail_append htail]
  simp only [Option.bind_some, hlast]
  have hreread := withDecor_reread hp.isDotted .value
  rw [Decor.written] at hreread
  rw [hreread]
  rfl

theorem lines_line (hp : p.ReadsAsLine) (fuel : Nat) (cs : List Char) :
    lines (fuel + 1) (p.leaf.line.toList ++ cs) =
      (lines fuel cs).map fun below => { below with body := p.line :: below.body } := by
  have hlead : IsGap (p.last.decor.textBefore .key) := hp.lead.textBefore (by exact isBlank_empty.isGap)
  have htext : p.leaf.line.toList ++ cs = (p.last.decor.textBefore .key).toList ++
      (p.first.shown.toList ++ ((dottedTail .key p.first p.keys).toList ++
        '=' :: ((p.value.shown.text .value).toList ++ '\n' :: cs))) := by
    simp [Leaf.line, Pair.leaf, pathText, Pair.last]
  obtain ⟨c, more, hhead, hc⟩ := exists_head_of_isLegible (hp.keys p.first List.mem_cons_self)
    ((dottedTail .key p.first p.keys).toList ++ '=' :: ((p.value.shown.text .value).toList ++ '\n' :: cs))
  have hassign := assignment_line hp (p.last.decor.textBefore .key) cs
  have hstarts : StartsLine (c :: more) :=
    startsLine_cons (fun hmem => hc (List.mem_append_left ['['] hmem)) more
  rw [htext, lines]
  rw [hhead] at hassign ⊢
  rw [dropLeadFrom_append hlead (by simp) hstarts (Nat.lt_add_one _)]
  simp only [Option.bind_eq_bind, Option.bind_some, consumed_append, String.ofList_toList]
  split
  · next heq => simp at heq
  · next heq => exact absurd (by simp) ((List.cons.inj heq).1 ▸ hc)
  · rw [hassign, Option.bind_some]
    dsimp only
    cases lines fuel cs <;> rfl

/-! ### Headers -/

namespace Piece

def last (q : Piece) : Key := (q.first :: q.keys).getLast (List.cons_ne_nil q.first q.keys)

/-- The header and the lines below it can be read. -/
structure ReadsAsSection (q : Piece) : Prop where
  keys : ∀ key ∈ q.first :: q.keys, key.IsLegible
  limit : q.keys.length + 1 < keyPartLimit
  around : q.last.decor.IsBlank
  lead : q.table.decor.IsLead
  tail : q.table.decor.EndsLine
  pairs : ∀ p ∈ q.table.pairs, p.ReadsAsLine

/-- What is written around a header where nothing is set. -/
def surround (isFirst : Bool) : Surround := ⟨if isFirst then "" else "\n", ""⟩

/-- The section that the piece is read as. -/
def asSection (isFirst : Bool) (q : Piece) : Section :=
  ⟨q.isArray, rereadPath (q.last.decor.textBefore .headerPath) .headerPath q.first q.keys,
    q.table.decor.written (surround isFirst), q.table.pairs.map Pair.line⟩

def asSections (isFirst : Bool) : List Piece → List Section
  | [] => []
  | q :: qs => q.asSection isFirst :: asSections false qs

end Piece

theorem literal_append (c : Char) (cs : List Char) : Text.literal c (c :: cs) = some cs := if_pos rfl

/-- Behind one bracket the path of a single table is read. -/
theorem header_of_head (h : cs.head? ≠ some '[') (lead : String) :
    Reading.header lead ('[' :: cs) = (do
      let (path, cs) ← keyPath cs
      let cs ← Text.literal ']' cs
      let (after, cs) ← lineTail cs
      some (⟨false, path, ⟨some lead, some after⟩, []⟩, cs)) := by
  match cs with
  | [] => rfl
  | c :: more =>
    unfold Reading.header
    split
    · next heq =>
      obtain ⟨rfl, -⟩ := List.cons.inj (List.cons.inj heq).2
      exact absurd rfl h
    · next heq =>
      obtain ⟨-, rfl⟩ := List.cons.inj heq
      rfl
    · next hnone => exact absurd rfl (hnone _)

theorem toList_pathText (unset : Surround) (q : Piece) (cs : List Char) :
    (pathText unset (q.first :: q.keys)).toList ++ cs = (q.last.decor.textBefore unset).toList ++
      (q.first.shown.toList ++ ((dottedTail unset q.first q.keys).toList ++ cs)) := by
  simp [pathText, Piece.last]

namespace Piece.ReadsAsSection

variable (hq : q.ReadsAsSection)

include hq

theorem keyPath_pathText (cs : List Char) :
    keyPath ((pathText .headerPath (q.first :: q.keys)).toList ++ ']' :: cs) =
      some (rereadPath (q.last.decor.textBefore .headerPath) .headerPath q.first q.keys, ']' :: cs) := by
  obtain ⟨hfirst, hkeys⟩ := List.forall_mem_cons.1 hq.keys
  rw [toList_pathText]
  exact keyPath_append (hq.around.textBefore Surround.isBlank_headerPath) hfirst hkeys
    (hq.around.textAfter Surround.isBlank_headerPath) hq.limit (stopsPath_cons (by decide) cs)

theorem head_pathText (cs : List Char) :
    ((pathText .headerPath (q.first :: q.keys)).toList ++ cs).head? ≠ some '[' := by
  have hbefore : IsBlank (q.last.decor.textBefore .headerPath) :=
    hq.around.textBefore Surround.isBlank_headerPath
  rw [toList_pathText]
  cases hblank : (q.last.decor.textBefore .headerPath).toList with
  | nil =>
    obtain ⟨c, more, hhead, hc⟩ := exists_head_of_isLegible (hq.keys q.first List.mem_cons_self)
      ((dottedTail .headerPath q.first q.keys).toList ++ cs)
    rw [List.nil_append, hhead, List.head?_cons, Ne, Option.some.injEq]
    rintro rfl
    exact hc (by simp)
  | cons c more =>
    have hc : isSpace c := hbefore c (by rw [hblank]; exact List.mem_cons_self)
    rw [List.cons_append, List.head?_cons, Ne, Option.some.injEq]
    rintro rfl
    exact absurd hc (by decide)

/-- A header without the lines below it. -/
theorem header_append (lead : String) (isFirst : Bool) (cs : List Char) :
    Reading.header lead (q.opening.toList ++ ((pathText .headerPath (q.first :: q.keys)).toList ++
      (q.closing.toList ++ ((q.table.decor.textAfter (Piece.surround isFirst)).toList ++ '\n' :: cs)))) =
        some (⟨q.isArray, (q.asSection isFirst).path,
          ⟨some lead, some (q.table.decor.textAfter (Piece.surround isFirst))⟩, []⟩, cs) := by
  have htail : IsTail (q.table.decor.textAfter (Piece.surround isFirst)) := hq.tail.textAfter rfl
  cases harray : q.isArray with
  | true =>
    have hopening : q.opening.toList = ['[', '['] := by rw [Piece.opening, harray]; rfl
    have hclosing : q.closing.toList = [']', ']'] := by rw [Piece.closing, harray]; rfl
    simp only [hopening, hclosing, List.cons_append, List.nil_append]
    rw [Reading.header, hq.keyPath_pathText]
    simp only [Option.bind_eq_bind, Option.bind_some, literal_append, lineTail_append htail]
    rfl
  | false =>
    have hopening : q.opening.toList = ['['] := by rw [Piece.opening, harray]; rfl
    have hclosing : q.closing.toList = [']'] := by rw [Piece.closing, harray]; rfl
    simp only [hopening, hclosing, List.cons_append, List.nil_append]
    rw [header_of_head (hq.head_pathText _), hq.keyPath_pathText]
    simp only [Option.bind_eq_bind, Option.bind_some, literal_append, lineTail_append htail]
    rfl

end Piece.ReadsAsSection

/-! ### Texts -/

/-- The characters are read as the lines, given as many steps as there are characters. -/
def ReadsLines (cs : List Char) (read : Lines) : Prop := ∀ fuel, cs.length < fuel → lines fuel cs = some read

theorem ReadsLines.line {below : Lines} (hp : p.ReadsAsLine) (h : ReadsLines cs below) :
    ReadsLines (p.leaf.line.toList ++ cs) { below with body := p.line :: below.body } := by
  intro fuel hfuel
  have hline : 0 < p.leaf.line.toList.length := by
    simp only [Leaf.line, String.toList_append, List.length_append]
    exact Nat.lt_of_lt_of_le Nat.one_pos (Nat.le_add_left ..)
  rw [List.length_append] at hfuel
  obtain ⟨fuel, rfl⟩ := Nat.exists_eq_add_one.2 (Nat.zero_lt_of_lt hfuel)
  rw [lines_line hp, h fuel (by omega)]
  rfl

theorem ReadsLines.lines {ps : List Pair} {below : Lines} (hps : ∀ p ∈ ps, p.ReadsAsLine)
    (h : ReadsLines cs below) :
    ReadsLines ((Pair.lines ps).toList ++ cs) { below with body := ps.map Pair.line ++ below.body } := by
  induction ps with
  | nil => exact h
  | cons p ps ih =>
    obtain ⟨hp, hps⟩ := List.forall_mem_cons.1 hps
    have htext : (Pair.lines (p :: ps)).toList ++ cs =
        p.leaf.line.toList ++ ((Pair.lines ps).toList ++ cs) := by
      simp [Pair.lines, String.join_cons]
    rw [htext]
    exact (ih hps).line hp

/-- A header takes up the lines below it. -/
theorem ReadsLines.section {below : Lines} (hq : q.ReadsAsSection) (isFirst : Bool)
    (h : ReadsLines cs below) :
    ReadsLines ((q.text isFirst).toList ++ cs) ⟨[], { q.asSection isFirst with
      body := q.table.pairs.map Pair.line ++ below.body } :: below.sections, below.trailing⟩ := by
  intro fuel hfuel
  obtain ⟨fuel, rfl⟩ := Nat.exists_eq_add_one.2 (Nat.zero_lt_of_lt hfuel)
  have hlead : IsGap (q.table.decor.textBefore (Piece.surround isFirst)) := by
    refine hq.lead.textBefore ?_
    cases isFirst <;> rfl
  have hheader := hq.header_append (q.table.decor.textBefore (Piece.surround isFirst)) isFirst
    ((Pair.lines q.table.pairs).toList ++ cs)
  obtain ⟨more, hmore⟩ : ∃ more, q.opening.toList ++ ((pathText .headerPath (q.first :: q.keys)).toList ++
      (q.closing.toList ++ ((q.table.decor.textAfter (Piece.surround isFirst)).toList ++
        '\n' :: ((Pair.lines q.table.pairs).toList ++ cs)))) = '[' :: more := by
    rw [Piece.opening]
    cases q.isArray <;> exact ⟨_, rfl⟩
  have htext : (q.text isFirst).toList ++ cs =
      (q.table.decor.textBefore (Piece.surround isFirst)).toList ++ (q.opening.toList ++
        ((pathText .headerPath (q.first :: q.keys)).toList ++ (q.closing.toList ++
          ((q.table.decor.textAfter (Piece.surround isFirst)).toList ++
            '\n' :: ((Pair.lines q.table.pairs).toList ++ cs))))) := by
    simp [Piece.text, Block.headerText, Piece.surround]
  have hbelow := (h.lines hq.pairs) fuel (by rw [htext] at hfuel; simp at hfuel ⊢; omega)
  have hstarts : StartsLine ('[' :: more) := startsLine_cons (by decide) more
  rw [hmore] at hheader htext
  rw [htext, Reading.lines, dropLeadFrom_append hlead (by simp) hstarts (Nat.lt_add_one _)]
  simp only [Option.bind_eq_bind, Option.bind_some, consumed_append, String.ofList_toList, hheader, hbelow]
  rfl

theorem readsLines_trailing (h : IsTrailing text) : ReadsLines text.toList ⟨[], [], text⟩ := by
  intro fuel hfuel
  obtain ⟨fuel, rfl⟩ := Nat.exists_eq_add_one.2 (Nat.zero_lt_of_lt hfuel)
  obtain ⟨after, hafter⟩ := Option.isSome_iff_exists.1 h
  have hdrop : Reading.dropLeadFrom (text.toList.length + 1) (text.toList ++ []) = some [] :=
    dropLeadFrom_append hafter (fun _ => rfl) ⟨nofun, nofun, rfl⟩ (by simp)
  rw [List.append_nil] at hdrop
  have hconsumed := consumed_append text.toList []
  rw [List.append_nil, String.ofList_toList] at hconsumed
  rw [Reading.lines, hdrop]
  simp only [Option.bind_eq_bind, Option.bind_some, hconsumed]

theorem readsLines_textAll {qs : List Piece} (hqs : ∀ q ∈ qs, q.ReadsAsSection) (h : IsTrailing text)
    (isFirst : Bool) :
    ReadsLines ((Piece.textAll isFirst qs).toList ++ text.toList)
    ⟨[], Piece.asSections isFirst qs, text⟩ := by
  induction qs generalizing isFirst with
  | nil => exact readsLines_trailing h
  | cons q qs ih =>
    obtain ⟨hq, hqs⟩ := List.forall_mem_cons.1 hqs
    have hread := (ih hqs false).section hq isFirst
    rw [List.append_nil] at hread
    rwa [Piece.textAll, String.toList_append, List.append_assoc]

/-- No line starts with a byte order mark. -/
theorem lines_byteOrderMark (fuel : Nat) (cs : List Char) : lines fuel ('\uFEFF' :: cs) = none := by
  cases fuel with
  | zero => rfl
  | succ fuel =>
    have hpart : keyPart ('\uFEFF' :: cs) = none := by
      rw [keyPart_eq, List.takeWhile_cons_of_neg (by decide)]
      rfl
    have hpath : keyPath ('\uFEFF' :: cs) = none := by
      rw [keyPath, List.length_cons, keyPartsFrom]
      dsimp only
      rw [spaces, List.dropWhile_cons_of_neg (by decide), hpart]
      rfl
    have hassign (lead : String) : Reading.assignment lead ('\uFEFF' :: cs) = none := by
      rw [Reading.assignment, hpath]
      rfl
    rw [Reading.lines, dropLeadFrom_line _ (startsLine_cons (by decide) cs)]
    simp [hassign]

namespace Document

variable {doc : Document}

/-- Every line and every header of the printed text can be read. -/
structure ReadsByLine (doc : Document) : Prop where
  root : doc.HasPlainRoot
  body : ∀ p ∈ doc.root.pairs, p.ReadsAsLine
  sections : ∀ q ∈ doc.printed, q.ReadsAsSection
  trailing : IsTrailing (withoutReturns doc.trailing)

/-- The sections of the printed text. -/
def sections (doc : Document) : List Section := Piece.asSections doc.root.pairs.isEmpty doc.printed

/-- What is printed is read line by line; that the lines fit together is another matter. -/
theorem ReadsByLine.read? (h : doc.ReadsByLine) : Document.read? doc.print =
    assemble? (doc.root.pairs.map Pair.line) doc.sections (withoutReturns doc.trailing) := by
  have hlines : ReadsLines doc.print.toList
      ⟨doc.root.pairs.map Pair.line, doc.sections, withoutReturns doc.trailing⟩ := by
    have hread := (readsLines_textAll h.sections h.trailing doc.root.pairs.isEmpty).lines h.body
    rw [List.append_nil] at hread
    rw [print_eq h.root, String.toList_append, String.toList_append, List.append_assoc]
    exact hread
  have hmark : Reading.withoutByteOrderMark doc.print.toList = doc.print.toList := by
    unfold Reading.withoutByteOrderMark
    split
    · next cs heq =>
      have hread := hlines _ (Nat.lt_add_one _)
      rw [heq, lines_byteOrderMark] at hread
      exact absurd hread nofun
    · rfl
  rw [Document.read?, hmark, hlines _ (Nat.lt_add_one _)]
  rfl

end Document

end FeatureForwarding.Toml
