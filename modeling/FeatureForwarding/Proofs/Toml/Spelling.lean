import FeatureForwarding.Proofs.Toml.Quotes
import FeatureForwarding.Toml.Spelling

/-! The text that is chosen for a content that has none yet reads back as that content. -/

namespace FeatureForwarding.Toml

namespace Spelling

open Lexeme
open Text (push hexDigit?)

variable {c : Char} {cs rest : List Char} {n : Nat}

/-! ### Escapes -/

theorem hexDigit?_upperHexDigit : ∀ n < 16, hexDigit? (upperHexDigit n) = some n := by decide

theorem isPrintable_of_not_isControl (h : isControl c = false) (hfeed : c ≠ '\n') :
    isPrintable c = true := by
  by_cases htab : c = '\t'
  · simp [isPrintable, htab]
  · have hcontrol : (0x20 ≤ c.toNat) ∧ c.toNat ≠ 0x7F := by
      simpa [isControl, htab, hfeed] using h
    simp [isPrintable, hcontrol]

theorem escape?_unicode (h : isControl c = true) (rest : List Char) :
    escape? ('u' :: upperHexDigit (c.toNat / 4096 % 16) :: upperHexDigit (c.toNat / 256 % 16) ::
      upperHexDigit (c.toNat / 16 % 16) :: upperHexDigit (c.toNat % 16) :: rest) = some (c, 5) := by
  have hsmall : c.toNat < 128 := by
    simp only [isControl, Bool.or_eq_true, Bool.and_eq_true, decide_eq_true_eq, beq_iff_eq] at h
    omega
  have hnumber : Text.hexNumber? 4
    (upperHexDigit (c.toNat / 4096 % 16) :: upperHexDigit (c.toNat / 256 % 16) ::
      upperHexDigit (c.toNat / 16 % 16) :: upperHexDigit (c.toNat % 16) :: rest) = some c.toNat := by
    have hvalue : 16 * (16 * (16 * (c.toNat / 4096 % 16) + c.toNat / 256 % 16) + c.toNat / 16 % 16) +
        c.toNat % 16 = c.toNat := by omega
    simp [Text.hexNumber?, Text.hexNumberFrom, hexDigit?_upperHexDigit _ (Nat.mod_lt _ (by decide)), hvalue]
  have hvalid : c.toNat.isValidChar := .inl (by omega)
  simp [escape?, codePoint?, hnumber, hvalid]

/-- The text of a character is the character itself or an escape that reads as it. -/
theorem escapeChar_cases (isBlock : Bool) (c : Char) :
    ((escapeChar isBlock c).toList = [c] ∧ c ≠ '\\' ∧ c ≠ '\r' ∧ (isPrintable c ∨ isBlock ∧ c = '\n')) ∨
      ∃ escape, (escapeChar isBlock c).toList = '\\' :: escape ∧
        ∀ rest, escape? (escape ++ rest) = some (c, escape.length) := by
  unfold escapeChar
  split
  · exact .inr ⟨['b'], rfl, fun _ => rfl⟩
  · exact .inr ⟨['t'], rfl, fun _ => rfl⟩
  · split
    · next hblock => exact .inl ⟨rfl, by decide, by decide, .inr ⟨hblock, rfl⟩⟩
    · exact .inr ⟨['n'], rfl, fun _ => rfl⟩
  · exact .inr ⟨['f'], rfl, fun _ => rfl⟩
  · exact .inr ⟨['r'], rfl, fun _ => rfl⟩
  · exact .inr ⟨['\\'], rfl, fun _ => rfl⟩
  · next hfeed _ hreturn hslash =>
    split
    · next hcontrol =>
      refine .inr ⟨['u', upperHexDigit (c.toNat / 4096 % 16), upperHexDigit (c.toNat / 256 % 16),
        upperHexDigit (c.toNat / 16 % 16), upperHexDigit (c.toNat % 16)], by simp [unicodeEscape],
        escape?_unicode hcontrol⟩
    · next hcontrol =>
      refine .inl ⟨by simp, hslash, hreturn, .inl ?_⟩
      exact isPrintable_of_not_isControl (by simpa using hcontrol) hfeed

/-! ### Lines -/

/-- The characters of an escape that was read are passed over. -/
theorem quotedLineFrom_skip (escape rest : List Char) :
    quotedLineFrom escape.length (escape ++ rest) = quotedLineFrom 0 rest := by
  induction escape with
  | nil => rfl
  | cons c escape ih => exact ih

theorem quotedLineFrom_escapeChar (h : c ≠ '"') (rest : List Char) :
    quotedLineFrom 0 ((escapeChar false c).toList ++ rest) = (quotedLineFrom 0 rest).map (push c) := by
  rcases escapeChar_cases false c with ⟨htext, hslash, -, hprint⟩ | ⟨escape, htext, hescape⟩
  · have hprint : isPrintable c := by simpa using hprint
    rw [htext, List.singleton_append, quotedLineFrom, if_neg h, if_neg hslash, if_pos hprint]
  · rw [htext, List.cons_append, quotedLineFrom_escape (hescape rest), quotedLineFrom_skip]

theorem quotedLineFrom_escaped (quotes : Nat) (cs rest : List Char) :
    quotedLineFrom 0 ((escapeFrom false quotes cs).toList ++ '"' :: rest) = some (cs, rest) := by
  fun_induction escapeFrom false quotes cs with
  | case1 => rfl
  | case2 quotes cs hbare => simp at hbare
  | case3 quotes cs hbare ih =>
    rw [String.toList_append, List.append_assoc]
    change (quotedLineFrom 0 ((escapeFrom false 0 cs).toList ++ '"' :: rest)).map (push '"') = _
    rw [ih]
    rfl
  | case4 quotes c cs hquote ih =>
    rw [String.toList_append, List.append_assoc, quotedLineFrom_escapeChar hquote, ih]
    rfl

theorem literalLineFrom_append (h : ∀ c ∈ cs, isPrintable c ∧ c ≠ '\'') (rest : List Char) :
    literalLineFrom (cs ++ '\'' :: rest) = some (cs, rest) := by
  induction cs with
  | nil => rfl
  | cons c cs ih =>
    obtain ⟨⟨hprint, hquote⟩, hcs⟩ := List.forall_mem_cons.1 h
    rw [List.cons_append, literalLineFrom, if_neg hquote, if_pos hprint, ih hcs]
    rfl

/-! ### Blocks -/

theorem quotedBlockFrom_skip (escape rest : List Char) :
    quotedBlockFrom escape.length (escape ++ rest) = quotedBlockFrom 0 rest := by
  induction escape with
  | nil => rfl
  | cons c escape ih => exact ih

/-- One or two quotes that do not close the block belong to its text. -/
theorem quotedBlockFrom_quotes (h : n ≤ 2) (hrest : rest.head? ≠ some '"') :
    quotedBlockFrom 0 (List.replicate n '"' ++ rest) =
      (quotedBlockFrom 0 rest).map fun read => (List.replicate n '"' ++ read.1, read.2) := by
  induction n with
  | zero => simp
  | succ n ih =>
    have hopen : closing? '"' ('"' :: (List.replicate n '"' ++ rest)) = none := by
      rw [closing?_eq_none, ← List.cons_append, ← List.replicate_succ, length_run hrest]
      omega
    rw [List.replicate_succ, List.cons_append, quotedBlockFrom, if_pos rfl, hopen]
    change (quotedBlockFrom 0 _).map _ = _
    rw [ih (by omega), Option.map_map]
    rfl

theorem quotedBlockFrom_escapeChar (h : c ≠ '"') (rest : List Char) :
    quotedBlockFrom 0 ((escapeChar true c).toList ++ rest) = (quotedBlockFrom 0 rest).map (push c) := by
  rcases escapeChar_cases true c with ⟨htext, hslash, hreturn, hprint⟩ | ⟨escape, htext, hescape⟩
  · have hprint : c = '\n' ∨ isPrintable c := by simpa [or_comm] using hprint
    rw [htext, List.singleton_append, quotedBlockFrom, if_neg h, if_neg hslash, if_neg (by simp [hreturn]),
      if_pos (by simpa using hprint)]
  · have hescape := hescape rest
    rw [htext, List.cons_append, quotedBlockFrom_escape (continuation?_of_escape hescape) hescape,
      quotedBlockFrom_skip]

theorem head?_escapeChar (h : c ≠ '"') (rest : List Char) :
    ((escapeChar true c).toList ++ rest).head? ≠ some '"' := by
  rcases escapeChar_cases true c with ⟨htext, -⟩ | ⟨escape, htext, -⟩
  · simpa [htext] using h
  · simp [htext]

/-- Up to two bare quotes stand in front of what is read next. -/
theorem quotedBlockFrom_escaped {quotes : Nat} (h : quotes ≤ 2) (cs : List Char)
    (hrest : rest.head? ≠ some '"') :
    quotedBlockFrom 0 (List.replicate quotes '"' ++ ((escapeFrom true quotes cs).toList ++
      '"' :: '"' :: '"' :: rest)) = some (List.replicate quotes '"' ++ cs, rest) := by
  fun_induction escapeFrom true quotes cs with
  | case1 quotes =>
    have hclose := closing?_replicate h hrest
    have hmarks : List.replicate quotes '"' ++ '"' :: '"' :: '"' :: rest =
        List.replicate (quotes + 3) '"' ++ rest := by
      rw [← List.replicate_append_replicate, List.append_assoc]
      rfl
    rw [String.toList_empty, List.nil_append, hmarks, List.append_nil]
    rw [List.replicate_succ, List.cons_append] at hclose ⊢
    rw [quotedBlockFrom, if_pos rfl, hclose]
  | case2 quotes cs hbare ih =>
    have hread := ih (by simp at hbare; omega)
    rw [List.replicate_succ', List.append_assoc, List.append_assoc] at hread
    rwa [String.toList_append, List.append_assoc]
  | case3 quotes cs hbare ih =>
    rw [String.toList_append, List.append_assoc, quotedBlockFrom_quotes h (by simp)]
    change ((quotedBlockFrom 0 (List.replicate 0 '"' ++ ((escapeFrom true 0 cs).toList ++ _))).map
      (push '"')).map _ = _
    rw [ih (by decide)]
    rfl
  | case4 quotes c cs hquote ih =>
    have hread := ih (by decide)
    rw [List.replicate_zero, List.nil_append, List.nil_append] at hread
    rw [String.toList_append, List.append_assoc, quotedBlockFrom_quotes h (head?_escapeChar hquote _),
      quotedBlockFrom_escapeChar hquote, hread]
    rfl

/-- One or two quotes that do not close the block belong to its text. -/
theorem literalBlockFrom_quotes (h : n ≤ 2) (hrest : rest.head? ≠ some '\'') :
    literalBlockFrom (List.replicate n '\'' ++ rest) =
      (literalBlockFrom rest).map fun read => (List.replicate n '\'' ++ read.1, read.2) := by
  induction n with
  | zero => simp
  | succ n ih =>
    have hopen : closing? '\'' ('\'' :: (List.replicate n '\'' ++ rest)) = none := by
      rw [closing?_eq_none, ← List.cons_append, ← List.replicate_succ, length_run hrest]
      omega
    rw [List.replicate_succ, List.cons_append, literalBlockFrom, if_pos rfl, hopen]
    change (literalBlockFrom _).map _ = _
    rw [ih (by omega), Option.map_map]
    rfl

theorem le_longestRunFrom (mark : Char) (best current : Nat) (cs : List Char) :
    best ≤ longestRunFrom mark best current cs ∧ current ≤ longestRunFrom mark best current cs := by
  fun_induction longestRunFrom mark best current cs <;> omega

/-- Up to two quotes stand in front of what is read next, and no run of them is longer. -/
theorem literalBlockFrom_append {best quotes : Nat} (h : longestRunFrom '\'' best quotes cs ≤ 2)
    (hcs : ∀ c ∈ cs, isControl c = false) (hrest : rest.head? ≠ some '\'') :
    literalBlockFrom (List.replicate quotes '\'' ++ (cs ++ '\'' :: '\'' :: '\'' :: rest)) =
      some (List.replicate quotes '\'' ++ cs, rest) := by
  fun_induction longestRunFrom '\'' best quotes cs with
  | case1 best quotes =>
    have hclose := closing?_replicate (by omega : quotes ≤ 2) hrest
    have hmarks : List.replicate quotes '\'' ++ '\'' :: '\'' :: '\'' :: rest =
        List.replicate (quotes + 3) '\'' ++ rest := by
      rw [← List.replicate_append_replicate, List.append_assoc]
      rfl
    rw [List.nil_append, hmarks, List.append_nil]
    rw [List.replicate_succ, List.cons_append] at hclose ⊢
    rw [literalBlockFrom, if_pos rfl, hclose]
  | case2 best quotes c cs hquote ih =>
    obtain rfl : c = '\'' := by simpa using hquote
    have hread := ih h (List.forall_mem_cons.1 hcs).2
    rwa [List.replicate_succ', List.append_assoc, List.append_assoc] at hread
  | case3 best quotes c cs hquote ih =>
    obtain ⟨hc, hcs⟩ := List.forall_mem_cons.1 hcs
    have hquote : c ≠ '\'' := by simpa using hquote
    have hread := ih h hcs
    rw [List.replicate_zero, List.nil_append, List.nil_append] at hread
    have hle := (le_longestRunFrom '\'' (max best quotes) 0 cs).1
    have hprint : c = '\n' ∨ isPrintable c := by
      by_cases hfeed : c = '\n'
      · exact .inl hfeed
      · exact .inr (isPrintable_of_not_isControl hc hfeed)
    have hreturn : c ≠ '\r' := by rintro rfl; simp [isControl] at hc
    rw [literalBlockFrom_quotes (by omega) (by simpa using hquote), List.cons_append, literalBlockFrom,
      if_neg hquote, if_neg (by simp [hreturn]), if_pos (by simpa using hprint), hread]
    rfl

/-! ### The form that is chosen -/

/-- A literal form is only taken where it shows the content as it is. -/
theorem choose_cases (cs : List Char) :
    (choose cs = .line ∨ choose cs = .block) ∨ fits cs (choose cs) = true := by
  unfold choose
  split
  · next form hform => exact .inr (List.find?_some hform)
  · split
    · exact .inl (.inr rfl)
    · exact .inl (.inl rfl)

theorem text_line (cs : List Char) (hrest : StopsText rest) :
    Lexeme.text ('"' :: ((body .line cs).toList ++ '"' :: rest)) = some (String.ofList cs, rest) := by
  have hread (rest' : List Char) :
      quotedLineFrom 0 ((body .line cs).toList ++ ['"'] ++ rest') = some (cs, rest') := by
    rw [List.append_assoc]
    exact quotedLineFrom_escaped 0 cs rest'
  have hline : lineText ('"' :: ((body .line cs).toList ++ ['"'] ++ rest)) =
      some (String.ofList cs, rest) := by
    rw [lineText, hread]
    rfl
  have htext := text_eq_lineText (ne_triple (fun _ => rfl) hread (by simp) hrest.1) (by simp)
  rw [hline, List.append_assoc] at htext
  exact htext

theorem text_literalLine (h : fits cs .literalLine = true) (hrest : StopsText rest) :
    Lexeme.text ('\'' :: (cs ++ '\'' :: rest)) = some (String.ofList cs, rest) := by
  have hprint : ∀ c ∈ cs, isPrintable c ∧ c ≠ '\'' := by
    simp only [fits, Bool.and_eq_true, Bool.not_eq_true', List.any_eq_false, List.contains_eq_mem,
      decide_eq_false_iff_not, Bool.not_eq_true] at h
    exact fun c hc => ⟨isPrintable_of_not_isControl (h.1.1 c hc) fun heq => h.2 (heq ▸ hc),
      fun heq => h.1.2 (heq ▸ hc)⟩
  have hread (rest' : List Char) : literalLineFrom (cs ++ ['\''] ++ rest') = some (cs, rest') := by
    rw [List.append_assoc]
    exact literalLineFrom_append hprint rest'
  have hline : lineText ('\'' :: (cs ++ ['\''] ++ rest)) = some (String.ofList cs, rest) := by
    rw [lineText, hread]
    rfl
  have htext := text_eq_lineText (by simp) (ne_triple (fun _ => rfl) hread (by simp) hrest.2)
  rw [hline, List.append_assoc] at htext
  exact htext

/-- What starts a block is taken off again, and the line feed behind it only where it was put. -/
theorem dropFirstNewline_opening (h : '\n' ∉ cs → ∀ c ∈ rest.head?, c ≠ '\n' ∧ c ≠ '\r') :
    dropFirstNewline ((if cs.contains '\n' then "\n" else "").toList ++ rest) = rest := by
  split
  · rfl
  · next hfeed =>
    have hhead := h (by simpa using hfeed)
    rw [String.toList_empty, List.nil_append, dropFirstNewline]
    cases rest with
    | nil => rfl
    | cons c rest =>
      obtain ⟨hfeed, hreturn⟩ := hhead c rfl
      have hnone : newline (c :: rest) = none := by
        unfold newline
        split <;> simp_all
      rw [hnone, Option.getD_none]

theorem head?_escapeFrom (h : '\n' ∉ cs) :
    ∀ c ∈ ((escapeFrom true 0 cs).toList ++ '"' :: rest).head?, c ≠ '\n' ∧ c ≠ '\r' := by
  unfold escapeFrom
  split
  · simp
  · next c cs =>
    split
    · simp
    · rcases escapeChar_cases true c with ⟨htext, -, hreturn, -⟩ | ⟨escape, htext, -⟩
      · have hfeed : c ≠ '\n' := fun heq => h (heq ▸ List.mem_cons_self)
        simpa [htext] using ⟨hfeed, hreturn⟩
      · simp [htext]

theorem text_block (cs : List Char) (hrest : StopsText rest) :
    Lexeme.text ((opening .block cs).toList ++ ((body .block cs).toList ++ '"' :: '"' :: '"' :: rest)) =
      some (String.ofList cs, rest) := by
  have hopening : (opening .block cs).toList =
      '"' :: '"' :: '"' :: (if cs.contains '\n' then "\n" else "").toList := by
    simp [opening, Quotation.delimiter]
  have hread : quotedBlockFrom 0 ((escapeFrom true 0 cs).toList ++ '"' :: '"' :: '"' :: rest) =
      some (cs, rest) :=
    quotedBlockFrom_escaped (Nat.zero_le 2) cs hrest.1
  rw [hopening]
  simp only [List.cons_append, Lexeme.text, body]
  rw [dropFirstNewline_opening head?_escapeFrom, hread]
  rfl

theorem text_literalBlock (h : fits cs .literalBlock = true) (hrest : StopsText rest) :
    Lexeme.text ((opening .literalBlock cs).toList ++ (cs ++ '\'' :: '\'' :: '\'' :: rest)) =
      some (String.ofList cs, rest) := by
  have hopening : (opening .literalBlock cs).toList =
      '\'' :: '\'' :: '\'' :: (if cs.contains '\n' then "\n" else "").toList := by
    simp [opening, Quotation.delimiter]
  simp only [fits, Bool.and_eq_true, Bool.not_eq_true', List.any_eq_false, decide_eq_true_eq,
    Bool.not_eq_true] at h
  have hread : literalBlockFrom (List.replicate 0 '\'' ++ (cs ++ '\'' :: '\'' :: '\'' :: rest)) =
      some (List.replicate 0 '\'' ++ cs, rest) :=
    literalBlockFrom_append h.2 h.1 hrest.2
  rw [List.replicate_zero, List.nil_append, List.nil_append] at hread
  rw [hopening]
  simp only [List.cons_append, Lexeme.text]
  rw [dropFirstNewline_opening, hread]
  · rfl
  · intro hfeed c hc
    cases cs with
    | nil => simp at hc; simp [← hc]
    | cons d cs =>
      obtain rfl : d = c := by simpa using hc
      refine ⟨fun heq => hfeed (heq ▸ List.mem_cons_self), ?_⟩
      rintro rfl
      simpa [isControl] using h.1 _ List.mem_cons_self

theorem text_text (content : String) (hrest : StopsText rest) :
    Lexeme.text ((Spelling.text content).toList ++ rest) = some (content, rest) := by
  have hfits := choose_cases content.toList
  unfold Spelling.text
  dsimp only
  generalize choose content.toList = form at *
  cases form with
  | line =>
    have hread := text_line content.toList hrest
    rw [String.ofList_toList] at hread
    simpa [opening, Quotation.delimiter] using hread
  | literalLine =>
    have hread := text_literalLine (by simpa using hfits) hrest
    rw [String.ofList_toList] at hread
    simpa [opening, body, Quotation.delimiter] using hread
  | block =>
    have hread := text_block content.toList hrest
    rw [String.ofList_toList] at hread
    simpa [Quotation.delimiter] using hread
  | literalBlock =>
    have hread := text_literalBlock (by simpa using hfits) hrest
    rw [String.ofList_toList] at hread
    simpa [body, Quotation.delimiter] using hread

end Spelling

end FeatureForwarding.Toml
