import FeatureForwarding.Proofs.Toml.Blanks

/-! Quoted texts. A text that was read, in any of the four forms, is read again whatever follows it, as
long as no quote does; and so is the text that is written for a content that has none yet. -/

namespace FeatureForwarding.Toml

namespace Lexeme

open Text (push)

variable {text front rest rest' cs : List Char} {c x mark : Char} {n skip : Nat}

/-! ### Escapes -/

theorem escape?_cons (hu : c ≠ 'u') (hU : c ≠ 'U') (cs cs' : List Char) :
    escape? (c :: cs) = escape? (c :: cs') := by
  unfold escape?
  split <;> simp_all

theorem codePoint?_append (h : n ≤ front.length) (rest : List Char) :
    codePoint? n (front ++ rest) = codePoint? n front := by
  rw [codePoint?, codePoint?, Text.hexNumber?, Text.hexNumber?, List.take_append_of_le_length h]

theorem escape?_append (h : escape? (front ++ rest) = some (x, n)) (hn : n ≤ front.length)
    (rest' : List Char) : escape? (front ++ rest') = some (x, n) := by
  cases front with
  | nil =>
    obtain rfl : n = 0 := by simpa using hn
    rw [List.nil_append] at h
    unfold escape? at h
    split at h <;> simp at h
  | cons c front =>
    by_cases hu : c = 'u'
    · subst hu
      have hlength : n = 5 := by
        obtain ⟨y, -, hy⟩ := Option.map_eq_some_iff.1 h
        exact (Prod.mk.inj hy).2.symm
      rw [hlength, List.length_cons] at hn
      rw [← h, List.cons_append, List.cons_append, escape?, escape?, codePoint?_append (by omega),
        codePoint?_append (by omega)]
    by_cases hU : c = 'U'
    · subst hU
      have hlength : n = 9 := by
        obtain ⟨y, -, hy⟩ := Option.map_eq_some_iff.1 h
        exact (Prod.mk.inj hy).2.symm
      rw [hlength, List.length_cons] at hn
      rw [← h, List.cons_append, List.cons_append, escape?, escape?, codePoint?_append (by omega),
        codePoint?_append (by omega)]
    · exact (escape?_cons hu hU ..).trans h

theorem quotedLineFrom_escape (h : escape? cs = some (x, n)) :
    quotedLineFrom 0 ('\\' :: cs) = (quotedLineFrom n cs).map (push x) := by
  rw [quotedLineFrom, if_neg (by decide), if_pos rfl, h]
  rfl

/-- What was read as the rest of a quoted line reads the same in front of anything. -/
theorem exists_of_quotedLineFrom (h : quotedLineFrom skip cs = some (text, rest)) :
    ∃ front, cs = front ++ rest ∧ skip < front.length ∧
      ∀ rest', quotedLineFrom skip (front ++ rest') = some (text, rest') := by
  fun_induction quotedLineFrom skip cs generalizing text with
  | case1 => simp at h
  | case2 c cs skip ih =>
    obtain ⟨front, rfl, hskip, hread⟩ := ih h
    exact ⟨c :: front, rfl, by simpa using hskip, fun rest' => hread rest'⟩
  | case3 cs =>
    obtain ⟨rfl, rfl⟩ := Prod.mk.inj (Option.some.inj h)
    exact ⟨['"'], rfl, by simp, fun rest' => rfl⟩
  | case4 cs hquote ih =>
    obtain ⟨⟨x, n⟩, hescape, h⟩ := Option.bind_eq_some_iff.1 h
    obtain ⟨⟨text, _⟩, hread, h⟩ := Option.map_eq_some_iff.1 h
    obtain ⟨rfl, rfl⟩ := Prod.mk.inj h
    obtain ⟨front, rfl, hn, hfront⟩ := ih n hread
    refine ⟨'\\' :: front, rfl, by simp, fun rest' => ?_⟩
    rw [List.cons_append, quotedLineFrom_escape (escape?_append hescape (Nat.le_of_lt hn) rest'), hfront]
    rfl
  | case5 c cs hquote hslash hprint ih =>
    obtain ⟨⟨text, _⟩, hread, h⟩ := Option.map_eq_some_iff.1 h
    obtain ⟨rfl, rfl⟩ := Prod.mk.inj h
    obtain ⟨front, rfl, -, hfront⟩ := ih hread
    refine ⟨c :: front, rfl, by simp, fun rest' => ?_⟩
    rw [List.cons_append, quotedLineFrom, if_neg hquote, if_neg hslash, if_pos hprint, hfront]
    rfl
  | case6 => simp at h

theorem exists_of_literalLineFrom (h : literalLineFrom cs = some (text, rest)) :
    ∃ front, cs = front ++ rest ∧ 0 < front.length ∧
    ∀ rest', literalLineFrom (front ++ rest') = some (text, rest') := by
  fun_induction literalLineFrom cs generalizing text with
  | case1 => simp at h
  | case2 cs =>
    obtain ⟨rfl, rfl⟩ := Prod.mk.inj (Option.some.inj h)
    exact ⟨['\''], rfl, by simp, fun rest' => rfl⟩
  | case3 c cs hquote hprint ih =>
    obtain ⟨⟨text, _⟩, hread, h⟩ := Option.map_eq_some_iff.1 h
    obtain ⟨rfl, rfl⟩ := Prod.mk.inj h
    obtain ⟨front, rfl, -, hfront⟩ := ih hread
    refine ⟨c :: front, rfl, by simp, fun rest' => ?_⟩
    rw [List.cons_append, literalLineFrom, if_neg hquote, if_pos hprint, hfront]
    rfl
  | case4 => simp at h

/-- A text starts with a run of the mark, which may be empty. -/
theorem exists_run (mark : Char) (cs : List Char) :
    ∃ run rest, cs = List.replicate run mark ++ rest ∧ rest.head? ≠ some mark := by
  induction cs with
  | nil => exact ⟨0, [], rfl, by simp⟩
  | cons c cs ih =>
    by_cases hc : c = mark
    · obtain ⟨run, rest, rfl, hrest⟩ := ih
      exact ⟨run + 1, rest, by rw [hc, List.replicate_succ, List.cons_append], hrest⟩
    · exact ⟨0, c :: cs, rfl, by simpa using hc⟩

theorem length_run (hrest : rest.head? ≠ some mark) :
    ((List.replicate n mark ++ rest).takeWhile (· == mark)).length = n := by
  have hnone : rest.takeWhile (· == mark) = [] := by
    cases rest with
    | nil => rfl
    | cons c rest => exact List.takeWhile_cons_of_neg (by simpa using hrest)
  rw [List.takeWhile_append_of_pos (by simp), hnone, List.append_nil, List.length_replicate]

theorem closing?_replicate (h : n ≤ 2) (hrest : rest.head? ≠ some mark) :
    closing? mark (List.replicate (n + 3) mark ++ rest) = some (List.replicate n mark, rest) := by
  rw [closing?, length_run hrest, if_neg (by omega), Nat.add_sub_cancel, Nat.min_eq_left h]
  simp

theorem exists_of_closing? (h : closing? mark cs = some (text, rest)) :
    ∃ n ≤ 2, cs = List.replicate (n + 3) mark ++ rest ∧ text = List.replicate n mark := by
  obtain ⟨run, others, rfl, hothers⟩ := exists_run mark cs
  rw [closing?, length_run hothers] at h
  dsimp only at h
  split at h
  · simp at h
  · next hrun =>
    obtain ⟨rfl, rfl⟩ := Prod.mk.inj (Option.some.inj h)
    refine ⟨_, Nat.min_le_right .., ?_, rfl⟩
    obtain ⟨more, hmore⟩ := Nat.exists_eq_add_of_le (show min (run - 3) 2 + 3 ≤ run by omega)
    generalize min (run - 3) 2 + 3 = used at hmore ⊢
    rw [hmore, ← List.replicate_append_replicate, List.append_assoc, List.drop_left' (by simp)]

theorem closing?_eq_none : closing? mark cs = none ↔ (cs.takeWhile (· == mark)).length < 3 := by
  simp [closing?]

theorem closing?_append (h : closing? mark (front ++ rest) = none) (hfront : 3 ≤ front.length)
    (rest' : List Char) : closing? mark (front ++ rest') = none := by
  rw [closing?_eq_none, List.takeWhile_append] at h ⊢
  split at h
  · rw [List.length_append] at h
    omega
  · next hshort => rwa [if_neg hshort]


/-! ### Line continuations -/

/-- What follows is no blank line. -/
def StopsBlankLines (cs : List Char) : Prop := continuation?.dropBlankLines cs = cs

theorem length_dropBlankLines_le (cs : List Char) : (continuation?.dropBlankLines cs).length ≤ cs.length := by
  fun_induction continuation?.dropBlankLines cs <;> simp only [List.length_cons, List.length_nil] <;> omega

theorem stopsBlankLines_cons : StopsBlankLines (c :: cs) ↔
    ¬ (isSpace c || c == '\n' || (c == '\r' && cs.head? == some '\n')) = true := by
  rw [StopsBlankLines, continuation?.dropBlankLines]
  split
  · next hblank =>
    refine iff_of_false (fun heq => ?_) (not_not.2 hblank)
    have hle := length_dropBlankLines_le cs
    rw [heq, List.length_cons] at hle
    omega
  · next hblank => exact iff_of_true rfl hblank

theorem exists_of_dropBlankLines (cs : List Char) :
    StopsBlankLines (continuation?.dropBlankLines cs) ∧
    ∃ front, cs = front ++ continuation?.dropBlankLines cs ∧
      ∀ rest', StopsBlankLines rest' → continuation?.dropBlankLines (front ++ rest') = rest' := by
  fun_induction continuation?.dropBlankLines cs with
  | case1 => exact ⟨rfl, [], rfl, fun rest' => id⟩
  | case2 c cs hblank ih =>
    obtain ⟨hstops, front, hcs, hfront⟩ := ih
    refine ⟨hstops, c :: front, by rw [List.cons_append, ← hcs], fun rest' hrest' => ?_⟩
    rw [List.cons_append, continuation?.dropBlankLines, if_pos, hfront rest' hrest']
    cases front with
    | nil =>
      -- a line feed behind a carriage return would have been dropped as well
      have hfeed : cs.head? ≠ some '\n' := fun hhead => by
        obtain ⟨next, rfl⟩ := List.head?_eq_some_iff.1 hhead
        rw [← hcs.trans (List.nil_append _), stopsBlankLines_cons] at hstops
        exact hstops (by simp)
      simp only [beq_false_of_ne hfeed, Bool.and_false, Bool.or_false] at hblank
      simp [hblank]
    | cons d front => rwa [hcs] at hblank
  | case3 c cs hblank => exact ⟨stopsBlankLines_cons.2 hblank, [], rfl, fun rest' => id⟩

theorem StopsBlankLines.append (h : StopsBlankLines (front ++ rest)) (hfront : 2 ≤ front.length)
    (rest' : List Char) : StopsBlankLines (front ++ rest') := by
  match front, hfront with
  | c :: d :: front, _ =>
    rw [List.cons_append, stopsBlankLines_cons] at h ⊢
    exact h

/-- A continuation goes up to the next text. -/
theorem continuation?_append (h : continuation? (front ++ rest) = some n) (hn : n + 2 ≤ front.length)
    (rest' : List Char) : continuation? (front ++ rest') = some n := by
  obtain ⟨cs, hcs, hlength⟩ := Option.map_eq_some_iff.1 h
  obtain ⟨blank, more, hblank, hspaces, hmore⟩ := exists_blank (front ++ rest)
  rw [hblank, List.dropWhile_append_of_pos hspaces, dropWhile_isSpace hmore] at hcs
  obtain ⟨mark, hmark, rfl⟩ := exists_of_newline hcs
  obtain ⟨hstops, lines, hlines, hdrop⟩ := exists_of_dropBlankLines cs
  have hsplit : front ++ rest = (blank ++ mark ++ lines) ++ continuation?.dropBlankLines cs := by
    rw [hblank, List.append_assoc, List.append_assoc, ← hlines]
  have hused : (blank ++ mark ++ lines).length = n := by
    rw [hsplit, List.length_append] at hlength
    omega
  have hfront : front = blank ++ mark ++ lines ++ front.drop n := by
    have htake := congrArg (List.take n) hsplit
    rw [List.take_append_of_le_length (by omega), List.take_left' hused] at htake
    rw [← htake, List.take_append_drop]
  have hrest : front.drop n ++ rest = continuation?.dropBlankLines cs := by
    rw [hfront, List.append_assoc] at hsplit
    exact List.append_cancel_left hsplit
  have hstops' : StopsBlankLines (front.drop n ++ rest') :=
    StopsBlankLines.append (hrest ▸ hstops) (by rw [List.length_drop]; omega) rest'
  rw [hfront, continuation?]
  simp only [List.append_assoc]
  rw [List.dropWhile_append_of_pos hspaces, dropWhile_isSpace, newline_append hmark, Option.map_some,
    hdrop _ hstops']
  · simp only [← hused, List.length_append]
    congr 1
    omega
  · rcases hmark with rfl | rfl <;> exact stopsBlank_cons (by decide) _

theorem continuation?_of_escape (h : escape? cs = some (x, n)) : continuation? cs = none := by
  unfold escape? at h
  split at h
  all_goals first | rfl | simp at h

/-! ### Blocks -/

theorem quotedBlockFrom_escape (hcontinued : continuation? cs = none) (h : escape? cs = some (x, n)) :
    quotedBlockFrom 0 ('\\' :: cs) = (quotedBlockFrom n cs).map (push x) := by
  rw [quotedBlockFrom, if_neg (by decide), if_pos rfl, hcontinued, h]
  rfl

/-- What was read as the rest of a quoted block reads the same in front of anything but a quote. -/
theorem exists_of_quotedBlockFrom (h : quotedBlockFrom skip cs = some (text, rest)) :
    ∃ front, cs = front ++ rest ∧ skip + 3 ≤ front.length ∧
      ∀ rest', rest'.head? ≠ some '"' → quotedBlockFrom skip (front ++ rest') = some (text, rest') := by
  fun_induction quotedBlockFrom skip cs generalizing text with
  | case1 => simp at h
  | case2 c cs skip ih =>
    obtain ⟨front, rfl, hskip, hread⟩ := ih h
    exact ⟨c :: front, rfl, by simp; omega, fun rest' => hread rest'⟩
  | case3 cs close hclose =>
    obtain ⟨n, hn, hcs, htext⟩ := exists_of_closing? (hclose.trans h)
    refine ⟨List.replicate (n + 3) '"', hcs, by simp, fun rest' hrest' => ?_⟩
    have hclosing := closing?_replicate hn hrest'
    rw [List.replicate_succ, List.cons_append] at hclosing ⊢
    rw [quotedBlockFrom, if_pos rfl, hclosing, htext]
  | case4 cs hclose ih =>
    obtain ⟨⟨text, _⟩, hread, h⟩ := Option.map_eq_some_iff.1 h
    obtain ⟨rfl, rfl⟩ := Prod.mk.inj h
    obtain ⟨front, rfl, hlength, hfront⟩ := ih hread
    refine ⟨'"' :: front, rfl, by simp; omega, fun rest' hrest' => ?_⟩
    rw [List.cons_append, quotedBlockFrom, if_pos rfl, ← List.cons_append,
      closing?_append hclose (by simp; omega), hfront rest' hrest']
    rfl
  | case5 cs n hcontinued hquote ih =>
    obtain ⟨front, rfl, hlength, hfront⟩ := ih h
    refine ⟨'\\' :: front, rfl, by simp; omega, fun rest' hrest' => ?_⟩
    rw [List.cons_append, quotedBlockFrom, if_neg hquote, if_pos rfl,
      continuation?_append hcontinued (by omega)]
    exact hfront rest' hrest'
  | case6 cs hquote hcontinued ih =>
    obtain ⟨⟨x, n⟩, hescape, h⟩ := Option.bind_eq_some_iff.1 h
    obtain ⟨⟨text, _⟩, hread, h⟩ := Option.map_eq_some_iff.1 h
    obtain ⟨rfl, rfl⟩ := Prod.mk.inj h
    obtain ⟨front, rfl, hlength, hfront⟩ := ih n hread
    refine ⟨'\\' :: front, rfl, by simp; omega, fun rest' hrest' => ?_⟩
    have hescape' := escape?_append hescape (by omega) rest'
    rw [List.cons_append, quotedBlockFrom_escape (continuation?_of_escape hescape') hescape',
      hfront rest' hrest']
    rfl
  | case7 c cs hquote hslash hreturn ih =>
    obtain ⟨front, rfl, hlength, hfront⟩ := ih h
    obtain ⟨d, front, rfl⟩ := List.exists_cons_of_length_pos (Nat.lt_of_lt_of_le (by decide) hlength)
    refine ⟨c :: d :: front, rfl, by simp at hlength ⊢; omega, fun rest' hrest' => ?_⟩
    rw [List.cons_append, List.head?_cons] at hreturn
    rw [List.cons_append, List.cons_append, quotedBlockFrom, List.head?_cons, if_neg hquote, if_neg hslash,
      if_pos hreturn]
    exact hfront rest' hrest'
  | case8 c cs hquote hslash hreturn hprint ih =>
    obtain ⟨⟨text, _⟩, hread, h⟩ := Option.map_eq_some_iff.1 h
    obtain ⟨rfl, rfl⟩ := Prod.mk.inj h
    obtain ⟨front, rfl, hlength, hfront⟩ := ih hread
    obtain ⟨d, front, rfl⟩ := List.exists_cons_of_length_pos (Nat.lt_of_lt_of_le (by decide) hlength)
    refine ⟨c :: d :: front, rfl, by simp at hlength ⊢; omega, fun rest' hrest' => ?_⟩
    rw [List.cons_append, List.head?_cons] at hreturn
    rw [List.cons_append, List.cons_append, quotedBlockFrom, List.head?_cons, if_neg hquote, if_neg hslash,
      if_neg hreturn, if_pos hprint]
    exact congrArg (Option.map (push c)) (hfront rest' hrest')
  | case9 => simp at h

theorem exists_of_literalBlockFrom (h : literalBlockFrom cs = some (text, rest)) :
    ∃ front, cs = front ++ rest ∧ 3 ≤ front.length ∧
      ∀ rest', rest'.head? ≠ some '\'' → literalBlockFrom (front ++ rest') = some (text, rest') := by
  fun_induction literalBlockFrom cs generalizing text with
  | case1 => simp at h
  | case2 cs close hclose =>
    obtain ⟨n, hn, hcs, htext⟩ := exists_of_closing? (hclose.trans h)
    refine ⟨List.replicate (n + 3) '\'', hcs, by simp, fun rest' hrest' => ?_⟩
    have hclosing := closing?_replicate hn hrest'
    rw [List.replicate_succ, List.cons_append] at hclosing ⊢
    rw [literalBlockFrom, if_pos rfl, hclosing, htext]
  | case3 cs hclose ih =>
    obtain ⟨⟨text, _⟩, hread, h⟩ := Option.map_eq_some_iff.1 h
    obtain ⟨rfl, rfl⟩ := Prod.mk.inj h
    obtain ⟨front, rfl, hlength, hfront⟩ := ih hread
    refine ⟨'\'' :: front, rfl, by simp; omega, fun rest' hrest' => ?_⟩
    rw [List.cons_append, literalBlockFrom, if_pos rfl, ← List.cons_append,
      closing?_append hclose (by simp; omega), hfront rest' hrest']
    rfl
  | case4 c cs hquote hreturn ih =>
    obtain ⟨front, rfl, hlength, hfront⟩ := ih h
    obtain ⟨d, front, rfl⟩ := List.exists_cons_of_length_pos (Nat.lt_of_lt_of_le (by decide) hlength)
    refine ⟨c :: d :: front, rfl, by simp at hlength ⊢; omega, fun rest' hrest' => ?_⟩
    rw [List.cons_append, List.head?_cons] at hreturn
    rw [List.cons_append, List.cons_append, literalBlockFrom, List.head?_cons, if_neg hquote, if_pos hreturn]
    exact hfront rest' hrest'
  | case5 c cs hquote hreturn hprint ih =>
    obtain ⟨⟨text, _⟩, hread, h⟩ := Option.map_eq_some_iff.1 h
    obtain ⟨rfl, rfl⟩ := Prod.mk.inj h
    obtain ⟨front, rfl, hlength, hfront⟩ := ih hread
    obtain ⟨d, front, rfl⟩ := List.exists_cons_of_length_pos (Nat.lt_of_lt_of_le (by decide) hlength)
    refine ⟨c :: d :: front, rfl, by simp at hlength ⊢; omega, fun rest' hrest' => ?_⟩
    rw [List.cons_append, List.head?_cons] at hreturn
    rw [List.cons_append, List.cons_append, literalBlockFrom, List.head?_cons, if_neg hquote, if_neg hreturn,
      if_pos hprint]
    exact congrArg (Option.map (push c)) (hfront rest' hrest')
  | case6 => simp at h

/-! ### The four forms -/

theorem newline_cons_cons (d : Char) (cs cs' : List Char) (h : newline (c :: d :: cs) = none) :
    newline (c :: d :: cs') = none := by
  unfold newline at h ⊢
  split at h <;> simp_all

theorem dropFirstNewline_append (h : dropFirstNewline cs = front ++ rest) (hfront : 2 ≤ front.length) :
    ∃ front', cs = front' ++ rest ∧ ∀ rest', dropFirstNewline (front' ++ rest') = front ++ rest' := by
  unfold dropFirstNewline at h ⊢
  cases hnext : newline cs with
  | none =>
    rw [hnext, Option.getD_none] at h
    refine ⟨front, h, fun rest' => ?_⟩
    match front, hfront with
    | c :: d :: front, _ =>
      rw [h] at hnext
      rw [List.cons_append, List.cons_append, newline_cons_cons d _ _ hnext]
      rfl
  | some next =>
    obtain ⟨mark, hmark, rfl⟩ := exists_of_newline hnext
    rw [hnext, Option.getD_some] at h
    refine ⟨mark ++ front, by rw [h, List.append_assoc], fun rest' => ?_⟩
    rw [List.append_assoc, newline_append hmark, Option.getD_some]

/-- No quote follows that could belong to the text in front of it. -/
def StopsText (cs : List Char) : Prop := cs.head? ≠ some '"' ∧ cs.head? ≠ some '\''

theorem text_eq_lineText (h : ∀ more, cs ≠ '"' :: '"' :: '"' :: more)
    (h' : ∀ more, cs ≠ '\'' :: '\'' :: '\'' :: more) : Lexeme.text cs = lineText cs := by
  unfold Lexeme.text
  split
  · exact absurd rfl (h _)
  · exact absurd rfl (h' _)
  · rfl

/-- A line that was read up to its closing quote has no second quote right behind the opening one. -/
theorem ne_triple {read : Text.Reader (List Char)} (hclose : ∀ cs, read (mark :: cs) = some ([], cs))
    (hread : ∀ rest', read (front ++ rest') = some (text, rest')) (hfront : 0 < front.length)
    (hrest : rest.head? ≠ some mark) (more : List Char) :
    mark :: (front ++ rest) ≠ mark :: mark :: mark :: more := by
  intro heq
  obtain ⟨c, front, rfl⟩ := List.exists_cons_of_length_pos hfront
  obtain ⟨rfl, htail⟩ := List.cons.inj (List.cons.inj heq).2
  obtain rfl : front = [] := by
    have hnil : text = [] ∧ front = [] := by simpa using (hclose _).symm.trans (hread [])
    exact hnil.2
  change rest = _ at htail
  simp [htail] at hrest

theorem exists_of_lineText {content : String} (h : lineText cs = some (content, rest)) :
    ∃ front, cs = front ++ rest ∧ ∀ rest', lineText (front ++ rest') = some (content, rest') ∧
      (StopsText rest' → Lexeme.text (front ++ rest') = some (content, rest')) := by
  unfold lineText at h
  split at h
  · obtain ⟨⟨text, _⟩, hread, h⟩ := Option.map_eq_some_iff.1 h
    obtain ⟨rfl, rfl⟩ := Prod.mk.inj h
    obtain ⟨front, rfl, hlength, hfront⟩ := exists_of_quotedLineFrom hread
    refine ⟨'"' :: front, rfl, fun rest' => ?_⟩
    have hline : lineText ('"' :: (front ++ rest')) = some (String.ofList text, rest') := by
      rw [lineText, hfront]
      rfl
    refine ⟨hline, fun hrest' => (text_eq_lineText ?_ (by simp)).trans hline⟩
    exact ne_triple (fun cs => rfl) hfront hlength hrest'.1
  · obtain ⟨⟨text, _⟩, hread, h⟩ := Option.map_eq_some_iff.1 h
    obtain ⟨rfl, rfl⟩ := Prod.mk.inj h
    obtain ⟨front, rfl, hlength, hfront⟩ := exists_of_literalLineFrom hread
    refine ⟨'\'' :: front, rfl, fun rest' => ?_⟩
    have hline : lineText ('\'' :: (front ++ rest')) = some (String.ofList text, rest') := by
      rw [lineText, hfront]
      rfl
    refine ⟨hline, fun hrest' => (text_eq_lineText (by simp) ?_).trans hline⟩
    exact ne_triple (fun cs => rfl) hfront hlength hrest'.2
  · simp at h

/-- What was read as a text reads the same in front of anything but a quote. -/
theorem exists_of_text {content : String} (h : Lexeme.text cs = some (content, rest)) :
    ∃ front, cs = front ++ rest ∧
      ∀ rest', StopsText rest' → Lexeme.text (front ++ rest') = some (content, rest') := by
  unfold Lexeme.text at h
  split at h
  · obtain ⟨⟨text, _⟩, hread, h⟩ := Option.map_eq_some_iff.1 h
    obtain ⟨rfl, rfl⟩ := Prod.mk.inj h
    obtain ⟨front, hcs, hlength, hfront⟩ := exists_of_quotedBlockFrom hread
    obtain ⟨front', rfl, hdrop⟩ := dropFirstNewline_append hcs (by omega)
    refine ⟨'"' :: '"' :: '"' :: front', rfl, fun rest' hrest' => ?_⟩
    simp only [List.cons_append, Lexeme.text, hdrop, hfront rest' hrest'.1]
    rfl
  · obtain ⟨⟨text, _⟩, hread, h⟩ := Option.map_eq_some_iff.1 h
    obtain ⟨rfl, rfl⟩ := Prod.mk.inj h
    obtain ⟨front, hcs, hlength, hfront⟩ := exists_of_literalBlockFrom hread
    obtain ⟨front', rfl, hdrop⟩ := dropFirstNewline_append hcs (by omega)
    refine ⟨'\'' :: '\'' :: '\'' :: front', rfl, fun rest' hrest' => ?_⟩
    simp only [List.cons_append, Lexeme.text, hdrop, hfront rest' hrest'.2]
    rfl
  · obtain ⟨front, rfl, hfront⟩ := exists_of_lineText h
    exact ⟨front, rfl, fun rest' => (hfront rest').2⟩

end Lexeme

end FeatureForwarding.Toml
