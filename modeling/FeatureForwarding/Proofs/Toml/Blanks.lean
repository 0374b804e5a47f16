import FeatureForwarding.Toml.Printer
import FeatureForwarding.Toml.Reader
import Mathlib.Data.List.TakeWhile

/-! The text around nodes: blanks, the rest of a line, and the blank and comment lines between nodes.
What was read as such is read as such again, whatever follows, also after its carriage returns
were dropped. -/

namespace FeatureForwarding.Toml

open Lexeme

variable {text : String} {front rest cs : List Char} {c : Char}

theorem consumed_append (front rest : List Char) :
    consumed (front ++ rest) rest = String.ofList front := by
  simp [consumed]

theorem withoutReturns_ofList (cs : List Char) :
    withoutReturns (String.ofList cs) = String.ofList (cs.filter (· != '\r')) := by
  simp [withoutReturns]

theorem withoutReturns_of_notMem (h : '\r' ∉ text.toList) : withoutReturns text = text := by
  have hfilter : text.toList.filter (· != '\r') = text.toList :=
    List.filter_eq_self.2 fun c hc => bne_iff_ne.2 fun heq => h (heq ▸ hc)
  rw [withoutReturns, hfilter, String.ofList_toList]

/-! ### Blanks -/

/-- Nothing but blanks and tabs. -/
def IsBlank (text : String) : Prop := ∀ c ∈ text.toList, isSpace c

/-- What follows is no blank, so that all blanks have been read. -/
def StopsBlank (cs : List Char) : Prop := ∀ c ∈ cs.head?, isSpace c = false

theorem isBlank_empty : IsBlank "" := by simp [IsBlank]

theorem isBlank_space : IsBlank " " := by simp [IsBlank, isSpace]

theorem IsBlank.withoutReturns (h : IsBlank text) : withoutReturns text = text :=
  withoutReturns_of_notMem fun hmem => absurd (h _ hmem) (by decide)

theorem stopsBlank_cons (h : isSpace c = false) (cs : List Char) : StopsBlank (c :: cs) := by
  simpa [StopsBlank] using h

theorem dropWhile_isSpace (h : StopsBlank rest) : rest.dropWhile isSpace = rest := by
  cases rest with
  | nil => rfl
  | cons c rest => exact List.dropWhile_cons_of_neg (by simp [h c rfl])

theorem dropWhile_blank (h : IsBlank text) (hrest : StopsBlank rest) :
    (text.toList ++ rest).dropWhile isSpace = rest := by
  rw [List.dropWhile_append_of_pos h, dropWhile_isSpace hrest]

theorem spaces_append (h : IsBlank text) (hrest : StopsBlank rest) :
    spaces (text.toList ++ rest) = (text, rest) := by
  have hnone : rest.takeWhile isSpace = [] := by
    cases rest with
    | nil => rfl
    | cons c rest => exact List.takeWhile_cons_of_neg (by simp [hrest c rfl])
  rw [spaces, dropWhile_blank h hrest, List.takeWhile_append_of_pos h, hnone, List.append_nil,
    String.ofList_toList]

theorem exists_blank (cs : List Char) :
    ∃ front rest, cs = front ++ rest ∧ (∀ c ∈ front, isSpace c) ∧ StopsBlank rest := by
  refine ⟨cs.takeWhile isSpace, cs.dropWhile isSpace, List.takeWhile_append_dropWhile.symm,
    fun c hc => List.mem_takeWhile_imp hc, fun c hc => ?_⟩
  have hhead := List.head?_dropWhile_not isSpace cs
  rwa [Option.mem_def.1 hc] at hhead

theorem exists_of_spaces (h : spaces cs = (text, rest)) :
    IsBlank text ∧ cs = text.toList ++ rest ∧ StopsBlank rest := by
  obtain ⟨front, next, rfl, hfront, hnext⟩ := exists_blank cs
  have hfront' : IsBlank (String.ofList front) := by simpa [IsBlank] using hfront
  have hspaces := spaces_append hfront' hnext
  rw [String.toList_ofList, h, Prod.mk.injEq] at hspaces
  obtain ⟨rfl, rfl⟩ := hspaces
  exact ⟨hfront', by rw [String.toList_ofList], hnext⟩

/-! ### Gaps -/

/-- Whether a comment is still open behind the text; nothing if it holds more than blanks, line
feeds and comments. -/
def gapState (inComment : Bool) : List Char → Option Bool
  | [] => some inComment
  | c :: cs =>
    if inComment && isPrintable c then gapState true cs
    else if isSpace c || c == '\n' then gapState false cs
    else if c == '#' then gapState true cs
    else none

/-- Blanks, line feeds and comments, each up to the end of its line. -/
def IsGap (text : String) : Prop := gapState false text.toList = some false

/-- The same at the end of a text, where a comment may be the last line. -/
def IsTrailing (text : String) : Prop := (gapState false text.toList).isSome

/-- What follows is no part of a gap. -/
def StopsGap (cs : List Char) : Prop := dropGapFrom false cs = cs

theorem isPrintable_of_isSpace (h : isSpace c) : isPrintable c := by
  simp only [isSpace, Bool.or_eq_true, beq_iff_eq] at h
  rcases h with rfl | rfl <;> decide

theorem gapState_append (inComment : Bool) (front rest : List Char) :
    gapState inComment (front ++ rest) = (gapState inComment front).bind (gapState · rest) := by
  induction front generalizing inComment with
  | nil => rfl
  | cons c front ih =>
    rw [List.cons_append, gapState, gapState]
    repeat' split
    all_goals simp [ih]

theorem gapState_blank (h : ∀ c ∈ front, isSpace c) : gapState false front = some false := by
  induction front with
  | nil => rfl
  | cons c front ih =>
    obtain ⟨hc, hfront⟩ := List.forall_mem_cons.1 h
    simp [gapState, hc, ih hfront]

theorem IsBlank.isGap (h : IsBlank text) : IsGap text := gapState_blank h

theorem dropGapFrom_append {inComment : Bool} (h : gapState inComment front = some false)
    (hrest : StopsGap rest) : dropGapFrom inComment (front ++ rest) = rest := by
  induction front generalizing inComment with
  | nil => rw [Option.some.inj h]; exact hrest
  | cons c front ih =>
    rw [gapState] at h
    rw [List.cons_append, dropGapFrom]
    split at h
    · next hin => rw [if_pos hin, ih h]
    split at h
    · next hin hblank => rw [if_neg hin, if_pos hblank, ih h]
    split at h
    · next hin hblank hmark =>
      have hreturn : ¬ (c == '\r' && (front ++ rest).head? == some '\n') = true := by
        simp only [Bool.and_eq_true, beq_iff_eq] at hmark ⊢
        rintro ⟨rfl, -⟩
        exact absurd hmark (by decide)
      rw [if_neg hin, if_neg hblank, if_neg hreturn, if_pos hmark, ih h]
    · simp at h

theorem gap_append (h : IsGap text) (hrest : StopsGap rest) :
    gap (text.toList ++ rest) = (text, rest) := by
  have hdrop : dropGapFrom false (text.toList ++ rest) = rest := dropGapFrom_append h hrest
  rw [gap, hdrop, consumed_append, String.ofList_toList]

theorem length_dropGapFrom_le (inComment : Bool) (cs : List Char) :
    (dropGapFrom inComment cs).length ≤ cs.length := by
  fun_induction dropGapFrom inComment cs <;> simp only [List.length_cons, List.length_nil] <;> omega

/-- What a gap leaves is no part of it, and without its carriage returns the gap is one as well. A
comment is only left open before a control character or at the end. -/
theorem exists_of_dropGapFrom (inComment : Bool) (cs : List Char) :
    ∃ front, cs = front ++ dropGapFrom inComment cs ∧
      ∃ after, gapState inComment (front.filter (· != '\r')) = some after ∧
        (after = true → ∀ c ∈ (dropGapFrom inComment cs).head?, isPrintable c = false) := by
  fun_induction dropGapFrom inComment cs with
  | case1 inComment => exact ⟨[], rfl, inComment, rfl, by simp⟩
  | case2 inComment c cs hin ih =>
    obtain ⟨front, hcs, after, hafter, hopen⟩ := ih
    refine ⟨c :: front, by rw [List.cons_append, ← hcs], after, ?_, hopen⟩
    have hreturn : c ≠ '\r' := by rintro rfl; simp [isPrintable] at hin
    rw [List.filter_cons_of_pos (by simpa using hreturn), gapState, if_pos hin, hafter]
  | case3 inComment c cs hin hblank ih =>
    obtain ⟨front, hcs, after, hafter, hopen⟩ := ih
    refine ⟨c :: front, by rw [List.cons_append, ← hcs], after, ?_, hopen⟩
    have hreturn : c ≠ '\r' := by rintro rfl; simp [isSpace] at hblank
    rw [List.filter_cons_of_pos (by simpa using hreturn), gapState, if_neg hin, if_pos hblank, hafter]
  | case4 inComment c cs hin hblank hreturn ih =>
    obtain ⟨front, hcs, after, hafter, hopen⟩ := ih
    obtain ⟨rfl, hhead⟩ : c = '\r' ∧ cs.head? = some '\n' := by simpa using hreturn
    refine ⟨'\r' :: front, by rw [List.cons_append, ← hcs], after, ?_, hopen⟩
    rw [List.filter_cons_of_neg (by simp)]
    -- the line feed behind the carriage return ends a comment
    obtain ⟨next, rfl⟩ := List.head?_eq_some_iff.1 hhead
    cases front with
    | nil =>
      have hle := length_dropGapFrom_le false next
      rw [List.nil_append, dropGapFrom, if_neg (by simp), if_pos (by simp)] at hcs
      rw [← hcs, List.length_cons] at hle
      omega
    | cons c front =>
      rw [List.cons_append, List.cons.injEq] at hcs
      rw [← hcs.1, List.filter_cons_of_pos (by simp)] at hafter ⊢
      rw [← hafter, gapState, gapState]
      simp [isPrintable, isSpace]
  | case5 inComment c cs hin hblank hreturn hmark ih =>
    obtain ⟨front, hcs, after, hafter, hopen⟩ := ih
    refine ⟨c :: front, by rw [List.cons_append, ← hcs], after, ?_, hopen⟩
    have hne : c ≠ '\r' := by rintro rfl; simp at hmark
    rw [List.filter_cons_of_pos (by simpa using hne), gapState, if_neg hin, if_neg hblank, if_pos hmark,
      hafter]
  | case6 inComment c cs hin hblank hreturn hmark =>
    refine ⟨[], rfl, inComment, rfl, fun hopen => ?_⟩
    simpa [hopen] using hin

/-! ### The text above a line -/

theorem gapState_lineFeed (inComment : Bool) (rest : List Char) :
    gapState inComment ('\n' :: rest) = gapState false rest := by
  rw [gapState, if_neg (by simp [isPrintable]), if_pos (by simp)]

theorem gapState_comment (h : ∀ c ∈ front, isPrintable c) (rest : List Char) :
    gapState true (front ++ rest) = gapState true rest := by
  induction front with
  | nil => rfl
  | cons c front ih =>
    obtain ⟨hc, hfront⟩ := List.forall_mem_cons.1 h
    rw [List.cons_append, gapState, if_pos (by simp [hc]), ih hfront]

/-- A comment that ends before the text does has a line feed behind it. -/
theorem exists_of_gapState_comment {after : Bool} (h : gapState true front = some after) :
    (after = true ∧ ∀ c ∈ front, isPrintable c) ∨
      ∃ comment more, front = comment ++ '\n' :: more ∧ (∀ c ∈ comment, isPrintable c) ∧
        gapState false more = some after := by
  induction front with
  | nil => exact .inl ⟨(Option.some.inj h).symm, by simp⟩
  | cons c front ih =>
    by_cases hc : isPrintable c = true
    · rw [gapState, if_pos (by simp [hc])] at h
      rcases ih h with ⟨hafter, hall⟩ | ⟨comment, more, rfl, hall, hmore⟩
      · exact .inl ⟨hafter, List.forall_mem_cons.2 ⟨hc, hall⟩⟩
      · exact .inr ⟨c :: comment, more, rfl, List.forall_mem_cons.2 ⟨hc, hall⟩, hmore⟩
    · rw [gapState, if_neg (by simp [hc])] at h
      have hspace : isSpace c = false := Bool.eq_false_iff.2 fun hs => hc (isPrintable_of_isSpace hs)
      split at h
      · next hblank =>
        obtain rfl : c = '\n' := by simpa [hspace] using hblank
        exact .inr ⟨[], front, rfl, by simp, h⟩
      split at h
      · next hmark =>
        obtain rfl : c = '#' := by simpa using hmark
        exact absurd (by decide) hc
      · simp at h

theorem exists_comment (cs : List Char) :
    ∃ comment rest, cs = comment ++ rest ∧ (∀ c ∈ comment, isPrintable c) ∧
      comment.filter (· != '\r') = comment ∧ cs.dropWhile isPrintable = rest := by
  have hall : ∀ c ∈ cs.takeWhile isPrintable, isPrintable c := fun c hc => List.mem_takeWhile_imp hc
  refine ⟨cs.takeWhile isPrintable, _, List.takeWhile_append_dropWhile.symm, hall, ?_, rfl⟩
  exact List.filter_eq_self.2 fun c hc => bne_iff_ne.2 fun heq => absurd (heq ▸ hall c hc) (by decide)

/-- A line ends with one of these. -/
def IsLineMark (mark : List Char) : Prop := mark = ['\n'] ∨ mark = ['\r', '\n']

theorem newline_append {mark : List Char} (h : IsLineMark mark) (rest : List Char) :
    newline (mark ++ rest) = some rest := by
  rcases h with rfl | rfl <;> rfl

theorem exists_of_newline (h : newline cs = some rest) : ∃ mark, IsLineMark mark ∧ cs = mark ++ rest := by
  unfold newline at h
  split at h
  · exact ⟨_, .inl rfl, by rw [Option.some.inj h]; rfl⟩
  · exact ⟨_, .inr rfl, by rw [Option.some.inj h]; rfl⟩
  · simp at h

theorem IsLineMark.filter {mark : List Char} (h : IsLineMark mark) : mark.filter (· != '\r') = ['\n'] := by
  rcases h with rfl | rfl <;> rfl

/-- What follows is no part of the blank and comment lines above a line. -/
structure StartsLine (cs : List Char) : Prop where
  blank : StopsBlank cs
  comment : ∀ c ∈ cs.head?, c ≠ '#'
  newline : newline cs = none

theorem dropLeadFrom_line (fuel : Nat) (h : StartsLine rest) :
    Reading.dropLeadFrom (fuel + 1) rest = some rest := by
  rw [Reading.dropLeadFrom, dropWhile_isSpace h.blank]
  split
  · next hmark => exact absurd rfl (h.comment _ rfl)
  · rw [h.newline]

theorem dropLeadFrom_lineFeed (fuel : Nat) (cs : List Char) :
    Reading.dropLeadFrom (fuel + 1) ('\n' :: cs) = Reading.dropLeadFrom fuel cs := by
  rw [Reading.dropLeadFrom, dropWhile_isSpace (stopsBlank_cons (by decide) _)]
  rfl

theorem dropLeadFrom_comment (fuel : Nat) (h : ∀ c ∈ front, isPrintable c)
    (hrest : rest.dropWhile isPrintable = rest) :
    Reading.dropLeadFrom (fuel + 1) ('#' :: (front ++ rest)) =
      (lineEnd rest).bind (Reading.dropLeadFrom fuel) := by
  rw [Reading.dropLeadFrom, dropWhile_isSpace (stopsBlank_cons (by decide) _)]
  change (lineEnd ((front ++ rest).dropWhile isPrintable)).bind _ = _
  rw [List.dropWhile_append_of_pos h, hrest]

theorem dropLeadFrom_blank {fuel : Nat} (h : ∀ c ∈ front, isSpace c) (cs : List Char) :
    Reading.dropLeadFrom fuel (front ++ cs) = Reading.dropLeadFrom fuel cs := by
  cases fuel with
  | zero => rfl
  | succ fuel => rw [Reading.dropLeadFrom, Reading.dropLeadFrom, List.dropWhile_append_of_pos h]

theorem dropLeadFrom_append {fuel : Nat} {after : Bool} (h : gapState false front = some after)
    (hafter : after = true → rest = []) (hrest : StartsLine rest)
    (hfuel : (front ++ rest).length < fuel) :
    Reading.dropLeadFrom fuel (front ++ rest) = some rest := by
  induction fuel generalizing front with
  | zero => exact absurd hfuel (Nat.not_lt_zero _)
  | succ fuel ih =>
    -- up to the first mark there are only blanks
    obtain ⟨blank, more, rfl, hblank, hmore⟩ := exists_blank front
    rw [gapState_append, gapState_blank hblank, Option.bind_some] at h
    rw [List.append_assoc, dropLeadFrom_blank hblank]
    rw [List.append_assoc, List.length_append] at hfuel
    cases more with
    | nil => exact dropLeadFrom_line fuel hrest
    | cons c more =>
      rw [gapState, if_neg (by simp), hmore c rfl] at h
      by_cases hfeed : c = '\n'
      · subst hfeed
        rw [if_pos (by simp)] at h
        exact (dropLeadFrom_lineFeed ..).trans (ih h (by simp at hfuel ⊢; omega))
      rw [if_neg (by simpa using hfeed)] at h
      obtain rfl : c = '#' := by
        split at h
        · next hmark => simpa using hmark
        · simp at h
      rw [if_pos (by simp)] at h
      rcases exists_of_gapState_comment h with ⟨rfl, hall⟩ | ⟨comment, more, rfl, hall, hmore⟩
      · rw [hafter rfl] at hrest hfuel ⊢
        obtain ⟨fuel, rfl⟩ : ∃ n, fuel = n + 1 := Nat.exists_eq_succ_of_ne_zero (by simp at hfuel; omega)
        exact (dropLeadFrom_comment _ hall rfl).trans (dropLeadFrom_line fuel hrest)
      · rw [List.cons_append, List.append_assoc, dropLeadFrom_comment fuel hall (by rfl)]
        exact ih hmore (by simp at hfuel ⊢; omega)

theorem exists_of_dropLeadFrom {fuel : Nat} (h : Reading.dropLeadFrom fuel cs = some rest) :
    ∃ front, cs = front ++ rest ∧ StartsLine rest ∧
      ∃ after, gapState false (front.filter (· != '\r')) = some after ∧ (after = true → rest = []) := by
  induction fuel generalizing cs with
  | zero => exact absurd h nofun
  | succ fuel ih =>
    obtain ⟨blank, more, rfl, hblank, hmore⟩ := exists_blank cs
    have hgap : gapState false (blank.filter (· != '\r')) = some false :=
      gapState_blank fun c hc => hblank c (List.mem_filter.1 hc |>.1)
    rw [dropLeadFrom_blank hblank, Reading.dropLeadFrom, dropWhile_isSpace hmore] at h
    split at h
    · next cs =>
      obtain ⟨next, hnext, h⟩ := Option.bind_eq_some_iff.1 h
      obtain ⟨front, rfl, hrest, after, hafter, hopen⟩ := ih h
      obtain ⟨comment, behind, rfl, hcomment, hreturn, hdrop⟩ := exists_comment cs
      rw [hdrop] at hnext
      have hstate (cs : List Char) : gapState false ((blank ++ '#' :: comment ++ cs).filter (· != '\r')) =
          gapState true (cs.filter (· != '\r')) := by
        rw [List.append_assoc, List.filter_append, gapState_append, hgap, Option.bind_some, List.cons_append,
          List.filter_cons_of_pos (by decide), gapState, if_neg (by decide), if_neg (by decide),
          if_pos (by decide), List.filter_append, hreturn, gapState_comment hcomment]
      unfold lineEnd at hnext
      split at hnext
      · obtain ⟨rfl, rfl⟩ := List.append_eq_nil_iff.1 (Option.some.inj hnext).symm
        exact ⟨blank ++ '#' :: comment ++ [], by simp, hrest, true, hstate [], fun _ => rfl⟩
      · obtain ⟨mark, hmark, rfl⟩ := exists_of_newline hnext
        refine ⟨blank ++ '#' :: comment ++ (mark ++ front), by simp, hrest, after, ?_, hopen⟩
        rw [hstate, List.filter_append, hmark.filter]
        exact (gapState_lineFeed ..).trans hafter
    · next hcomment =>
      split at h
      · next next hnext =>
        obtain ⟨front, rfl, hrest, after, hafter, hopen⟩ := ih h
        obtain ⟨mark, hmark, rfl⟩ := exists_of_newline hnext
        refine ⟨blank ++ mark ++ front, by simp, hrest, after, ?_, hopen⟩
        rw [List.filter_append, List.filter_append, hmark.filter, List.append_assoc, gapState_append, hgap]
        exact (gapState_lineFeed ..).trans hafter
      · next hnewline =>
        obtain rfl := Option.some.inj h
        refine ⟨blank, rfl, ⟨hmore, fun c hc heq => ?_, hnewline⟩, false, hgap, by simp⟩
        obtain ⟨cs, rfl⟩ := List.head?_eq_some_iff.1 hc
        exact hcomment cs (heq ▸ rfl)

/-! ### The rest of a line -/

/-- Blanks and perhaps a comment. -/
def IsTail (text : String) : Prop := dropComment (text.toList.dropWhile isSpace) = []

theorem IsBlank.isTail (h : IsBlank text) : IsTail text := by
  rw [IsTail, List.dropWhile_eq_nil_iff.2 h]
  rfl

theorem dropComment_of_ne (h : ∀ c ∈ cs.head?, c ≠ '#') : dropComment cs = cs := by
  unfold dropComment
  split
  · exact absurd rfl (h _ rfl)
  · rfl

theorem lineTail_append (h : IsTail text) (rest : List Char) :
    lineTail (text.toList ++ '\n' :: rest) = some (text, rest) := by
  have hdrop : dropComment ((text.toList ++ '\n' :: rest).dropWhile isSpace) = '\n' :: rest := by
    obtain ⟨blank, more, htext, hblank, hmore⟩ := exists_blank text.toList
    rw [IsTail, htext, List.dropWhile_append_of_pos hblank, dropWhile_isSpace hmore] at h
    rw [htext, List.append_assoc, List.dropWhile_append_of_pos hblank]
    cases more with
    | nil => rw [List.nil_append, dropWhile_isSpace (stopsBlank_cons (by decide) _)]; rfl
    | cons c more =>
      rw [List.cons_append, dropWhile_isSpace (stopsBlank_cons (hmore c rfl) _)]
      by_cases hmark : c = '#'
      · subst hmark
        exact List.dropWhile_append_of_pos (List.dropWhile_eq_nil_iff.1 h)
      · rw [dropComment_of_ne (by simpa using hmark)] at h
        exact absurd h (List.cons_ne_nil c more)
  rw [lineTail, hdrop, consumed_append, String.ofList_toList]
  rfl

theorem exists_of_lineTail (h : lineTail cs = some (text, rest)) :
    IsTail text ∧ withoutReturns text = text ∧
      ∃ next, cs = text.toList ++ next ∧ lineEnd next = some rest := by
  obtain ⟨blank, more, rfl, hblank, hmore⟩ := exists_blank cs
  have hfilter : blank.filter (· != '\r') = blank :=
    List.filter_eq_self.2 fun c hc => bne_iff_ne.2 fun heq => absurd (heq ▸ hblank c hc) (by decide)
  unfold lineTail at h
  rw [List.dropWhile_append_of_pos hblank, dropWhile_isSpace hmore] at h
  obtain ⟨next, hnext, h⟩ := Option.map_eq_some_iff.1 h
  obtain ⟨htext, rfl⟩ := Prod.mk.inj h
  by_cases hmark : more.head? = some '#'
  · obtain ⟨more, rfl⟩ := List.head?_eq_some_iff.1 hmark
    obtain ⟨comment, behind, rfl, hcomment, hreturn, hdrop⟩ := exists_comment more
    rw [dropComment, hdrop] at hnext htext
    rw [← List.cons_append, ← List.append_assoc, consumed_append] at htext
    subst htext
    refine ⟨?_, ?_, behind, by simp, hnext⟩
    · rw [IsTail, String.toList_ofList, List.dropWhile_append_of_pos hblank,
        List.dropWhile_cons_of_neg (by decide)]
      exact List.dropWhile_eq_nil_iff.2 hcomment
    · rw [withoutReturns_ofList, List.filter_append, hfilter, List.filter_cons_of_pos (by decide), hreturn]
  · rw [dropComment_of_ne fun c hc heq => hmark (heq ▸ hc)] at hnext htext
    rw [consumed_append] at htext
    subst htext
    refine ⟨IsBlank.isTail (by simpa [IsBlank] using hblank), ?_, more, by simp, hnext⟩
    rw [withoutReturns_ofList, hfilter]

end FeatureForwarding.Toml
