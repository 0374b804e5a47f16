import FeatureForwarding.Proofs.Toml.Blanks
import Mathlib.Data.Bool.AllAny

/-! Numbers and dates, whose end is where something follows that no value goes on with. Such a text is
read in the same way whatever it is that follows. -/

namespace FeatureForwarding.Toml

open Text (Reader isDigit literal number push)

/-- A blank, a line end, a comment or the mark behind a value. -/
def isDelimiter (c : Char) : Bool :=
  Lexeme.isSpace c || c ∈ ['\n', '\r', '#', ',', ']', '\x7d']

/-- A value ends here: also behind a blank no time follows that would go with a date. -/
def EndsValue : List Char → Prop
  | [] => True
  | c :: cs => isDelimiter c ∧ (c = ' ' → ∀ d ∈ cs.head?, isDigit d = false)

namespace Numeral

variable {α β : Type} {c : Char} {cs front rest : List Char}

/-! ### Readers that stop at the end of a value -/

/-- What follows the end of a value neither goes into what is read nor prevents it. -/
structure Uniform (read : Reader α) : Prop where
  suffix {cs rest : List Char} {a : α} : read cs = some (a, rest) → rest <:+ cs
  append (cs : List Char) {rest : List Char} : EndsValue rest →
    read (cs ++ rest) = (read cs).map (Prod.map id (· ++ rest))

/-- The same where nothing is kept of what is read. -/
structure UniformSkip (skip : List Char → Option (List Char)) : Prop where
  suffix {cs rest : List Char} : skip cs = some rest → rest <:+ cs
  append (cs : List Char) {rest : List Char} : EndsValue rest →
    skip (cs ++ rest) = (skip cs).map (· ++ rest)

theorem UniformSkip.pure : UniformSkip some where
  suffix h := Option.some.inj h ▸ List.suffix_refl _
  append _ _ _ := rfl

theorem UniformSkip.fail : UniformSkip fun _ => none where
  suffix h := absurd h nofun
  append _ _ _ := rfl

theorem UniformSkip.ite {skip other : List Char → Option (List Char)} (p : Prop) [Decidable p]
    (h : UniformSkip skip) (h' : UniformSkip other) :
    UniformSkip fun cs => if p then skip cs else other cs := by
  split <;> assumption

theorem UniformSkip.bind {skip next : List Char → Option (List Char)} (h : UniformSkip skip)
    (h' : UniformSkip next) : UniformSkip fun cs => skip cs >>= next where
  suffix hread := by
    obtain ⟨between, hskip, hnext⟩ := Option.bind_eq_some_iff.1 hread
    exact (h'.suffix hnext).trans (h.suffix hskip)
  append cs rest hrest := by
    simp only [Option.bind_eq_bind, h.append cs hrest, Option.bind_map, Option.map_bind]
    exact congrArg _ (funext fun between => h'.append between hrest)

theorem Uniform.bind {read : Reader α} {next : α × List Char → Option (List Char)} (h : Uniform read)
    (h' : ∀ a, UniformSkip fun cs => next (a, cs)) : UniformSkip fun cs => read cs >>= next where
  suffix hread := by
    obtain ⟨⟨a, between⟩, hskip, hnext⟩ := Option.bind_eq_some_iff.1 hread
    exact ((h' a).suffix hnext).trans (h.suffix hskip)
  append cs rest hrest := by
    simp only [Option.bind_eq_bind, h.append cs hrest, Option.bind_map, Option.map_bind]
    exact congrArg _ (funext fun r => (h' r.1).append r.2 hrest)

theorem UniformSkip.or {skip other : List Char → Option (List Char)} (h : UniformSkip skip)
    (h' : UniformSkip other) : UniformSkip fun cs => (skip cs).or (other cs) where
  suffix hread := by
    rcases Option.or_eq_some_iff.1 hread with hread | ⟨-, hread⟩
    · exact h.suffix hread
    · exact h'.suffix hread
  append cs rest hrest := by
    simp only [h.append cs hrest, h'.append cs hrest, Option.map_or]

theorem Uniform.or {read other : Reader α} (h : Uniform read) (h' : Uniform other) :
    Uniform fun cs => read cs <|> other cs where
  suffix hread := by
    simp only [Option.orElse_eq_orElse, Option.orElse_eq_or] at hread
    rcases Option.or_eq_some_iff.1 hread with hread | ⟨-, hread⟩
    · exact h.suffix hread
    · exact h'.suffix hread
  append cs rest hrest := by
    simp only [Option.orElse_eq_orElse, Option.orElse_eq_or, h.append cs hrest, h'.append cs hrest,
      Option.map_or]

/-! ### Digits -/

theorem eq_of_isDelimiter (h : isDelimiter c) : c ∈ [' ', '\t', '\n', '\r', '#', ',', ']', '\x7d'] := by
  simpa [isDelimiter, Lexeme.isSpace, or_assoc] using h

theorem isDigit_of_isDelimiter (h : isDelimiter c) : isDigit c = false := by
  have hall : ∀ c ∈ [' ', '\t', '\n', '\r', '#', ',', ']', '\x7d'], isDigit c = false :=
    List.all_iff_forall_prop.1 (by decide)
  exact hall c (eq_of_isDelimiter h)

theorem EndsValue.head {p : Char → Bool} (h : EndsValue rest) (hp : ∀ c, isDelimiter c → p c = false) :
    ∀ c ∈ rest.head?, p c = false := by
  cases rest with
  | nil => simp
  | cons c rest => simpa using hp c h.1

theorem EndsValue.head?_ne (h : EndsValue rest) (hc : isDelimiter c = false) : rest.head? ≠ some c := by
  rintro heq
  obtain ⟨rest, rfl⟩ := List.head?_eq_some_iff.1 heq
  exact absurd h.1 (by simp [hc])

/-- A reader that goes one of two ways at a character that ends no value. -/
theorem UniformSkip.behind {skip other : List Char → Option (List Char)} (hc : isDelimiter c = false)
    (h : UniformSkip fun cs => skip (c :: cs)) (h' : UniformSkip other)
    (hother : ∀ cs, cs.head? ≠ some c → skip cs = other cs) : UniformSkip skip where
  suffix {cs rest} hread := by
    by_cases hhead : cs.head? = some c
    · obtain ⟨cs, rfl⟩ := List.head?_eq_some_iff.1 hhead
      exact (h.suffix hread).trans (List.suffix_cons _ _)
    · exact h'.suffix (hother cs hhead ▸ hread)
  append cs rest hrest := by
    by_cases hhead : cs.head? = some c
    · obtain ⟨cs, rfl⟩ := List.head?_eq_some_iff.1 hhead
      exact h.append cs hrest
    · rw [hother cs hhead, hother, h'.append cs hrest]
      cases cs with
      | nil => exact EndsValue.head?_ne hrest hc
      | cons d cs => exact hhead

theorem uniform_fixed (count : Nat) : Uniform (fixed count) where
  suffix hread := by
    unfold fixed at hread
    dsimp only at hread
    split at hread
    · exact (Prod.mk.inj (Option.some.inj hread)).2 ▸ List.drop_suffix _ _
    · simp at hread
  append cs rest hrest := by
    unfold fixed
    by_cases hlong : count ≤ cs.length
    · rw [List.take_append_of_le_length hlong, List.drop_append_of_le_length hlong]
      dsimp only
      split <;> rfl
    · have hshort : ((cs.take count).length = count && (cs.take count).all isDigit) = false := by
        simp
        omega
      have hend : (((cs ++ rest).take count).length =
          count && ((cs ++ rest).take count).all isDigit) = false := by
        cases rest with
        | nil => simpa using hshort
        | cons c rest =>
          obtain ⟨more, rfl⟩ := Nat.exists_eq_add_of_lt (Nat.not_le.1 hlong)
          rw [Nat.add_assoc, List.take_length_add_append, List.take_succ_cons]
          simp [isDigit_of_isDelimiter hrest.1]
      simp only [hshort, hend]
      rfl

theorem Uniform.upTo {read : Reader Nat} (h : Uniform read) (limit : Nat) :
    Uniform fun cs => upTo limit (read cs) where
  suffix hread := h.suffix (Option.filter_eq_some_iff.1 hread).1
  append cs rest hrest := by
    simp only [h.append cs hrest, Numeral.upTo]
    cases read cs with
    | none => rfl
    | some r => simp [Option.filter]

theorem literal_eq_some : literal c cs = some rest ↔ cs = c :: rest := by
  cases cs with
  | nil => simp [literal]
  | cons d cs =>
    rw [literal]
    split
    · next heq => simp [heq]
    · next hne => simp [hne]

theorem uniform_literal (h : isDelimiter c = false) : UniformSkip (literal c) where
  suffix hread := literal_eq_some.1 hread ▸ List.suffix_cons _ _
  append cs rest hrest := by
    cases cs with
    | cons d cs => simp only [List.cons_append, literal]; split <;> rfl
    | nil =>
      cases rest with
      | nil => rfl
      | cons d rest =>
        have hne : d ≠ c := by simpa using EndsValue.head?_ne hrest h
        simp [literal, hne]

theorem dropWhile_append_of_head {p : Char → Bool} (cs : List Char) (h : ∀ c ∈ rest.head?, p c = false) :
    (cs ++ rest).dropWhile p = cs.dropWhile p ++ rest := by
  rw [List.dropWhile_append]
  split
  · next hempty =>
    rw [List.isEmpty_iff.1 hempty, List.nil_append]
    cases rest with
    | nil => rfl
    | cons c rest => exact List.dropWhile_cons_of_neg (by simp [h c rfl])
  · rfl

theorem head?_any_append {p : Char → Bool} (hp : ∀ c, isDelimiter c → p c = false) (cs : List Char)
    (hrest : EndsValue rest) : (cs ++ rest).head?.any p = cs.head?.any p := by
  cases cs with
  | cons d cs => rfl
  | nil => simpa [Option.any_eq_false] using EndsValue.head hrest hp

theorem digitsFrom_append {p : Char → Bool} (hp : ∀ c, isDelimiter c → p c = false) (cs : List Char)
    (hrest : EndsValue rest) :
    digitsFrom p (cs ++ rest) = (digitsFrom p cs).map (Prod.map id (· ++ rest)) := by
  induction cs with
  | nil =>
    cases rest with
    | nil => rfl
    | cons c rest =>
      have hunderscore : c ≠ '_' := by simpa using EndsValue.head?_ne hrest (by decide)
      simp [digitsFrom, hp c hrest.1, hunderscore]
  | cons c cs ih =>
    rw [List.cons_append, digitsFrom, digitsFrom, ih, head?_any_append hp cs hrest]
    split
    · simp [Option.map_map]; rfl
    split
    · split <;> rfl
    · rfl

theorem suffix_digitsFrom {p : Char → Bool} {ds : List Char} (h : digitsFrom p cs = some (ds, rest)) :
    rest <:+ cs := by
  fun_induction digitsFrom p cs generalizing ds with
  | case1 => exact (Prod.mk.inj (Option.some.inj h)).2 ▸ List.suffix_refl _
  | case2 c cs hc ih =>
    obtain ⟨⟨ds, _⟩, hread, h⟩ := Option.map_eq_some_iff.1 h
    obtain ⟨rfl, rfl⟩ := Prod.mk.inj h
    exact (ih hread).trans (List.suffix_cons _ _)
  | case3 cs hc hhead ih => exact (ih h).trans (List.suffix_cons _ _)
  | case4 => simp at h
  | case5 => exact (Prod.mk.inj (Option.some.inj h)).2 ▸ List.suffix_refl _

theorem uniform_digits {p : Char → Bool} (hp : ∀ c, isDelimiter c → p c = false) : Uniform (digits p) where
  suffix hread := by
    rw [digits] at hread
    split at hread
    · exact suffix_digitsFrom hread
    · simp at hread
  append cs rest hrest := by
    rw [digits, digits, head?_any_append hp cs hrest, digitsFrom_append hp cs hrest]
    split <;> rfl

/-! ### Dates and times -/

theorem uniform_date : UniformSkip date := by
  refine Uniform.bind (uniform_fixed 4) fun year => ?_
  refine (uniform_literal (by decide)).bind ?_
  refine Uniform.bind ((uniform_fixed 2).upTo 12) fun month => ?_
  refine (uniform_literal (by decide)).bind ?_
  refine Uniform.bind ((uniform_fixed 2).upTo (daysInMonth year month)) fun day => ?_
  exact UniformSkip.ite _ .pure .fail

theorem fraction_of_head (h : cs.head? ≠ some '.') : fraction cs = cs := by
  unfold fraction
  split
  · exact absurd rfl h
  · rfl

theorem uniform_fraction : UniformSkip fun cs => some (fraction cs) where
  suffix {cs rest} hread := by
    rw [← Option.some.inj hread]
    unfold fraction
    split
    · split
      · exact (List.dropWhile_suffix _).trans ((List.suffix_cons _ _).trans (List.suffix_cons _ _))
      · exact List.suffix_refl _
    · exact List.suffix_refl _
  append cs rest hrest := by
    rw [Option.map_some, Option.some.injEq]
    have hpoint := EndsValue.head?_ne (c := '.') hrest (by decide)
    have hdigit := EndsValue.head hrest fun c => isDigit_of_isDelimiter
    by_cases hhead : cs.head? = some '.'
    · obtain ⟨cs, rfl⟩ := List.head?_eq_some_iff.1 hhead
      match cs, rest with
      | c :: cs, rest =>
        simp only [List.cons_append, fraction]
        split
        · exact dropWhile_append_of_head cs hdigit
        · rfl
      | [], [] => rfl
      | [], c :: rest => simp [fraction, hdigit c rfl]
    · rw [fraction_of_head hhead, fraction_of_head]
      rw [List.head?_append]
      cases cs with
      | nil => exact hpoint
      | cons c cs => exact hhead

theorem uniform_time : UniformSkip time := by
  refine Uniform.bind ((uniform_fixed 2).upTo 23) fun _ => ?_
  refine (uniform_literal (by decide)).bind ?_
  refine Uniform.bind ((uniform_fixed 2).upTo 59) fun _ => ?_
  refine (uniform_literal (by decide)).bind ?_
  exact Uniform.bind ((uniform_fixed 2).upTo 60) fun _ => uniform_fraction

theorem uniform_numericOffset : UniformSkip numericOffset := by
  refine Uniform.bind ((uniform_fixed 2).upTo 23) fun _ => ?_
  refine (uniform_literal (by decide)).bind ?_
  exact Uniform.bind ((uniform_fixed 2).upTo 59) fun _ => .pure

theorem uniform_offset : UniformSkip offset where
  suffix {cs rest} hread := by
    unfold offset at hread
    split at hread
    · split at hread
      · exact Option.some.inj hread ▸ List.suffix_cons _ _
      split at hread
      · exact (uniform_numericOffset.suffix hread).trans (List.suffix_cons _ _)
      · exact Option.some.inj hread ▸ List.suffix_refl _
    · exact Option.some.inj hread ▸ List.suffix_refl _
  append cs rest hrest := by
    cases cs with
    | cons c cs =>
      simp only [List.cons_append, offset]
      split
      · rfl
      split
      · exact uniform_numericOffset.append cs hrest
      · rfl
    | nil =>
      cases rest with
      | nil => rfl
      | cons c rest =>
        have hne {d : Char} (hd : isDelimiter d = false) : c ≠ d := by
          simpa using EndsValue.head?_ne hrest hd
        rw [List.nil_append, offset, if_neg, if_neg]
        · rfl
        · simp [hne (d := '+') (by decide), hne (d := '-') (by decide)]
        · simp [hne (d := 'Z') (by decide), hne (d := 'z') (by decide)]

theorem time_eq_none (h : ∀ c ∈ cs.head?, isDigit c = false) : time cs = none := by
  have hfixed : fixed 2 cs = none := by
    cases cs with
    | nil => rfl
    | cons c cs => simp [fixed, h c rfl]
  rw [time, hfixed]
  rfl

theorem uniform_dateTime : UniformSkip dateTime where
  suffix {cs rest} hread := by
    unfold dateTime at hread
    split at hread
    · exact uniform_time.suffix hread
    · next date hdate =>
      have hsuffix := uniform_date.suffix hdate
      split at hread
      · next c next =>
        split at hread
        · split at hread
          · next after htime =>
            exact ((uniform_offset.suffix hread).trans (uniform_time.suffix htime)).trans
              ((List.suffix_cons _ _).trans hsuffix)
          · exact Option.some.inj hread ▸ hsuffix
        · exact Option.some.inj hread ▸ hsuffix
      · exact Option.some.inj hread ▸ hsuffix
  append cs rest hrest := by
    rw [dateTime, dateTime, uniform_date.append cs hrest]
    cases date cs with
    | none => exact uniform_time.append cs hrest
    | some after =>
      dsimp only [Option.map_some]
      cases after with
      | cons c next =>
        simp only [List.cons_append]
        split
        · rw [uniform_time.append next hrest]
          cases time next with
          | none => rfl
          | some after => exact uniform_offset.append after hrest
        · rfl
      | nil =>
        cases rest with
        | nil => rfl
        | cons c next =>
          -- only a blank could start a time here, but no digit follows it
          have hne {d : Char} (hd : isDelimiter d = false) : c ≠ d := by
            simpa using EndsValue.head?_ne hrest hd
          by_cases hblank : c = ' '
          · have hnone := time_eq_none (hrest.2 hblank)
            simp [hblank, hnone]
          · simp [hblank, hne (d := 'T') (by decide), hne (d := 't') (by decide)]

/-! ### Integers and floats -/

theorem sign_of_head (h : cs.head? ≠ some '-') (h' : cs.head? ≠ some '+') : sign cs = (false, cs) := by
  unfold sign
  split
  · exact absurd rfl h
  · exact absurd rfl h'
  · rfl

theorem sign_append (cs : List Char) (hrest : EndsValue rest) :
    sign (cs ++ rest) = ((sign cs).1, (sign cs).2 ++ rest) := by
  cases cs with
  | nil =>
    exact sign_of_head (EndsValue.head?_ne hrest (by decide)) (EndsValue.head?_ne hrest (by decide))
  | cons c cs =>
    by_cases hminus : c = '-'
    · subst hminus
      rfl
    by_cases hplus : c = '+'
    · subst hplus
      rfl
    rw [List.cons_append, sign_of_head, sign_of_head] <;> simp [hminus, hplus]

theorem sign_suffix (cs : List Char) : (sign cs).2 <:+ cs := by
  unfold sign
  split
  · exact List.suffix_cons _ _
  · exact List.suffix_cons _ _
  · exact List.suffix_refl _

/-- What is read behind a sign. -/
theorem UniformSkip.sign {skip : Bool → List Char → Option (List Char)}
    (h : ∀ negative, UniformSkip (skip negative)) : UniformSkip fun cs => skip (sign cs).1 (sign cs).2 where
  suffix {cs rest} hread := ((h _).suffix hread).trans (sign_suffix cs)
  append cs rest hrest := by
    rw [sign_append cs hrest]
    exact (h _).append _ hrest

theorem decimal_of_head (h : cs.head? ≠ some '0') : decimal cs = digits isDigit cs := by
  unfold decimal
  split
  · exact absurd rfl h
  · rfl

theorem uniform_decimal : Uniform decimal where
  suffix {cs rest ds} hread := by
    unfold decimal at hread
    split at hread
    · exact (Prod.mk.inj (Option.some.inj hread)).2 ▸ List.suffix_cons _ _
    · exact (uniform_digits fun c => isDigit_of_isDelimiter).suffix hread
  append cs rest hrest := by
    have hdigits := (uniform_digits fun c => isDigit_of_isDelimiter).append cs hrest
    by_cases hzero : cs.head? = some '0'
    · obtain ⟨cs, rfl⟩ := List.head?_eq_some_iff.1 hzero
      rfl
    · rw [decimal_of_head hzero, decimal_of_head, hdigits]
      cases cs with
      | nil => exact EndsValue.head?_ne hrest (by decide)
      | cons c cs => exact hzero

theorem uniform_exponent : Uniform exponent where
  suffix {cs rest e} hread := by
    unfold exponent at hread
    split at hread
    · split at hread
      · obtain ⟨⟨ds, after⟩, hdigits, heq⟩ := Option.map_eq_some_iff.1 hread
        obtain ⟨-, rfl⟩ := Prod.mk.inj heq
        exact (((uniform_digits fun c => isDigit_of_isDelimiter).suffix hdigits).trans
          (sign_suffix _)).trans (List.suffix_cons _ _)
      · simp at hread
    · simp at hread
  append cs rest hrest := by
    cases cs with
    | cons c cs =>
      simp only [List.cons_append, exponent]
      split
      · rw [sign_append cs hrest, (uniform_digits fun c => isDigit_of_isDelimiter).append _ hrest,
          Option.map_map, Option.map_map]
        rfl
      · rfl
    | nil =>
      cases rest with
      | nil => rfl
      | cons c rest =>
        have hne {d : Char} (hd : isDelimiter d = false) : c ≠ d := by
          simpa using EndsValue.head?_ne hrest hd
        simp [exponent, hne (d := 'e') (by decide), hne (d := 'E') (by decide)]

/-- A float behind its sign and its whole part. -/
def floatFrom (negative : Bool) (whole : List Char) : List Char → Option (List Char)
  | '.' :: cs => do
    let (places, cs) ← digits isDigit cs
    match exponent cs with
    | some (e, cs) => if negative || isFinite (whole ++ places) places.length e then some cs else none
    | none => if negative || isFinite (whole ++ places) places.length ⟨false, 0⟩ then some cs else none
  | cs => do
    let (e, cs) ← exponent cs
    if negative || isFinite whole 0 e then some cs else none

theorem float_eq (cs : List Char) :
    float cs = (decimal (sign cs).2).bind fun r => floatFrom (sign cs).1 r.1 r.2 := rfl

theorem floatFrom_of_head (h : cs.head? ≠ some '.') (negative : Bool) (whole : List Char) :
    floatFrom negative whole cs = (exponent cs).bind fun r =>
      if negative || isFinite whole 0 r.1 then some r.2 else none := by
  unfold floatFrom
  split
  · exact absurd rfl h
  · rfl

/-- A fraction may go without an exponent. -/
theorem uniform_exponent_or (finite : Exponent → Bool) (plain : Bool) : UniformSkip fun cs =>
    match exponent cs with
    | some (e, cs) => if finite e then some cs else none
    | none => if plain then some cs else none where
  suffix {cs rest} hread := by
    split at hread
    · next e after hexponent =>
      exact ((UniformSkip.ite (finite e) .pure .fail).suffix hread).trans (uniform_exponent.suffix hexponent)
    · exact (UniformSkip.ite plain .pure .fail).suffix hread
  append cs rest hrest := by
    rw [uniform_exponent.append cs hrest]
    cases exponent cs with
    | none => exact (UniformSkip.ite plain .pure .fail).append cs hrest
    | some r => exact (UniformSkip.ite (finite r.1) .pure .fail).append r.2 hrest

theorem uniform_floatFrom (negative : Bool) (whole : List Char) : UniformSkip (floatFrom negative whole) := by
  have hpoint : UniformSkip fun cs => floatFrom negative whole ('.' :: cs) :=
    Uniform.bind (uniform_digits fun c => isDigit_of_isDelimiter) fun places => uniform_exponent_or _ _
  have hplain : UniformSkip fun cs => (exponent cs).bind fun r =>
      if negative || isFinite whole 0 r.1 then some r.2 else none :=
    Uniform.bind uniform_exponent fun e => .ite (negative || isFinite whole 0 e) .pure .fail
  exact hpoint.behind (by decide) hplain fun cs h => floatFrom_of_head h negative whole

theorem uniform_float : UniformSkip float := by
  have hfrom (negative : Bool) : UniformSkip fun cs =>
      (decimal cs).bind fun r => floatFrom negative r.1 r.2 :=
    Uniform.bind uniform_decimal fun whole => uniform_floatFrom negative whole
  exact UniformSkip.sign hfrom

/-- Three letters. -/
def word (c d e : Char) (cs : List Char) : Option (List Char) := do
  let cs ← literal c cs
  let cs ← literal d cs
  literal e cs

theorem word_eq_some {c d e : Char} : word c d e cs = some rest ↔ cs = c :: d :: e :: rest := by
  simp [word, Option.bind_eq_some_iff, literal_eq_some]

theorem uniform_word {c d e : Char} (hc : isDelimiter c = false) (hd : isDelimiter d = false)
    (he : isDelimiter e = false) : UniformSkip (word c d e) :=
  (uniform_literal hc).bind ((uniform_literal hd).bind (uniform_literal he))

theorem specialFloat_eq (cs : List Char) :
    specialFloat cs = (word 'i' 'n' 'f' (sign cs).2).or (word 'n' 'a' 'n' (sign cs).2) := by
  unfold specialFloat
  split
  · next h => rw [h]; rfl
  · next h => rw [h]; rfl
  · next h h' =>
    have hinf : word 'i' 'n' 'f' (sign cs).2 = none :=
      Option.eq_none_iff_forall_ne_some.2 fun rest heq => h rest (word_eq_some.1 heq)
    have hnan : word 'n' 'a' 'n' (sign cs).2 = none :=
      Option.eq_none_iff_forall_ne_some.2 fun rest heq => h' rest (word_eq_some.1 heq)
    rw [hinf, hnan]
    rfl

theorem uniform_specialFloat : UniformSkip specialFloat := by
  have hwords (_ : Bool) : UniformSkip fun cs => (word 'i' 'n' 'f' cs).or (word 'n' 'a' 'n' cs) :=
    (uniform_word (by decide) (by decide) (by decide)).or (uniform_word (by decide) (by decide) (by decide))
  rw [funext specialFloat_eq]
  exact UniformSkip.sign hwords

theorem isHexDigit_of_isDelimiter (radix : Nat) (c : Char) (h : isDelimiter c) :
    (Text.hexDigit? c).any (· < radix) = false := by
  have hall : ∀ c ∈ [' ', '\t', '\n', '\r', '#', ',', ']', '\x7d'], Text.hexDigit? c = none :=
    List.all_iff_forall_prop.1 (by decide)
  rw [hall c (eq_of_isDelimiter h)]
  rfl

theorem uniform_radixInteger (radix : Nat) : UniformSkip (radixInteger radix) :=
  Uniform.bind (uniform_digits (isHexDigit_of_isDelimiter radix)) fun _ => .ite _ .pure .fail

/-- The letters that follow a zero in front of digits of another radix. -/
def radixLetters : List Char := ['x', 'o', 'b']

theorem integer_of_plain (h : ∀ c more, cs = '0' :: c :: more → c ∉ radixLetters) :
    integer cs = (decimal (sign cs).2).bind fun r =>
      if number r.1 < Nat.pow 2 63 + (if (sign cs).1 then 1 else 0) then some r.2 else none := by
  unfold integer
  split
  · exact absurd (by decide) (h _ _ rfl)
  · exact absurd (by decide) (h _ _ rfl)
  · exact absurd (by decide) (h _ _ rfl)
  · rfl

theorem uniform_plainInteger : UniformSkip fun cs => (decimal (sign cs).2).bind fun r =>
    if number r.1 < Nat.pow 2 63 + (if (sign cs).1 then 1 else 0) then some r.2 else none := by
  have hsigned (negative : Bool) : UniformSkip fun cs => (decimal cs).bind fun r =>
      if number r.1 < Nat.pow 2 63 + (if negative then 1 else 0) then some r.2 else none :=
    Uniform.bind uniform_decimal fun ds =>
      .ite (number ds < Nat.pow 2 63 + (if negative then 1 else 0)) .pure .fail
  exact UniformSkip.sign hsigned

theorem uniform_integer : UniformSkip integer where
  suffix {cs rest} hread := by
    by_cases hradix : ∃ c more, cs = '0' :: c :: more ∧ c ∈ radixLetters
    · obtain ⟨c, more, rfl, hc⟩ := hradix
      refine List.IsSuffix.trans ?_ ((List.suffix_cons c more).trans (List.suffix_cons _ _))
      simp only [radixLetters, List.mem_cons, List.not_mem_nil, or_false] at hc
      rcases hc with rfl | rfl | rfl <;> exact (uniform_radixInteger _).suffix hread
    · rw [integer_of_plain fun c more heq hc => hradix ⟨c, more, heq, hc⟩] at hread
      exact uniform_plainInteger.suffix hread
  append cs rest hrest := by
    by_cases hradix : ∃ c more, cs = '0' :: c :: more ∧ c ∈ radixLetters
    · obtain ⟨c, more, rfl, hc⟩ := hradix
      simp only [radixLetters, List.mem_cons, List.not_mem_nil, or_false] at hc
      rcases hc with rfl | rfl | rfl <;> exact (uniform_radixInteger _).append more hrest
    · rw [integer_of_plain fun c more heq hc => hradix ⟨c, more, heq, hc⟩, integer_of_plain]
      · exact uniform_plainInteger.append cs hrest
      · intro c more heq hc
        match cs with
        | [] => exact EndsValue.head?_ne (c := '0') hrest (by decide) (congrArg List.head? heq)
        | [_] =>
          have hplain : ∀ c ∈ radixLetters, isDelimiter c = false :=
            List.all_iff_forall_prop.1 (by decide)
          exact EndsValue.head?_ne hrest (hplain c hc) (congrArg List.head? (List.cons.inj heq).2)
        | d :: e :: cs =>
          obtain ⟨rfl, htail⟩ := List.cons.inj heq
          obtain ⟨rfl, -⟩ := List.cons.inj htail
          exact hradix ⟨e, cs, rfl, hc⟩

theorem UniformSkip.spelled {skip : List Char → Option (List Char)} (h : UniformSkip skip)
    (kind : String → Scalar) : Uniform fun cs => spelled kind cs (skip cs) where
  suffix {cs rest} a hread := by
    obtain ⟨after, hskip, heq⟩ := Option.map_eq_some_iff.1 hread
    exact (Prod.mk.inj heq).2 ▸ h.suffix hskip
  append cs rest hrest := by
    rw [h.append cs hrest, Numeral.spelled, Numeral.spelled, Option.map_map, Option.map_map]
    cases hskip : skip cs with
    | none => rfl
    | some after =>
      obtain ⟨front, rfl⟩ := h.suffix hskip
      simp only [Option.map_some, Function.comp_apply, Prod.map, id, consumed_append]
      rw [List.append_assoc, consumed_append]

theorem uniform_scalar : Uniform scalar :=
  (uniform_dateTime.spelled _).or ((uniform_float.spelled _).or ((uniform_specialFloat.spelled _).or
    (uniform_integer.spelled _)))

/-- What was read as a number or a date reads the same in front of anything that ends a value. -/
theorem exists_of_scalar {content : Scalar} (h : scalar cs = some (content, rest)) (hrest : EndsValue rest) :
    ∃ front, cs = front ++ rest ∧
      ∀ rest', EndsValue rest' → scalar (front ++ rest') = some (content, rest') := by
  obtain ⟨front, rfl⟩ := uniform_scalar.suffix h
  refine ⟨front, rfl, fun rest' hrest' => ?_⟩
  rw [uniform_scalar.append front hrest] at h
  obtain ⟨⟨x, after⟩, hread, heq⟩ := Option.map_eq_some_iff.1 h
  obtain ⟨rfl, hafter⟩ := Prod.mk.inj heq
  obtain rfl : after = [] := by simpa using hafter
  rw [uniform_scalar.append front hrest', hread]
  rfl

/-- A number starts with a digit, a sign or a letter of a special float. -/
theorem scalar_eq_none (h : isDigit c = false) (hc : c ∉ ['-', '+', 'i', 'n']) (cs : List Char) :
    scalar (c :: cs) = none := by
  simp only [List.mem_cons, List.not_mem_nil, or_false, not_or] at hc
  obtain ⟨hminus, hplus, hi, hn⟩ := hc
  have hzero : c ≠ '0' := by rintro rfl; revert h; decide
  have hdate : dateTime (c :: cs) = none := by
    have hfixed : fixed 4 (c :: cs) = none := by simp [fixed, h]
    have hdate : date (c :: cs) = none := by rw [date, hfixed]; rfl
    rw [dateTime, hdate]
    exact time_eq_none (by simpa using h)
  have hsign : sign (c :: cs) = (false, c :: cs) :=
    sign_of_head (by simpa using hminus) (by simpa using hplus)
  have hdecimal : decimal (sign (c :: cs)).2 = none := by
    rw [hsign, decimal_of_head (by simpa using hzero)]
    simp [digits, h]
  have hspecial : specialFloat (c :: cs) = none := by
    rw [specialFloat_eq, hsign]
    simp [word, literal, hi, hn]
  have hinteger : integer (c :: cs) = none := by
    rw [integer_of_plain (by simp [hzero]), hdecimal]
    rfl
  rw [scalar, hdate, float_eq, hdecimal, hspecial, hinteger]
  rfl

end Numeral

end FeatureForwarding.Toml
