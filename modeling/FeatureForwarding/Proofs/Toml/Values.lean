import FeatureForwarding.Proofs.Toml.Keys
import FeatureForwarding.Proofs.Toml.Numerals
import FeatureForwarding.Proofs.Toml.Spelling
import FeatureForwarding.Proofs.Toml.DistinctKeys

/-! Values as they are written. What is read back differs from what was written by no more than texts
that were left to the printer, which are known now. -/

namespace FeatureForwarding.Toml

open Lexeme Reading

/-! ### What is read back -/

/-- The texts around a node as they are written. -/
def Decor.written (unset : Surround) (d : Decor) : Decor :=
  ⟨some (d.textBefore unset), some (d.textAfter unset)⟩

def Scalar.reread : Scalar → Scalar
  | .text content spelling => .text content (some (Scalar.text content spelling).shown)
  | s => s

namespace Value

/-- Whether the value is a table made by dotted keys, which is written through its entries. -/
def isDotted : Value → Bool
  | .inline _ dotted _ _ => dotted
  | _ => false

end Value

/-- The text in front of a key is left out where the key is the first one of its path. -/
def Key.before (isTop : Bool) (key : Key) : String := if isTop then "" else key.between

/-- The key of an entry as it is read back. -/
def Key.reread (isTop : Bool) (unset : Surround) (isPassed : Bool) (key : Key) : Key :=
  if isPassed then key.passed (key.before isTop)
  else key.ended (key.decor.textBefore unset) (key.before isTop) unset

mutual

/-- A value as it is read back; of a table made by dotted keys the last value gets what is written
around it where nothing is set. -/
def Value.reread (unset : Surround) : Value → Value
  | .scalar d s => .scalar (d.written unset) s.reread
  | .array d elements comma trailing =>
    .array (d.written unset) (Value.rereadAll .firstElement elements) (comma && !elements.isEmpty)
      (withoutReturns trailing)
  | .inline d dotted preamble entries =>
    if dotted then .inline {} true "" (Value.rereadIn false unset entries)
    else .inline (d.written unset) false preamble (Value.rereadIn true .lastInline entries)
  termination_by structural v => v

def Value.rereadAll (unset : Surround) : List Value → List Value
  | [] => []
  | v :: vs => v.reread unset :: Value.rereadAll .value vs
  termination_by structural vs => vs

def Value.rereadIn (isTop : Bool) (unset : Surround) : List (Key × Value) → List (Key × Value)
  | [] => []
  | (key, v) :: rest =>
    (key.reread isTop .inlineKey v.isDotted, v.reread (if rest.isEmpty then unset else .value)) ::
      Value.rereadIn isTop unset rest
  termination_by structural entries => entries

end

/-! ### What can be read back -/

/-- Gaps without their carriage returns. -/
def Decor.IsGap (d : Decor) : Prop :=
  (∀ text ∈ d.before, Toml.IsGap (withoutReturns text)) ∧ ∀ text ∈ d.after, Toml.IsGap (withoutReturns text)

/-- The text of the scalar is read as it. -/
def Scalar.IsLegible (s : Scalar) : Prop :=
  ∀ rest, EndsValue rest → simpleValue (s.shown.toList ++ rest) = some (.scalar {} s.reread, rest)

mutual

def Value.IsLegible : Value → Prop
  | .scalar _ s => s.IsLegible
  | .array _ elements comma trailing =>
    Value.AreLegible elements ∧ IsGap (withoutReturns trailing) ∧
      (comma = false → elements ≠ [] → withoutReturns trailing = "")
  | .inline _ dotted preamble entries =>
    Value.IsLegibleIn entries ∧ (names entries).Nodup ∧
      if dotted then entries ≠ [] else IsBlank preamble ∧ (entries ≠ [] → preamble = "")
  termination_by structural v => v

def Value.AreLegible : List Value → Prop
  | [] => True
  | v :: vs => (v.isDotted = false ∧ v.decor.IsGap) ∧ v.IsLegible ∧ Value.AreLegible vs
  termination_by structural vs => vs

def Value.IsLegibleIn : List (Key × Value) → Prop
  | [] => True
  | (key, v) :: rest =>
    (key.IsLegible ∧ (v.isDotted = false → key.decor.IsBlank ∧ v.decor.IsBlank)) ∧ v.IsLegible ∧
      Value.IsLegibleIn rest
  termination_by structural entries => entries

end

mutual

/-- Whether so many brackets may be opened, and no path in braces has too many parts. -/
def Value.fits (depth : Nat) : Value → Bool
  | .scalar _ _ => true
  | .array _ elements _ _ => 0 < depth && Value.allFit (depth - 1) elements
  | .inline _ dotted _ entries =>
    if dotted then false else 0 < depth && Value.fitIn (depth - 1) 0 entries
  termination_by structural v => v

def Value.allFit (depth : Nat) : List Value → Bool
  | [] => true
  | v :: vs => v.fits depth && Value.allFit depth vs
  termination_by structural vs => vs

def Value.fitIn (depth parents : Nat) : List (Key × Value) → Bool
  | [] => true
  | (_, .inline _ true _ inner) :: rest =>
    Value.fitIn depth (parents + 1) inner && Value.fitIn depth parents rest
  | (_, v) :: rest => (parents + 1 < keyPartLimit && v.fits depth) && Value.fitIn depth parents rest
  termination_by structural entries => entries

end

variable {v : Value} {vs : List Value} {key : Key} {entries : List (Key × Value)} {unset : Surround}
  {cs rest : List Char} {c : Char} {depth : Nat}

/-! ### What is read back is written in the same way -/

theorem withoutReturns_withoutReturns (text : String) :
    withoutReturns (withoutReturns text) = withoutReturns text := by
  simp [withoutReturns]

theorem Decor.textBefore_written (unset unset' : Surround) (d : Decor) :
    (d.written unset).textBefore unset' = d.textBefore unset := withoutReturns_withoutReturns _

theorem Decor.textAfter_written (unset unset' : Surround) (d : Decor) :
    (d.written unset).textAfter unset' = d.textAfter unset := withoutReturns_withoutReturns _

theorem Scalar.shown_reread (s : Scalar) : s.reread.shown = s.shown := by
  cases s <;> rfl

/-- A value with the keys that lead to it from its table. -/
structure Pair where
  first : Key
  keys : List Key
  value : Value

namespace Pair

def under (key : Key) (p : Pair) : Pair := ⟨key, p.first :: p.keys, p.value⟩

def leaf (p : Pair) : Leaf := ⟨p.first :: p.keys, p.value.shown⟩

def last (p : Pair) : Key := (p.first :: p.keys).getLast (List.cons_ne_nil p.first p.keys)

/-- The pair as it is read back. -/
def assignment (isTop : Bool) (unsetKey unsetValue : Surround) (p : Pair) : Assignment :=
  ⟨⟨passedFrom (p.first.before isTop) p.first p.keys,
    endedFrom (p.last.decor.textBefore unsetKey) (p.first.before isTop) unsetKey p.first p.keys⟩,
    p.value.reread unsetValue⟩

/-- The pairs of a table in braces as they are read back. -/
def inlineAssignments (isTop : Bool) (unset : Surround) : List Pair → List Assignment
  | [] => []
  | p :: rest =>
    p.assignment isTop .inlineKey (if rest.isEmpty then unset else .value) ::
      inlineAssignments isTop unset rest

end Pair

mutual

/-- The pairs that a value under a key stands for. -/
def Value.pairsAt (key : Key) : Value → List Pair
  | .inline d dotted preamble entries =>
    if dotted then (Value.pairs entries).map (Pair.under key)
      else [⟨key, [], .inline d false preamble entries⟩]
  | v => [⟨key, [], v⟩]
  termination_by structural v => v

def Value.pairs : List (Key × Value) → List Pair
  | [] => []
  | (key, v) :: rest => v.pairsAt key ++ Value.pairs rest
  termination_by structural entries => entries

end

theorem Value.pairsAt_of_isDotted_eq_false (key : Key) (h : v.isDotted = false) :
    v.pairsAt key = [⟨key, [], v⟩] := by
  cases v with
  | scalar | array => rw [Value.pairsAt]; all_goals simp
  | inline d dotted preamble entries =>
    obtain rfl : dotted = false := h
    simp [Value.pairsAt]

theorem Value.leaves_cons (key : Key) (v : Value) (rest : List (Key × Value)) :
    Value.leaves ((key, v) :: rest) = Value.leaves [(key, v)] ++ Value.leaves rest := by
  obtain ⟨_, _⟩ | ⟨_, _, _, _⟩ | ⟨_, dotted, _, _⟩ := v
  · rfl
  · rfl
  · cases dotted
    · rfl
    · simp [Value.leaves]

mutual

theorem Value.leaves_singleton (key : Key) (v : Value) :
    Value.leaves [(key, v)] = (v.pairsAt key).map Pair.leaf := by
  match v with
  | .scalar _ _ | .array _ _ _ _ | .inline _ false _ _ => rfl
  | .inline _ true _ entries =>
    rw [Value.leaves, Value.pairsAt, Value.leaves_eq entries]
    simp [Value.leaves, Function.comp_def, Pair.leaf, Pair.under, Leaf.under]
  termination_by structural v

theorem Value.leaves_eq (entries : List (Key × Value)) :
    Value.leaves entries = (Value.pairs entries).map Pair.leaf := by
  match entries with
  | [] => rfl
  | (key, v) :: rest =>
    rw [Value.leaves_cons, Value.leaves_singleton key v, Value.leaves_eq rest, Value.pairs, List.map_append]
  termination_by structural entries

end

/-! ### Reading -/

/-- The reader finds the value in front of whatever ends it. -/
def ReadsBack (read : Text.Reader Value) (v : Value) : Prop :=
  ∀ rest, EndsValue rest → read (v.shown.bare.toList ++ rest) = some ((v.reread .value).withDecor {}, rest)

theorem withDecor_reread (h : v.isDotted = false) (unset : Surround) :
    ((v.reread .value).withDecor {}).withDecor (v.decor.written unset) = v.reread unset := by
  cases v with
  | scalar | array => rfl
  | inline d dotted preamble entries =>
    obtain rfl : dotted = false := h
    simp [Value.reread, Value.withDecor, Value.decor]

theorem simpleValue_of_head (h : ∀ c ∈ cs.head?, c ∉ ['"', '\'', 't', 'f']) :
    simpleValue cs = (Numeral.scalar cs).map fun r => (.scalar {} r.1, r.2) := by
  unfold simpleValue
  split
  all_goals first | exact absurd (by decide) (h _ rfl) | rfl

/-- No number starts with a bracket. -/
theorem head_of_simpleValue {r : Value × List Char} (h : simpleValue cs = some r) :
    ∀ c ∈ cs.head?, c ∉ ['[', '\x7b'] := by
  intro c hc hmem
  obtain ⟨more, rfl⟩ := List.head?_eq_some_iff.1 hc
  have hall : ∀ c ∈ ['[', '\x7b'], c ∉ ['"', '\'', 't', 'f'] ∧ Text.isDigit c = false ∧
      c ∉ ['-', '+', 'i', 'n'] :=
    List.all_iff_forall_prop.1 (by decide)
  obtain ⟨hquote, hdigit, hsign⟩ := hall c hmem
  rw [simpleValue_of_head (by simpa using hquote), Numeral.scalar_eq_none hdigit hsign] at h
  simp at h

theorem valueWithin_of_head (h : ∀ c ∈ cs.head?, c ∉ ['[', '\x7b']) (depth : Nat) :
    valueWithin depth cs = simpleValue cs := by
  cases depth with
  | zero =>
    have hhead : (cs.head? == some '[' || cs.head? == some '\x7b') = false := by
      cases cs with
      | nil => rfl
      | cons c cs => simpa using h c rfl
    rw [valueWithin, hhead]
    rfl
  | succ depth =>
    unfold valueWithin
    split
    · exact absurd (by decide) (h _ rfl)
    · exact absurd (by decide) (h _ rfl)
    · rfl

/-- No value starts with a character that ends one. -/
theorem valueWithin_of_isDelimiter (h : isDelimiter c) (depth : Nat) (cs : List Char) :
    valueWithin depth (c :: cs) = none := by
  have hall : ∀ c ∈ [' ', '\t', '\n', '\r', '#', ',', ']', '\x7d'], c ∉ ['[', '\x7b'] ∧
      c ∉ ['"', '\'', 't', 'f'] ∧ Text.isDigit c = false ∧ c ∉ ['-', '+', 'i', 'n'] :=
    List.all_iff_forall_prop.1 (by decide)
  obtain ⟨hbracket, hquote, hdigit, hsign⟩ := hall c (Numeral.eq_of_isDelimiter h)
  rw [valueWithin_of_head (by simpa using hbracket), simpleValue_of_head (by simpa using hquote),
    Numeral.scalar_eq_none hdigit hsign]
  rfl

theorem ReadsBack.head (h : ReadsBack (valueWithin depth) v) (rest : List Char) :
    ∃ c more, v.shown.bare.toList ++ rest = c :: more ∧ isDelimiter c = false := by
  have hread := h [] trivial
  rw [List.append_nil] at hread
  cases htext : v.shown.bare.toList with
  | nil =>
    have hnone : simpleValue [] = none := rfl
    rw [htext, valueWithin_of_head (by simp), hnone] at hread
    exact absurd hread nofun
  | cons c more =>
    refine ⟨c, more ++ rest, rfl, Bool.eq_false_iff.2 fun hc => ?_⟩
    rw [htext, valueWithin_of_isDelimiter hc] at hread
    simp at hread

/-! ### Arrays -/

theorem Decor.IsGap.textBefore {d : Decor} (h : d.IsGap) (hunset : unset.IsBlank) :
    Toml.IsGap (d.textBefore unset) := by
  rw [Decor.textBefore]
  cases hbefore : d.before with
  | none => rw [Option.getD_none, hunset.1.withoutReturns]; exact hunset.1.isGap
  | some text => exact h.1 text hbefore

theorem Decor.IsGap.textAfter {d : Decor} (h : d.IsGap) (hunset : unset.IsBlank) :
    Toml.IsGap (d.textAfter unset) := by
  rw [Decor.textAfter]
  cases hafter : d.after with
  | none => rw [Option.getD_none, hunset.2.withoutReturns]; exact hunset.2.isGap
  | some text => exact h.2 text hafter

theorem head_of_gapState {after : Bool} (h : gapState false (c :: cs) = some after) :
    isSpace c ∨ c = '\n' ∨ c = '#' := by
  rw [gapState, if_neg (by simp)] at h
  split at h
  · next hblank =>
    simp only [Bool.or_eq_true, beq_iff_eq] at hblank
    rcases hblank with hblank | hblank
    · exact .inl hblank
    · exact .inr (.inl hblank)
  split at h
  · next hmark => exact .inr (.inr (by simpa using hmark))
  · simp at h

theorem isDelimiter_of_gapState {after : Bool} (h : gapState false (c :: cs) = some after) :
    isDelimiter c := by
  rcases head_of_gapState h with h | rfl | rfl
  · simp [isDelimiter, h]
  · decide
  · decide

/-- A value ends in front of a gap that a mark follows. -/
theorem endsValue_gap {text : String} (h : IsGap text) (hc : isDelimiter c) (hblank : c ≠ ' ')
    (cs : List Char) :
    EndsValue (text.toList ++ c :: cs) := by
  unfold IsGap at h
  match text.toList, h with
  | [], _ => exact ⟨hc, fun heq => absurd heq hblank⟩
  | [d], h => exact ⟨isDelimiter_of_gapState h, fun _ => by simpa using Numeral.isDigit_of_isDelimiter hc⟩
  | d :: e :: more, h =>
    refine ⟨isDelimiter_of_gapState h, ?_⟩
    rintro rfl
    have hnext : gapState false (e :: more) = some false := h
    simpa using Numeral.isDigit_of_isDelimiter (isDelimiter_of_gapState hnext)

theorem stopsGap_cons (h : isSpace c = false) (hc : c ∉ ['\n', '\r', '#']) (cs : List Char) :
    StopsGap (c :: cs) := by
  simp only [List.mem_cons, List.not_mem_nil, or_false, not_or] at hc
  simp [StopsGap, dropGapFrom, h, hc]

theorem Value.decor_shown (v : Value) : v.shown.decor = v.decor := by
  cases v <;> simp [Value.shown, Value.decor]

/-- The mark behind an element. -/
def IsMark (c : Char) : Prop := c = ',' ∨ c = ']'

/-- An element is read with the gaps around it, and what comes next hangs on the mark behind it. -/
theorem elementsFrom_element (hv : ReadsBack (valueWithin depth) v) (hdotted : v.isDotted = false)
    (hdecor : v.decor.IsGap) (hunset : unset.IsBlank) (hc : IsMark c) (afterComma : Bool) (fuel : Nat)
    (cs : List Char) :
    elementsFrom (valueWithin depth) afterComma (fuel + 1) ((v.shown.text unset).toList ++ c :: cs) =
      if c = ',' then (elementsFrom (valueWithin depth) true fuel cs).map fun r =>
        ({ r.1 with values := v.reread unset :: r.1.values }, r.2)
      else some (⟨[v.reread unset], false, ""⟩, cs) := by
  have hmark : isDelimiter c ∧ c ≠ ' ' ∧ isSpace c = false ∧ c ∉ ['\n', '\r', '#'] := by
    rcases hc with rfl | rfl <;> decide
  obtain ⟨hdelimiter, hblank, hspace, hline⟩ := hmark
  obtain ⟨d, more, hhead, hd⟩ := hv.head ((v.decor.textAfter unset).toList ++ c :: cs)
  have htext : (v.shown.text unset).toList ++ c :: cs =
      (v.decor.textBefore unset).toList ++
        (v.shown.bare.toList ++ ((v.decor.textAfter unset).toList ++ c :: cs)) := by
    simp [Shown.text, Value.decor_shown]
  have hstops : StopsGap (v.shown.bare.toList ++ ((v.decor.textAfter unset).toList ++ c :: cs)) := by
    simp only [isDelimiter, Bool.or_eq_false_iff, decide_eq_false_iff_not] at hd
    rw [hhead]
    exact stopsGap_cons hd.1 (fun hmem => hd.2 (List.mem_append_left [',', ']', '\x7d'] hmem)) more
  have hread := hv ((v.decor.textAfter unset).toList ++ c :: cs)
    (endsValue_gap (hdecor.textAfter hunset) hdelimiter hblank cs)
  rw [elementsFrom, htext, gap_append (hdecor.textBefore hunset) hstops, hhead]
  dsimp only
  split
  · next heq => exact absurd (List.cons.inj heq).1 (by rintro rfl; revert hd; decide)
  rw [← hhead, hread]
  simp only [Option.bind_eq_bind, Option.bind_some]
  rw [gap_append (hdecor.textAfter hunset) (stopsGap_cons hspace hline cs)]
  have hreread := withDecor_reread hdotted unset
  rw [Decor.written] at hreread
  rcases hc with rfl | rfl
  · simp only [hreread, if_pos]
    cases elementsFrom (valueWithin depth) true fuel cs <;> rfl
  · simp only [hreread]
    rfl

/-- The elements of an array, what its last comma leaves, and the text in front of the bracket. -/
def arrayText (unset : Surround) (vs : List Value) (comma : Bool) (trailing : String) : String :=
  Shown.elementsFrom unset (Value.shownElements vs) ++ (if comma && !vs.isEmpty then "," else "") ++ trailing

theorem arrayText_cons_cons (next : Value) (comma : Bool) (trailing : String) :
    (arrayText unset (v :: next :: vs) comma trailing).toList =
      (v.shown.text unset).toList ++ ',' :: (arrayText .value (next :: vs) comma trailing).toList := by
  simp [arrayText, Value.shownElements, Shown.elementsFrom]

theorem elementsFrom_append {trailing : String} {comma : Bool} (afterComma : Bool) (fuel : Nat)
    (hvs : ∀ v ∈ vs, (v.isDotted = false ∧ v.decor.IsGap) ∧ ReadsBack (valueWithin depth) v)
    (htrailing : IsGap trailing) (hcomma : comma = false → vs ≠ [] → trailing = "")
    (hunset : unset.IsBlank) (rest : List Char)
    (hfuel : (arrayText unset vs comma trailing).toList.length < fuel) :
    elementsFrom (valueWithin depth) afterComma fuel
        ((arrayText unset vs comma trailing).toList ++ ']' :: rest) =
      some (⟨Value.rereadAll unset vs, if vs.isEmpty then afterComma else comma, trailing⟩, rest) := by
  have hend (afterComma : Bool) (fuel : Nat) :
      elementsFrom (valueWithin depth) afterComma (fuel + 1) (trailing.toList ++ ']' :: rest) =
        some (⟨[], afterComma, trailing⟩, rest) := by
    rw [elementsFrom, gap_append htrailing (stopsGap_cons (by decide) (by decide) rest)]
    rfl
  induction vs generalizing unset afterComma fuel with
  | nil =>
    obtain ⟨fuel, rfl⟩ := Nat.exists_eq_add_one.2 (Nat.zero_lt_of_lt hfuel)
    simpa [arrayText, Value.shownElements, Shown.elementsFrom, Value.rereadAll] using hend afterComma fuel
  | cons v vs ih =>
    obtain ⟨fuel, rfl⟩ := Nat.exists_eq_add_one.2 (Nat.zero_lt_of_lt hfuel)
    obtain ⟨⟨hfirst, hread⟩, hvs⟩ := List.forall_mem_cons.1 hvs
    cases vs with
    | cons next vs =>
      rw [arrayText_cons_cons, List.length_append, List.length_cons] at hfuel
      have hlater := ih true fuel hvs (fun h _ => hcomma h (List.cons_ne_nil v _))
        Surround.isBlank_value (by omega)
      rw [arrayText_cons_cons, List.append_assoc, List.cons_append,
        elementsFrom_element hread hfirst.1 hfirst.2 hunset (.inl rfl), if_pos rfl, hlater]
      rfl
    | nil =>
      have hlast : (arrayText unset [v] comma trailing).toList ++ ']' :: rest = (v.shown.text unset).toList ++
          if comma then ',' :: (trailing.toList ++ ']' :: rest) else ']' :: rest := by
        cases comma with
        | true => simp [arrayText, Value.shownElements, Shown.elementsFrom]
        | false => simp [arrayText, Value.shownElements, Shown.elementsFrom, hcomma rfl]
      rw [hlast]
      cases comma with
      | true =>
        have hfuel' : 0 < fuel := by
          simp [arrayText, Value.shownElements, Shown.elementsFrom] at hfuel
          omega
        obtain ⟨fuel, rfl⟩ := Nat.exists_eq_add_one.2 hfuel'
        rw [if_pos rfl, elementsFrom_element hread hfirst.1 hfirst.2 hunset (.inl rfl), if_pos rfl, hend]
        rfl
      | false =>
        rw [if_neg (by simp), elementsFrom_element hread hfirst.1 hfirst.2 hunset (.inr rfl),
          if_neg (by decide), hcomma rfl (by simp)]
        rfl

/-! ### Tables in braces -/

/-- The pair is read where braces may open up to the depth. -/
structure Pair.ReadsBack (depth : Nat) (p : Pair) : Prop where
  keys : ∀ key ∈ p.first :: p.keys, key.IsLegible
  limit : p.keys.length + 1 < keyPartLimit
  around : p.last.decor.IsBlank
  isDotted : p.value.isDotted = false
  decor : p.value.decor.IsBlank
  value : Toml.ReadsBack (valueWithin depth) p.value

variable {p : Pair} {ps : List Pair}

/-- A value ends in front of blanks that a mark follows. -/
theorem endsValue_blank {text : String} (h : IsBlank text) (hc : isDelimiter c) (hblank : c ≠ ' ')
    (cs : List Char) : EndsValue (text.toList ++ c :: cs) :=
  endsValue_gap h.isGap hc hblank cs

theorem stopsPath_cons (h : c ∈ ['=', ']']) (cs : List Char) : StopsPath (c :: cs) := by
  have hall : ∀ c ∈ ['=', ']'], isSpace c = false ∧ isBareKeyChar c = false ∧ c ≠ '.' :=
    List.all_iff_forall_prop.1 (by decide)
  intro d hd
  obtain rfl : c = d := by simpa using hd
  exact hall c h

/-- What starts a key opens no table. -/
theorem head_of_isLegible (h : key.IsLegible) (cs : List Char) :
    ((key.shown.toList ++ cs).head? == some '\x7d') = false := by
  obtain ⟨c, hc, hhead⟩ := head_of_spells h.spells
  obtain ⟨more, hmore⟩ := List.head?_eq_some_iff.1 hc
  rw [hmore, List.cons_append, List.head?_cons, beq_eq_false_iff_ne, Ne, Option.some.injEq]
  rintro rfl
  revert hhead
  decide

/-- The text of a pair up to the value. -/
def Pair.pathText (unset : Surround) (p : Pair) : String := Toml.pathText unset (p.first :: p.keys)

theorem Pair.pathText_append (unset : Surround) (p : Pair) (cs : List Char) :
    (p.pathText unset).toList ++ cs = (p.last.decor.textBefore unset).toList ++
      (p.first.shown.toList ++ ((dottedTail unset p.first p.keys).toList ++ cs)) := by
  simp [Pair.pathText, Toml.pathText, Pair.last]

theorem keyPath_pathText (before : String) (unset : Surround)
    (hkeys : ∀ key ∈ p.first :: p.keys, key.IsLegible)
    (hlimit : p.keys.length + 1 < keyPartLimit) (hbefore : IsBlank before)
    (hafter : IsBlank (p.last.decor.textAfter unset)) (hrest : StopsPath rest) :
    keyPath (before.toList ++ (p.first.shown.toList ++ ((dottedTail unset p.first p.keys).toList ++ rest))) =
      some (rereadPath before unset p.first p.keys, rest) := by
  obtain ⟨hfirst, hkeys⟩ := List.forall_mem_cons.1 hkeys
  exact keyPath_append hbefore hfirst hkeys hafter hlimit hrest

theorem pairsFrom_pair (hp : p.ReadsBack depth) (hunset : unset.IsBlank) (hc : c = ',' ∨ c = '\x7d')
    (mayEnd : Bool) (fuel : Nat) (cs : List Char) :
    pairsFrom (valueWithin depth) mayEnd (fuel + 1)
        ((p.pathText .inlineKey).toList ++ '=' :: ((p.value.shown.text unset).toList ++ c :: cs)) =
      if c = ',' then (pairsFrom (valueWithin depth) false fuel cs).map fun r =>
        (("", p.assignment true .inlineKey unset :: r.1.2), r.2)
      else some (("", [p.assignment true .inlineKey unset]), cs) := by
  have hmark : isDelimiter c ∧ c ≠ ' ' ∧ isSpace c = false := by rcases hc with rfl | rfl <;> decide
  obtain ⟨hdelimiter, hblank, hspace⟩ := hmark
  have hbefore : IsBlank (p.last.decor.textBefore .inlineKey) :=
    hp.around.textBefore Surround.isBlank_inlineKey
  have htext : (p.value.shown.text unset).toList ++ c :: cs =
      (p.value.decor.textBefore unset).toList ++
        (p.value.shown.bare.toList ++ ((p.value.decor.textAfter unset).toList ++ c :: cs)) := by
    simp [Shown.text, Value.decor_shown]
  obtain ⟨d, more, hhead, hd⟩ := hp.value.head ((p.value.decor.textAfter unset).toList ++ c :: cs)
  have hstops : StopsBlank (p.value.shown.bare.toList ++
      ((p.value.decor.textAfter unset).toList ++ c :: cs)) := by
    rw [hhead]
    simp only [isDelimiter, Bool.or_eq_false_iff] at hd
    exact stopsBlank_cons hd.1 more
  have hfirst : p.first.IsLegible := hp.keys p.first List.mem_cons_self
  have hread := hp.value ((p.value.decor.textAfter unset).toList ++ c :: cs)
    (endsValue_blank (hp.decor.textAfter hunset) hdelimiter hblank cs)
  have hpath := keyPath_pathText _ .inlineKey hp.keys hp.limit hbefore
    (hp.around.textAfter Surround.isBlank_inlineKey)
    (stopsPath_cons (c := '=') (by decide) ((p.value.shown.text unset).toList ++ c :: cs))
  rw [Pair.pathText_append, pairsFrom, spaces_append hbefore (stopsBlank_spells hfirst.spells _)]
  dsimp only
  rw [head_of_isLegible hfirst, if_neg (by simp), hpath]
  simp only [Option.bind_eq_bind, Option.bind_some, Text.literal, if_pos]
  rw [htext, spaces_append (hp.decor.textBefore hunset) hstops]
  simp only [hread, Option.bind_some]
  rw [spaces_append (hp.decor.textAfter hunset) (stopsBlank_cons hspace cs)]
  have hreread := withDecor_reread hp.isDotted unset
  rw [Decor.written] at hreread
  rcases hc with rfl | rfl
  · simp only [hreread, if_pos]
    cases pairsFrom (valueWithin depth) false fuel cs <;> rfl
  · simp only [hreread]
    rfl

theorem pairsFrom_append (mayEnd : Bool) (fuel : Nat) (hps : ∀ p ∈ ps, p.ReadsBack depth) (hne : ps ≠ [])
    (rest : List Char) (hfuel : (Leaf.inlineText (ps.map Pair.leaf)).toList.length < fuel) :
    pairsFrom (valueWithin depth) mayEnd fuel
    ((Leaf.inlineText (ps.map Pair.leaf)).toList ++ '\x7d' :: rest) =
      some (("", Pair.inlineAssignments true .lastInline ps), rest) := by
  induction ps generalizing mayEnd fuel with
  | nil => exact absurd rfl hne
  | cons p ps ih =>
    obtain ⟨fuel, rfl⟩ := Nat.exists_eq_add_one.2 (Nat.zero_lt_of_lt hfuel)
    obtain ⟨hp, hps⟩ := List.forall_mem_cons.1 hps
    cases ps with
    | nil =>
      have htext : (Leaf.inlineText ([p].map Pair.leaf)).toList ++ '\x7d' :: rest =
          (p.pathText .inlineKey).toList ++ '=' ::
            ((p.value.shown.text .lastInline).toList ++ '\x7d' :: rest) := by
        simp [Leaf.inlineText, Pair.leaf, Pair.pathText]
      rw [htext, pairsFrom_pair hp Surround.isBlank_lastInline (.inr rfl), if_neg (by decide)]
      rfl
    | cons next ps =>
      have htext (cs : List Char) : (Leaf.inlineText ((p :: next :: ps).map Pair.leaf)).toList ++ cs =
          (p.pathText .inlineKey).toList ++ '=' :: ((p.value.shown.text .value).toList ++
            ',' :: ((Leaf.inlineText ((next :: ps).map Pair.leaf)).toList ++ cs)) := by
        simp [Leaf.inlineText, Pair.leaf, Pair.pathText]
      have hlength := congrArg List.length (htext [])
      simp only [List.append_nil, List.length_append, List.length_cons] at hlength
      have hlater := ih false fuel hps (List.cons_ne_nil _ _) (by omega)
      rw [htext, pairsFrom_pair hp Surround.isBlank_value (.inl rfl), if_pos rfl, hlater]
      rfl

/-! ### Entries that dotted keys group -/

/-- The assignment seen from above the key. -/
def Assignment.under (key : Key) (a : Assignment) : Assignment :=
  ⟨⟨key :: a.path.parents, a.path.last⟩, a.value⟩

theorem Pair.assignment_under (isTop : Bool) (unsetKey unset : Surround) (key : Key) (p : Pair) :
    (p.under key).assignment isTop unsetKey unset =
      (p.assignment false unsetKey unset).under (key.passed (key.before isTop)) := rfl

theorem Pair.inlineAssignments_under (isTop : Bool) (unset : Surround) (key : Key) (ps : List Pair) :
    inlineAssignments isTop unset (ps.map (Pair.under key)) =
      (inlineAssignments false unset ps).map (Assignment.under (key.passed (key.before isTop))) := by
  induction ps with
  | nil => rfl
  | cons p ps ih =>
    rw [List.map_cons, inlineAssignments, inlineAssignments, List.map_cons, Pair.assignment_under, ih,
      List.isEmpty_map]

theorem Pair.inlineAssignments_append (isTop : Bool) (unset : Surround) (ps : List Pair) {qs : List Pair}
    (hqs : qs ≠ []) : inlineAssignments isTop unset (ps ++ qs) =
      inlineAssignments isTop .value ps ++ inlineAssignments isTop unset qs := by
  induction ps with
  | nil => rfl
  | cons p ps ih =>
    rw [List.cons_append, inlineAssignments, inlineAssignments, ih, List.cons_append]
    simp [hqs]

namespace Value

theorem assignAll?_append (front back : List Assignment) (entries : List (Key × Value)) :
    assignAll? entries (front ++ back) =
    (assignAll? entries front).bind fun entries => assignAll? entries back := by
  induction front generalizing entries with
  | nil => rfl
  | cons a front ih =>
    rw [List.cons_append, assignAll?, assignAll?, Option.bind_assoc]
    exact congrArg _ (funext fun entries => ih entries)

theorem revise?_last {α : Type} {front : List (Key × α)} {content : α} {f : Option α → Option α}
    (h : find? key.name front = none) :
    revise? key f (front ++ [(key, content)]) =
      (f (some content)).map fun new => front ++ [(key, new)] := by
  induction front with
  | nil => simp [revise?]
  | cons entry front ih =>
    obtain ⟨other, old⟩ := entry
    rw [find?] at h
    split at h
    · simp at h
    · next hne => rw [List.cons_append, revise?, if_neg hne, ih h, Option.map_map]; rfl

/-- Assignments below one key change what stands under it. -/
theorem assignAll?_under {front : List (Key × Value)} (h : find? key.name front = none) (as : List Assignment)
    (inner : List (Key × Value)) :
    assignAll? (front ++ [(key, .inline {} true "" inner)]) (as.map (Assignment.under key)) =
      (assignAll? inner as).map fun inner => front ++ [(key, .inline {} true "" inner)] := by
  induction as generalizing inner with
  | nil => rfl
  | cons a as ih =>
    rw [List.map_cons, assignAll?, assignAll?, Assignment.under, assignIn?, revise?_last h]
    dsimp only
    cases hnext : assignIn? a.path.last a.value a.path.parents inner with
    | none => simp
    | some inner => simpa using ih inner

theorem assignAll?_under_new {front : List (Key × Value)} (h : find? key.name front = none)
    {as : List Assignment} (has : as ≠ []) :
    assignAll? front (as.map (Assignment.under key)) =
      (assignAll? [] as).map fun inner => front ++ [(key, .inline {} true "" inner)] := by
  obtain ⟨a, as, rfl⟩ := List.exists_cons_of_ne_nil has
  rw [List.map_cons, assignAll?, assignAll?, Assignment.under, assignIn?, revise?_of_new h]
  dsimp only
  cases hnext : assignIn? a.path.last a.value a.path.parents [] with
  | none => simp
  | some inner => simpa using assignAll?_under h as inner

mutual

theorem pairsAt_ne_nil (key : Key) (v : Value) (h : v.IsLegible) : v.pairsAt key ≠ [] := by
  match v with
  | .scalar _ _ | .array _ _ _ _ | .inline _ false _ _ => simp [pairsAt]
  | .inline _ true _ entries =>
    obtain ⟨hentries, -, hne⟩ := h
    simpa [pairsAt] using pairs_ne_nil entries hentries hne
  termination_by structural v

theorem pairs_ne_nil (entries : List (Key × Value)) (h : IsLegibleIn entries) (hne : entries ≠ []) :
    pairs entries ≠ [] := by
  match entries with
  | [] => exact absurd rfl hne
  | (key, v) :: rest =>
    rw [pairs]
    exact List.append_ne_nil_of_left_ne_nil (pairsAt_ne_nil key v h.2.1) _
  termination_by structural entries

end

theorem find?_append_none {α : Type} {name : String} {front : List (Key × α)} {other : Key} {content : α}
    (h : find? name front = none) (hname : other.name ≠ name) :
    find? name (front ++ [(other, content)]) = none := by
  rw [find?_append, h, Option.none_or, find?, if_neg hname]
  rfl

theorem name_reread (isTop : Bool) (unset : Surround) (isPassed : Bool) (key : Key) :
    (key.reread isTop unset isPassed).name = key.name := by
  cases isPassed <;> rfl

theorem assignAll?_pair (isTop : Bool) (unset : Surround) (key : Key) (v : Value) {front : List (Key × Value)}
    (hnew : find? key.name front = none) :
    assignAll? front (Pair.inlineAssignments isTop unset [⟨key, [], v⟩]) =
      some (front ++ [(key.reread isTop .inlineKey false, v.reread unset)]) := by
  have hnew' : find? (key.reread isTop .inlineKey false).name front = none := hnew
  have hinsert := revise?_of_new hnew' fun old => if old.isNone then some (v.reread unset) else none
  exact congrArg (·.bind some) hinsert

mutual

theorem assignAll?_pairsAt (isTop : Bool) (unset : Surround) (key : Key) (v : Value) (h : v.IsLegible)
    {front : List (Key × Value)} (hnew : find? key.name front = none) :
    assignAll? front (Pair.inlineAssignments isTop unset (v.pairsAt key)) =
      some (front ++ [(key.reread isTop .inlineKey v.isDotted, v.reread unset)]) := by
  match v with
  | .scalar _ _ | .array _ _ _ _ | .inline _ false _ _ =>
    rw [pairsAt_of_isDotted_eq_false key rfl]
    exact assignAll?_pair isTop unset key _ hnew
  | .inline _ true _ entries =>
    obtain ⟨hentries, hnodup, hne⟩ := h
    have hinner := assignAll?_pairs false unset entries hentries hnodup [] (fun _ _ => rfl)
    have hpairs : Pair.inlineAssignments false unset (pairs entries) ≠ [] := by
      obtain ⟨p, ps, hp⟩ := List.exists_cons_of_ne_nil (pairs_ne_nil entries hentries hne)
      simp [hp, Pair.inlineAssignments]
    have hnew' : find? (key.passed (key.before isTop)).name front = none := hnew
    simp only [pairsAt, if_pos]
    rw [Pair.inlineAssignments_under, assignAll?_under_new hnew' hpairs, hinner]
    simp [reread, isDotted, Key.reread]
  termination_by structural v

theorem assignAll?_pairs (isTop : Bool) (unset : Surround) (entries : List (Key × Value))
    (h : IsLegibleIn entries) (hnodup : (names entries).Nodup) (front : List (Key × Value))
    (hnew : ∀ name ∈ names entries, find? name front = none) :
    assignAll? front (Pair.inlineAssignments isTop unset (pairs entries)) =
      some (front ++ rereadIn isTop unset entries) := by
  match entries with
  | [] => simp [pairs, Pair.inlineAssignments, assignAll?, rereadIn]
  | (key, v) :: rest =>
    obtain ⟨-, hv, hrest⟩ := h
    obtain ⟨hkey, hnodup⟩ := List.nodup_cons.1 hnodup
    obtain ⟨hfirst, hlater⟩ := List.forall_mem_cons.1 hnew
    have hsplit : Pair.inlineAssignments isTop unset (v.pairsAt key ++ pairs rest) =
        Pair.inlineAssignments isTop (if rest.isEmpty then unset else .value) (v.pairsAt key) ++
          Pair.inlineAssignments isTop unset (pairs rest) := by
      cases rest with
      | nil => simp [pairs, Pair.inlineAssignments]
      | cons => exact Pair.inlineAssignments_append isTop unset _ (pairs_ne_nil _ hrest (by simp))
    have hrest' := assignAll?_pairs isTop unset rest hrest hnodup
      (front ++ [(key.reread isTop .inlineKey v.isDotted, v.reread (if rest.isEmpty then unset else .value))])
      (fun name hname => find?_append_none (hlater name hname)
        (by rw [name_reread]; rintro rfl; exact hkey hname))
    rw [pairs, hsplit, assignAll?_append, assignAll?_pairsAt isTop _ key v hv hfirst, Option.bind_some,
      hrest', rereadIn, List.append_assoc]
    rfl
  termination_by structural entries

end

/-! ### Values -/

/-- What is known of the pairs of a table in braces some keys down. -/
theorem Pair.readsBack_under (hkey : key.IsLegible) (hp : p.ReadsBack depth)
    (hlimit : p.keys.length + 2 < keyPartLimit) : (p.under key).ReadsBack depth where
  keys := List.forall_mem_cons.2 ⟨hkey, hp.keys⟩
  limit := hlimit
  around := hp.around
  isDotted := hp.isDotted
  decor := hp.decor
  value := hp.value

mutual

theorem readsBack_valueWithin (depth : Nat) (v : Value) (h : v.IsLegible) (hfits : v.fits depth) :
    ReadsBack (valueWithin depth) v := by
  intro rest hrest
  match v with
  | .scalar d s =>
    have hread : simpleValue (s.shown.toList ++ rest) = some (.scalar {} s.reread, rest) := h rest hrest
    have hbare : (shown (.scalar d s)).bare = s.shown := by rw [shown]
    rw [hbare, valueWithin_of_head (head_of_simpleValue hread), hread, reread, withDecor]
  | .array d elements comma trailing =>
    obtain ⟨helements, htrailing, hcomma⟩ := h
    obtain ⟨hdepth, hfit⟩ := Bool.and_eq_true_iff.1 hfits
    obtain ⟨depth, rfl⟩ := Nat.exists_eq_add_one.2 (of_decide_eq_true hdepth)
    have hall := readsBack_elements depth elements helements hfit
    have hread := elementsFrom_append false
      ((arrayText .firstElement elements comma (withoutReturns trailing)).toList.length + rest.length + 2)
      hall htrailing hcomma Surround.isBlank_firstElement rest (by omega)
    have htext : (shown (.array d elements comma trailing)).bare.toList ++ rest =
        '[' :: ((arrayText .firstElement elements comma (withoutReturns trailing)).toList ++ ']' ::
          rest) := by
      simp [shown, arrayText]
    rw [htext, valueWithin, List.length_append, List.length_cons, ← Nat.add_assoc, hread, reread, withDecor]
    cases elements <;> simp
  | .inline d false preamble entries =>
    obtain ⟨hentries, hnodup, hpreamble, hempty⟩ := h
    obtain ⟨hdepth, hfit⟩ := Bool.and_eq_true_iff.1 hfits
    obtain ⟨depth, rfl⟩ := Nat.exists_eq_add_one.2 (of_decide_eq_true hdepth)
    have hall := readsBack_pairs depth 0 entries hentries hfit
    have htext : (shown (.inline d false preamble entries)).bare.toList ++ rest =
        '\x7b' :: (preamble.toList ++ ((Leaf.inlineText ((pairs entries).map Pair.leaf)).toList ++
          '\x7d' :: rest)) := by
      simp [shown, hpreamble.withoutReturns, leaves_eq]
    rw [htext, valueWithin, reread, if_neg Bool.false_ne_true, withDecor]
    by_cases hne : entries = []
    · subst hne
      rw [pairs, List.map_nil, Leaf.inlineText, String.toList_empty, List.nil_append, pairsFrom,
        spaces_append hpreamble (stopsBlank_cons (by decide) _)]
      rfl
    · have hread := pairsFrom_append true
        ((Leaf.inlineText ((pairs entries).map Pair.leaf)).toList.length + rest.length + 2)
        (fun p hp => (hall p hp).1) (pairs_ne_nil entries hentries hne) rest (by omega)
      have hentries' := assignAll?_pairs true .lastInline entries hentries hnodup [] (fun _ _ => rfl)
      rw [hempty hne, String.toList_empty, List.nil_append, List.length_append, List.length_cons,
        ← Nat.add_assoc, hread]
      simp only [Option.bind_eq_bind, Option.bind_some, hentries', List.nil_append]
  termination_by structural v

theorem readsBack_elements (depth : Nat) (vs : List Value) (h : AreLegible vs) (hfit : allFit depth vs) :
    ∀ v ∈ vs, (v.isDotted = false ∧ v.decor.IsGap) ∧ ReadsBack (valueWithin depth) v := by
  match vs with
  | [] => simp
  | v :: vs =>
    obtain ⟨hfirst, hv, hvs⟩ := h
    obtain ⟨hfits, hfit⟩ := Bool.and_eq_true_iff.1 hfit
    exact List.forall_mem_cons.2 ⟨⟨hfirst, readsBack_valueWithin depth v hv hfits⟩,
      readsBack_elements depth vs hvs hfit⟩
  termination_by structural vs

theorem readsBack_pairs (depth parents : Nat) (entries : List (Key × Value)) (h : IsLegibleIn entries)
    (hfit : fitIn depth parents entries) :
    ∀ p ∈ pairs entries, p.ReadsBack depth ∧ parents + p.keys.length + 1 < keyPartLimit := by
  have hsingle {key : Key} {v : Value} (hkey : key.IsLegible) (hdecor : key.decor.IsBlank ∧ v.decor.IsBlank)
      (hdotted : v.isDotted = false) (hv : ReadsBack (valueWithin depth) v)
        (hlimit : parents + 1 < keyPartLimit) :
      ∀ p ∈ v.pairsAt key, p.ReadsBack depth ∧ parents + p.keys.length + 1 < keyPartLimit := by
    rw [pairsAt_of_isDotted_eq_false key hdotted, List.forall_mem_singleton]
    exact ⟨⟨List.forall_mem_singleton.2 hkey, Nat.lt_of_le_of_lt (Nat.le_add_left ..) hlimit,
      hdecor.1, hdotted, hdecor.2, hv⟩, hlimit⟩
  match entries with
  | [] => simp [pairs]
  | (key, .inline _ true _ inner) :: rest =>
    obtain ⟨⟨hkey, -⟩, ⟨hinner, -, -⟩, hrest⟩ := h
    obtain ⟨hfit, hfits⟩ := Bool.and_eq_true_iff.1 hfit
    have hbelow := readsBack_pairs depth (parents + 1) inner hinner hfit
    rw [pairs, List.forall_mem_append]
    refine ⟨?_, readsBack_pairs depth parents rest hrest hfits⟩
    simp only [pairsAt, if_pos, List.forall_mem_map]
    intro p hp
    obtain ⟨hp, hlimit⟩ := hbelow p hp
    have hlength : (p.under key).keys.length = p.keys.length + 1 := rfl
    exact ⟨Pair.readsBack_under hkey hp (by omega), by omega⟩
  | (key, .scalar d s) :: rest | (key, .array d elements comma trailing) :: rest
  | (key, .inline d false preamble inner) :: rest =>
    obtain ⟨⟨hkey, hdecor⟩, hv, hrest⟩ := h
    obtain ⟨hhere, hfits⟩ := Bool.and_eq_true_iff.1 hfit
    obtain ⟨hlimit, hvfits⟩ := Bool.and_eq_true_iff.1 hhere
    rw [pairs, List.forall_mem_append]
    exact ⟨hsingle hkey (hdecor rfl) rfl (readsBack_valueWithin depth _ hv hvfits) (of_decide_eq_true hlimit),
      readsBack_pairs depth parents rest hrest hfits⟩
  termination_by structural entries

end

end Value

end FeatureForwarding.Toml
