import FeatureForwarding.Json.Printer
import FeatureForwarding.Json.Reader

/-! The text of a value reads back. A string is undone character by character, a container part by
part, whatever white space its layout puts around the marks. What comes back has its members in
order, which is all that a reader makes of them. -/

namespace FeatureForwarding.Json

open Text (Reader push hexDigit?)

variable {c x : Char} {cs more gap rest : List Char} {v : Json} {layout : Layout}
  {layouts : Nat → Layout}

/-! ### Strings -/

theorem hexDigit?_lowerHexDigit : ∀ n < 16, hexDigit? (lowerHexDigit n) = some n := by decide

/-- An escape that was read is passed over. -/
theorem stringFrom_append (escape rest : List Char) :
    stringFrom escape.length (escape ++ rest) = stringFrom 0 rest := by
  induction escape with
  | nil => rfl
  | cons c escape ih => exact ih

theorem stringFrom_escape (escape : List Char)
    (h : escape? (escape ++ rest) = some (x, escape.length)) :
    stringFrom 0 ('\\' :: (escape ++ rest)) = (stringFrom 0 rest).map (push x) := by
  rw [stringFrom, if_neg (by decide), if_pos rfl, h, Option.bind_some]
  simp only [stringFrom_append]

theorem escape?_control (h : c.toNat < 0x20) :
    escape? (['u', '0', '0', lowerHexDigit (c.toNat / 16), lowerHexDigit (c.toNat % 16)] ++ rest) =
      some (c, 5) := by
  have hhigh := hexDigit?_lowerHexDigit (c.toNat / 16) (by omega)
  have hlow := hexDigit?_lowerHexDigit (c.toNat % 16) (by omega)
  have hzero : hexDigit? '0' = some 0 := by decide
  have hvalue : 16 * (c.toNat / 16) + c.toNat % 16 = c.toNat := Nat.div_add_mod ..
  have hnumber : Text.hexNumber? 4 ('0' :: '0' :: lowerHexDigit (c.toNat / 16) ::
      lowerHexDigit (c.toNat % 16) :: rest) = some c.toNat := by
    simp [Text.hexNumber?, Text.hexNumberFrom, hhigh, hlow, hzero, hvalue]
  have hbasic : c.toNat < 0xD800 := by omega
  simp [escape?, unicodeEscape?, hnumber, hbasic]

theorem stringFrom_escapeChar (c : Char) (rest : List Char) :
    stringFrom 0 (escapeChar c ++ rest) = (stringFrom 0 rest).map (push c) := by
  unfold escapeChar
  split
  · next h => subst h; exact stringFrom_escape ['"'] rfl
  split
  · next h => subst h; exact stringFrom_escape ['\\'] rfl
  split
  · next h => subst h; exact stringFrom_escape ['b'] rfl
  split
  · next h => subst h; exact stringFrom_escape ['f'] rfl
  split
  · next h => subst h; exact stringFrom_escape ['n'] rfl
  split
  · next h => subst h; exact stringFrom_escape ['r'] rfl
  split
  · next h => subst h; exact stringFrom_escape ['t'] rfl
  split
  · next h => exact stringFrom_escape _ (escape?_control h)
  · next hquote hslash _ _ _ _ _ hplain =>
    rw [List.singleton_append, stringFrom, if_neg hquote, if_neg hslash, if_neg hplain]

theorem stringFrom_escaped (cs rest : List Char) :
    stringFrom 0 (cs.flatMap escapeChar ++ '"' :: rest) = some (cs, rest) := by
  induction cs with
  | nil => rfl
  | cons c cs ih => rw [List.flatMap_cons, List.append_assoc, stringFrom_escapeChar, ih]; rfl

theorem readString_quote (content : String) (rest : List Char) :
    readString ((quote content).toList ++ rest) = some (content, rest) := by
  simp [readString, quote, Text.literal, stringFrom_escaped]

/-! ### White space -/

/-- Nothing but white space. -/
def IsGap (gap : List Char) : Prop := ∀ c ∈ gap, isSpace c

/-- Nothing but white space is added to the marks. -/
structure Layout.IsLoose (layout : Layout) : Prop where
  opening : IsGap layout.opening.toList
  separator : ∃ gap, layout.separator.toList = ',' :: gap ∧ IsGap gap
  closing : IsGap layout.closing.toList
  colon : ∃ gap, layout.colon.toList = ':' :: gap ∧ IsGap gap

theorem isGap_indentation (n : Nat) : IsGap ('\n' :: List.replicate n ' ') := by
  intro c hc
  rcases List.mem_cons.1 hc with rfl | hc
  · rfl
  · rw [(List.mem_replicate.1 hc).2]
    rfl

theorem isLoose_indented (depth : Nat) : (Layout.indented depth).IsLoose where
  opening := by simpa [Layout.indented] using isGap_indentation (2 * (depth + 1))
  separator := ⟨_, by simp [Layout.indented], isGap_indentation (2 * (depth + 1))⟩
  closing := by simpa [Layout.indented] using isGap_indentation (2 * depth)
  colon := ⟨[' '], by simp [Layout.indented], by simp [IsGap, isSpace]⟩

theorem dropSpace_gap (h : IsGap gap) (cs : List Char) : dropSpace (gap ++ cs) = dropSpace cs :=
  List.dropWhile_append_of_pos h

theorem dropSpace_cons (h : isSpace c = false) (cs : List Char) : dropSpace (c :: cs) = c :: cs := by
  simp [dropSpace, h]

theorem elementsFrom_gap (h : IsGap gap) (value : Reader Json) (mayEnd : Bool) (fuel : Nat)
    (cs : List Char) :
    elementsFrom value mayEnd fuel (gap ++ cs) = elementsFrom value mayEnd fuel cs := by
  cases fuel <;> simp only [elementsFrom, dropSpace_gap h]

theorem membersFrom_gap (h : IsGap gap) (value : Reader Json) (mayEnd : Bool) (fuel : Nat)
    (cs : List Char) :
    membersFrom value mayEnd fuel (gap ++ cs) = membersFrom value mayEnd fuel cs := by
  cases fuel <;> simp only [membersFrom, dropSpace_gap h]

/-! ### Containers -/

theorem toList_enclose_nil (layout : Layout) (left right : String) :
    (layout.enclose left right []).toList = left.toList ++ right.toList := by
  simp [Layout.enclose]

theorem toList_enclose_cons (layout : Layout) (left right part : String) (parts : List String) :
    (layout.enclose left right (part :: parts)).toList =
      left.toList ++ (layout.opening.toList ++ ((layout.separator.intercalate (part :: parts)).toList ++
        (layout.closing.toList ++ right.toList))) := by
  simp [Layout.enclose]

theorem exists_head_enclose (layout : Layout) (left right : String) (parts : List String) :
    ∃ tail, (layout.enclose left right parts).toList = left.toList ++ tail := by
  cases parts with
  | nil => exact ⟨_, toList_enclose_nil ..⟩
  | cons part parts => exact ⟨_, toList_enclose_cons ..⟩

theorem length_elementTexts (layouts : Nat → Layout) (depth : Nat) (vs : List Json) :
    (elementTexts layouts depth vs).length = vs.length := by
  induction vs with
  | nil => rfl
  | cons v vs ih => simp [elementTexts, ih]

theorem length_memberTexts (layouts : Nat → Layout) (depth : Nat) (ms : List (String × Json)) :
    (memberTexts layouts depth ms).length = ms.length := by
  induction ms with
  | nil => rfl
  | cons m ms ih => simp [memberTexts, ih]

/-- Each part but the first has a comma in front, so that the length of the text bounds the number
of parts. -/
theorem length_le_intercalate (h : layout.IsLoose) (parts : List String) :
    parts.length ≤ (layout.separator.intercalate parts).toList.length + 1 := by
  obtain ⟨gap, hcomma, -⟩ := h.separator
  induction parts with
  | nil => simp
  | cons part parts ih =>
    cases parts with
    | nil => simp
    | cons next parts =>
      rw [String.intercalate_cons_cons]
      simp only [String.toList_append, List.length_append, hcomma, List.length_cons] at ih ⊢
      omega

theorem valueWithin_bracket (limit : Nat) (cs : List Char) :
    valueWithin (limit + 1) ('[' :: cs) =
      (elementsFrom (valueWithin limit) true (cs.length + 1) cs).map fun (vs, rest) =>
        (.array vs, rest) := by
  simp [valueWithin, dropSpace, isSpace]

theorem valueWithin_brace (limit : Nat) (cs : List Char) :
    valueWithin (limit + 1) ('\x7b' :: cs) =
      (membersFrom (valueWithin limit) true (cs.length + 1) cs).map fun (ms, rest) =>
        (ofMembers ms, rest) := by
  simp [valueWithin, dropSpace, isSpace]

theorem elementsFrom_cons {value : Reader Json} {mayEnd : Bool} {fuel : Nat}
    (hhead : ∃ c tail, cs = c :: tail ∧ isSpace c = false ∧ c ≠ ']')
    (hvalue : value cs = some (v, more)) :
    elementsFrom value mayEnd (fuel + 1) cs =
      match dropSpace more with
      | ',' :: cs => (elementsFrom value false fuel cs).map fun (vs, rest) => (v :: vs, rest)
      | ']' :: rest => some ([v], rest)
      | _ => none := by
  obtain ⟨c, tail, rfl, hspace, hend⟩ := hhead
  rw [elementsFrom, dropSpace_cons hspace]
  split
  · next heq => exact absurd (List.cons.inj heq).1 hend
  · rw [hvalue]
    rfl

theorem membersFrom_cons {value : Reader Json} {mayEnd : Bool} {fuel : Nat} {name : String}
    (h : layout.IsLoose) (hstart : dropSpace cs = cs) (hvalue : value cs = some (v, more)) :
    membersFrom value mayEnd (fuel + 1) ((quote name).toList ++ (layout.colon.toList ++ cs)) =
      match dropSpace more with
      | ',' :: cs => (membersFrom value false fuel cs).map fun (ms, rest) => ((name, v) :: ms, rest)
      | '\x7d' :: rest => some ([(name, v)], rest)
      | _ => none := by
  obtain ⟨gap, hmark, hgap⟩ := h.colon
  have hquote (cs : List Char) : dropSpace ((quote name).toList ++ cs) = (quote name).toList ++ cs := by
    simp [quote, dropSpace, isSpace]
  rw [membersFrom, hquote]
  split
  · next heq => simp [quote] at heq
  · simp only [readString_quote, hmark, Option.bind_eq_bind, Option.bind_some, List.cons_append,
      Text.literal, dropSpace_cons (c := ':') (by decide), if_true, dropSpace_gap hgap, hstart]
    rw [hvalue]
    rfl

/-! ### Values -/

mutual

/-- Members stand in order, the last of equal names only. -/
def canonical : Json → Json
  | .array elements => .array (canonicalElements elements)
  | .object members => ofMembers (canonicalMembers members)
  | value => value
  termination_by structural value => value

def canonicalElements : List Json → List Json
  | [] => []
  | v :: vs => canonical v :: canonicalElements vs
  termination_by structural vs => vs

def canonicalMembers : List (String × Json) → List (String × Json)
  | [] => []
  | (name, v) :: rest => (name, canonical v) :: canonicalMembers rest
  termination_by structural members => members

end

mutual

/-- Whether the value holds no numbers and opens at most so many brackets at a time. -/
def nests : Json → Nat → Bool
  | .number _, _ => false
  | .array _, 0 => false
  | .object _, 0 => false
  | .array elements, limit + 1 => nestsAll elements limit
  | .object members, limit + 1 => nestsIn members limit
  | _, _ => true
  termination_by structural value => value

def nestsAll : List Json → Nat → Bool
  | [], _ => true
  | v :: vs, limit => nests v limit && nestsAll vs limit
  termination_by structural vs => vs

def nestsIn : List (String × Json) → Nat → Bool
  | [], _ => true
  | (_, v) :: rest, limit => nests v limit && nestsIn rest limit
  termination_by structural members => members

end

/-- A value starts neither with white space nor with the end of a list. -/
theorem exists_head_textWith (layouts : Nat → Layout) (depth : Nat) {limit : Nat} (h : v.nests limit) :
    ∃ c tail, (textWith layouts depth v).toList = c :: tail ∧ isSpace c = false ∧ c ≠ ']' := by
  cases v with
  | null => exact ⟨'n', _, by simp [textWith]; rfl, by decide, by decide⟩
  | boolean value =>
    cases value with
    | false => exact ⟨'f', _, by simp [textWith]; rfl, by decide, by decide⟩
    | true => exact ⟨'t', _, by simp [textWith]; rfl, by decide, by decide⟩
  | number value => simp [nests] at h
  | string content => exact ⟨'"', _, by simp [textWith, quote]; rfl, by decide, by decide⟩
  | array elements =>
    obtain ⟨tail, htail⟩ :=
      exists_head_enclose (layouts depth) "[" "]" (elementTexts layouts (depth + 1) elements)
    exact ⟨'[', tail, by simp [textWith, htail], by decide, by decide⟩
  | object members =>
    obtain ⟨tail, htail⟩ :=
      exists_head_enclose (layouts depth) "\x7b" "\x7d" (memberTexts layouts depth members)
    exact ⟨'\x7b', tail, by simp [textWith, htail], by decide, by decide⟩

theorem dropSpace_textWith (layouts : Nat → Layout) (depth : Nat) {limit : Nat} (h : v.nests limit)
    (rest : List Char) :
    dropSpace ((textWith layouts depth v).toList ++ rest) =
      (textWith layouts depth v).toList ++ rest := by
  obtain ⟨c, tail, htext, hspace, -⟩ := exists_head_textWith layouts depth h
  rw [htext, List.cons_append, dropSpace_cons hspace]

section

variable (hloose : ∀ depth, (layouts depth).IsLoose)
include hloose

mutual

theorem valueWithin_textWith (depth : Nat) (v : Json) (limit : Nat) (h : v.nests limit)
    (rest : List Char) :
    valueWithin limit ((textWith layouts depth v).toList ++ rest) = some (v.canonical, rest) := by
  cases v with
  | null => cases limit <;> simp [textWith, valueWithin, dropSpace, isSpace, simpleValue, canonical]
  | boolean value =>
    cases value <;> cases limit <;>
      simp [textWith, valueWithin, dropSpace, isSpace, simpleValue, canonical]
  | number value => simp [nests] at h
  | string content =>
    have hread := readString_quote content rest
    cases limit <;>
      simp_all [textWith, quote, valueWithin, dropSpace, isSpace, simpleValue, canonical]
  | array elements =>
    cases limit with
    | zero => simp [nests] at h
    | succ limit =>
      rw [nests] at h
      rw [textWith, canonical]
      cases elements with
      | nil =>
        simp [elementTexts, toList_enclose_nil, valueWithin_bracket, elementsFrom, dropSpace, isSpace,
          canonicalElements]
      | cons v vs =>
        have hlength :=
          length_le_intercalate (hloose depth) (elementTexts layouts (depth + 1) (v :: vs))
        have hread {fuel : Nat} (hfuel : (v :: vs).length ≤ fuel) :=
          elementsFrom_elementTexts depth (v :: vs) limit h nofun true hfuel rest
        rw [length_elementTexts] at hlength
        rw [elementTexts] at hlength hread ⊢
        simp only [toList_enclose_cons, String.reduceToList, List.cons_append, List.nil_append,
          List.append_assoc, valueWithin_bracket]
        rw [elementsFrom_gap (hloose depth).opening,
          hread (by simp only [List.length_append] at hlength ⊢; omega)]
        rfl
  | object members =>
    cases limit with
    | zero => simp [nests] at h
    | succ limit =>
      rw [nests] at h
      rw [textWith, canonical]
      cases members with
      | nil =>
        simp [memberTexts, toList_enclose_nil, valueWithin_brace, membersFrom, dropSpace, isSpace,
          canonicalMembers]
      | cons member members =>
        obtain ⟨name, v⟩ := member
        have hlength :=
          length_le_intercalate (hloose depth) (memberTexts layouts depth ((name, v) :: members))
        have hread {fuel : Nat} (hfuel : ((name, v) :: members).length ≤ fuel) :=
          membersFrom_memberTexts depth ((name, v) :: members) limit h nofun true hfuel rest
        rw [length_memberTexts] at hlength
        rw [memberTexts] at hlength hread ⊢
        simp only [toList_enclose_cons, String.reduceToList, List.cons_append, List.nil_append,
          List.append_assoc, valueWithin_brace]
        rw [membersFrom_gap (hloose depth).opening,
          hread (by simp only [List.length_append] at hlength ⊢; omega)]
        rfl
  termination_by structural v

theorem elementsFrom_elementTexts (depth : Nat) (vs : List Json) (limit : Nat) (h : nestsAll vs limit)
    (hne : vs ≠ []) (mayEnd : Bool) {fuel : Nat} (hfuel : vs.length ≤ fuel) (rest : List Char) :
    elementsFrom (valueWithin limit) mayEnd fuel
      (((layouts depth).separator.intercalate (elementTexts layouts (depth + 1) vs)).toList ++
        ((layouts depth).closing.toList ++ ']' :: rest)) = some (canonicalElements vs, rest) := by
  match vs, fuel with
  | [], _ => exact absurd rfl hne
  | [v], 0 => simp at hfuel
  | v :: w :: vs, 0 => simp at hfuel
  | [v], fuel + 1 =>
    have hv : v.nests limit := by simpa [nestsAll] using h
    obtain ⟨c, tail, htext, hspace, hend⟩ := exists_head_textWith layouts (depth + 1) hv
    rw [elementTexts, elementTexts, String.intercalate_singleton,
      elementsFrom_cons ⟨c, _, by rw [htext, List.cons_append], hspace, hend⟩
        (valueWithin_textWith (depth + 1) v limit hv _),
      dropSpace_gap (hloose depth).closing, dropSpace_cons (by decide)]
    rfl
  | v :: w :: vs, fuel + 1 =>
    have ⟨hv, hvs⟩ : v.nests limit ∧ nestsAll (w :: vs) limit := by
      simpa only [nestsAll, Bool.and_eq_true] using h
    obtain ⟨c, tail, htext, hspace, hend⟩ := exists_head_textWith layouts (depth + 1) hv
    obtain ⟨gap, hcomma, hgap⟩ := (hloose depth).separator
    have hlater :=
      elementsFrom_elementTexts depth (w :: vs) limit hvs nofun false (Nat.le_of_succ_le_succ hfuel) rest
    rw [elementTexts, elementTexts, String.intercalate_cons_cons, ← elementTexts]
    simp only [String.toList_append, List.append_assoc]
    rw [elementsFrom_cons ⟨c, _, by rw [htext, List.cons_append], hspace, hend⟩
        (valueWithin_textWith (depth + 1) v limit hv _),
      hcomma, List.cons_append, dropSpace_cons (by decide)]
    simp only [elementsFrom_gap hgap, hlater]
    rfl
  termination_by structural vs

theorem membersFrom_memberTexts (depth : Nat) (ms : List (String × Json)) (limit : Nat)
    (h : nestsIn ms limit) (hne : ms ≠ []) (mayEnd : Bool) {fuel : Nat} (hfuel : ms.length ≤ fuel)
    (rest : List Char) :
    membersFrom (valueWithin limit) mayEnd fuel
      (((layouts depth).separator.intercalate (memberTexts layouts depth ms)).toList ++
        ((layouts depth).closing.toList ++ '\x7d' :: rest)) = some (canonicalMembers ms, rest) := by
  match ms, fuel with
  | [], _ => exact absurd rfl hne
  | [(name, v)], 0 => simp at hfuel
  | (name, v) :: m :: ms, 0 => simp at hfuel
  | [(name, v)], fuel + 1 =>
    have hv : v.nests limit := by simpa [nestsIn] using h
    rw [memberTexts, memberTexts, String.intercalate_singleton]
    simp only [String.toList_append, List.append_assoc]
    rw [membersFrom_cons (hloose depth) (dropSpace_textWith layouts (depth + 1) hv _)
        (valueWithin_textWith (depth + 1) v limit hv _),
      dropSpace_gap (hloose depth).closing, dropSpace_cons (by decide)]
    rfl
  | (name, v) :: m :: ms, fuel + 1 =>
    have ⟨hv, hms⟩ : v.nests limit ∧ nestsIn (m :: ms) limit := by
      simpa only [nestsIn, Bool.and_eq_true] using h
    obtain ⟨gap, hcomma, hgap⟩ := (hloose depth).separator
    have hlater :=
      membersFrom_memberTexts depth (m :: ms) limit hms nofun false (Nat.le_of_succ_le_succ hfuel) rest
    obtain ⟨next, later, hnext⟩ : ∃ next later, memberTexts layouts depth (m :: ms) = next :: later :=
      ⟨_, _, rfl⟩
    rw [hnext] at hlater
    rw [memberTexts, hnext, String.intercalate_cons_cons]
    simp only [String.toList_append, List.append_assoc]
    rw [membersFrom_cons (hloose depth) (dropSpace_textWith layouts (depth + 1) hv _)
        (valueWithin_textWith (depth + 1) v limit hv _),
      hcomma, List.cons_append, dropSpace_cons (by decide)]
    simp only [membersFrom_gap hgap, hlater]
    rfl
  termination_by structural ms

end

/-- A text of a value reads back, also with white space behind it. -/
theorem read?_textWith (depth : Nat) (h : v.nests nestingLimit) {behind : String}
    (hbehind : IsGap behind.toList) :
    read? (textWith layouts depth v ++ behind) = some v.canonical := by
  have hend : dropSpace behind.toList = [] := by
    rw [← List.append_nil behind.toList, dropSpace_gap hbehind]
    rfl
  rw [read?, String.toList_append, valueWithin_textWith hloose depth v nestingLimit h]
  simp [hend]

end

end FeatureForwarding.Json
