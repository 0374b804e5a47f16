import FeatureForwarding.Toml.Lexeme

/-! Numbers, dates and times. They are kept as spelled; reading decides only which of
them the text is and whether its value is admissible: integers fit 64 bits, dates are
days of the calendar, and no float without a minus sign rounds to infinity. -/

namespace FeatureForwarding.Toml.Numeral

open Text (Reader push isDigit number literal hexDigit?)

/-- Digits of which any two may have an underscore between them. -/
def digitsFrom (isDigit : Char → Bool) : Reader (List Char)
  | [] => some ([], [])
  | c :: cs =>
    if isDigit c then (digitsFrom isDigit cs).map (push c)
    else if c = '_' then if cs.head?.any isDigit then digitsFrom isDigit cs else none
    else some ([], c :: cs)

def digits (isDigit : Char → Bool) : Reader (List Char) := fun cs =>
  if cs.head?.any isDigit then digitsFrom isDigit cs else none

/-- Exactly `count` digits and their value. -/
def fixed (count : Nat) : Reader Nat := fun cs =>
  let ds := cs.take count
  if ds.length = count && ds.all isDigit then some (number ds, cs.drop count) else none

def upTo (limit : Nat) (read : Option (Nat × List Char)) : Option (Nat × List Char) :=
  read.filter fun r => r.1 ≤ limit

def daysInMonth (year month : Nat) : Nat :=
  if month = 2 then if year % 4 = 0 && (year % 100 != 0 || year % 400 = 0) then 29 else 28
  else if month ∈ [4, 6, 9, 11] then 30
  else 31

def date (cs : List Char) : Option (List Char) := do
  let (year, cs) ← fixed 4 cs
  let cs ← literal '-' cs
  let (month, cs) ← upTo 12 (fixed 2 cs)
  let cs ← literal '-' cs
  let (day, cs) ← upTo (daysInMonth year month) (fixed 2 cs)
  if 1 ≤ month && 1 ≤ day then some cs else none

def fraction : List Char → List Char
  | '.' :: c :: cs => if isDigit c then cs.dropWhile isDigit else '.' :: c :: cs
  | cs => cs

/-- A minute may have a leap second. -/
def time (cs : List Char) : Option (List Char) := do
  let (_, cs) ← upTo 23 (fixed 2 cs)
  let cs ← literal ':' cs
  let (_, cs) ← upTo 59 (fixed 2 cs)
  let cs ← literal ':' cs
  let (_, cs) ← upTo 60 (fixed 2 cs)
  some (fraction cs)

def numericOffset (cs : List Char) : Option (List Char) := do
  let (_, cs) ← upTo 23 (fixed 2 cs)
  let cs ← literal ':' cs
  let (_, cs) ← upTo 59 (fixed 2 cs)
  some cs

def offset : List Char → Option (List Char)
  | c :: cs =>
    if c = 'Z' || c = 'z' then some cs
    else if c = '+' || c = '-' then numericOffset cs
    else some (c :: cs)
  | [] => some []

/-- A date may be followed by a time, and that time by an offset; a time stands alone too. -/
def dateTime (cs : List Char) : Option (List Char) :=
  match date cs with
  | none => time cs
  | some rest =>
    match rest with
    | c :: next =>
      if c = 'T' || c = 't' || c = ' ' then
        match time next with
        | some next => offset next
        | none => some rest
      else some rest
    | [] => some rest

def sign : List Char → Bool × List Char
  | '-' :: cs => (true, cs)
  | '+' :: cs => (false, cs)
  | cs => (false, cs)

/-- Decimal digits without a leading zero. -/
def decimal : Reader (List Char)
  | '0' :: cs => some (['0'], cs)
  | cs => digits isDigit cs

structure Exponent where
  negative : Bool
  value : Nat

def exponent : Reader Exponent
  | c :: cs =>
    if c = 'e' || c = 'E' then
      let (negative, cs) := sign cs
      (digits isDigit cs).map fun (ds, rest) => (⟨negative, number ds⟩, rest)
    else none
  | [] => none

/-- The least number that rounds to infinity: half a unit above the largest double. -/
def infinityThreshold : Nat := Nat.pow 2 1024 - Nat.pow 2 970

/-- Whether the digits, read as an integer and scaled by a power of ten, stay below the
threshold. Only numbers of about its length are compared digit by digit. -/
def isFinite (ds : List Char) (places : Nat) (e : Exponent) : Bool :=
  let significant := ds.dropWhile (· == '0')
  let value := number significant
  let length := significant.length
  if value = 0 then true
  else if e.negative then
    if length < 300 + places + e.value then true
    else value < infinityThreshold * Nat.pow 10 (places + e.value)
  else if places ≤ e.value then
    length + (e.value - places) ≤ 310 && value * Nat.pow 10 (e.value - places) < infinityThreshold
  else if length < 300 + (places - e.value) then true
  else value < infinityThreshold * Nat.pow 10 (places - e.value)

/-- A float has a fraction or an exponent, or both. -/
def float (cs : List Char) : Option (List Char) := do
  let (negative, cs) := sign cs
  let (whole, cs) ← decimal cs
  match cs with
  | '.' :: cs =>
    let (places, cs) ← digits isDigit cs
    match exponent cs with
    | some (e, cs) => if negative || isFinite (whole ++ places) places.length e then some cs else none
    | none => if negative || isFinite (whole ++ places) places.length ⟨false, 0⟩ then some cs else none
  | cs =>
    let (e, cs) ← exponent cs
    if negative || isFinite whole 0 e then some cs else none

def specialFloat (cs : List Char) : Option (List Char) :=
  match (sign cs).2 with
  | 'i' :: 'n' :: 'f' :: cs => some cs
  | 'n' :: 'a' :: 'n' :: cs => some cs
  | _ => none

def radixNumber (radix : Nat) (digits : List Char) : Nat :=
  digits.foldl (fun n c => radix * n + (hexDigit? c).getD 0) 0

def radixInteger (radix : Nat) (cs : List Char) : Option (List Char) := do
  let (ds, cs) ← digits (fun c => (hexDigit? c).any (· < radix)) cs
  if radixNumber radix ds < Nat.pow 2 63 then some cs else none

def integer : List Char → Option (List Char)
  | '0' :: 'x' :: cs => radixInteger 16 cs
  | '0' :: 'o' :: cs => radixInteger 8 cs
  | '0' :: 'b' :: cs => radixInteger 2 cs
  | cs => do
    let (negative, cs) := sign cs
    let (ds, cs) ← decimal cs
    if number ds < Nat.pow 2 63 + (if negative then 1 else 0) then some cs else none

def spelled (kind : String → Scalar) (cs : List Char) (rest : Option (List Char)) :
    Option (Scalar × List Char) :=
  rest.map fun rest => (kind (consumed cs rest), rest)

/-- A number or a date; the first of the kinds that the text can be. -/
def scalar : Reader Scalar := fun cs =>
  spelled .dateTime cs (dateTime cs) <|> spelled .float cs (float cs)
    <|> spelled .float cs (specialFloat cs) <|> spelled .integer cs (integer cs)

end FeatureForwarding.Toml.Numeral
