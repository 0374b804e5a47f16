import FeatureForwarding.Json.Basic
import FeatureForwarding.NameMap
import FeatureForwarding.Text.Reader

/-! Reading JSON. The text holds one value with nothing but white space around it. Values
nest up to a fixed depth, the last of equal member names counts, escapes spell whole
characters, and a number that rounds to infinity is refused. -/

namespace FeatureForwarding.Json

open Text (Reader push literal isDigit hexNumber?)

/-- Arrays and objects nest at most this deeply. -/
def nestingLimit : Nat := 127

def isSpace (c : Char) : Bool := c == ' ' || c == '\n' || c == '\t' || c == '\r'

def dropSpace (cs : List Char) : List Char := cs.dropWhile isSpace

/-- A character beyond the basic plane is spelled as a pair of surrogates. -/
def unicodeEscape? (cs : List Char) : Option (Char × Nat) :=
  (hexNumber? 4 cs).bind fun high =>
    if high < 0xD800 || 0xE000 ≤ high then some (Char.ofNat high, 4)
    else if 0xDC00 ≤ high then none
    else
      match cs.drop 4 with
      | '\\' :: 'u' :: cs => (hexNumber? 4 cs).bind fun low =>
        if 0xDC00 ≤ low && low < 0xE000 then
          some (Char.ofNat (0x10000 + (high - 0xD800) * 0x400 + (low - 0xDC00)), 10)
        else none
      | _ => none

/-- The character that an escape stands for and the number of characters behind the
backslash that spell it. -/
def escape? : List Char → Option (Char × Nat)
  | [] => none
  | c :: cs =>
    if c = '"' || c = '\\' || c = '/' then some (c, 1)
    else if c = 'b' then some ('\x08', 1)
    else if c = 'f' then some ('\x0c', 1)
    else if c = 'n' then some ('\n', 1)
    else if c = 'r' then some ('\r', 1)
    else if c = 't' then some ('\t', 1)
    else if c = 'u' then (unicodeEscape? cs).map fun (x, n) => (x, n + 1)
    else none

/-- The rest of a string; `skip` characters belong to an escape that was read. -/
def stringFrom (skip : Nat) : Reader (List Char)
  | [] => none
  | c :: cs =>
    match skip with
    | skip + 1 => stringFrom skip cs
    | 0 =>
      if c = '"' then some ([], cs)
      else if c = '\\' then (escape? cs).bind fun (x, n) => (stringFrom n cs).map (push x)
      else if c.toNat < 0x20 then none
      else (stringFrom 0 cs).map (push c)

def readString : Reader String := fun cs =>
  (literal '"' cs).bind fun cs =>
    (stringFrom 0 cs).map fun (content, rest) => (String.ofList content, rest)

/-- The parts of a number as written. -/
structure Numeral where
  negative : Bool
  whole : List Char
  places : Option (List Char)
  power : Option (Bool × List Char)

def digits : Reader (List Char) := fun cs =>
  let ds := cs.takeWhile isDigit
  if ds.isEmpty then none else some (ds, cs.dropWhile isDigit)

/-- Whole numbers have no zero in front. -/
def wholeDigits : Reader (List Char)
  | '0' :: cs => if cs.head?.any isDigit then none else some (['0'], cs)
  | cs => digits cs

def placesDigits : Reader (Option (List Char))
  | '.' :: cs => (digits cs).map fun (ds, rest) => (some ds, rest)
  | cs => some (none, cs)

def powerDigits : Reader (Option (Bool × List Char))
  | c :: cs =>
    if c = 'e' || c = 'E' then
      match cs with
      | '+' :: cs => (digits cs).map fun (ds, rest) => (some (false, ds), rest)
      | '-' :: cs => (digits cs).map fun (ds, rest) => (some (true, ds), rest)
      | cs => (digits cs).map fun (ds, rest) => (some (false, ds), rest)
    else some (none, c :: cs)
  | [] => some (none, [])

def numeral : Reader Numeral := fun cs => do
  let (negative, cs) := match cs with
    | '-' :: cs => (true, cs)
    | cs => (false, cs)
  let (whole, cs) ← wholeDigits cs
  let (places, cs) ← placesDigits cs
  let (power, cs) ← powerDigits cs
  some (⟨negative, whole, places, power⟩, cs)

/-- Significands have 64 bits. -/
def significandLimit : Nat := Nat.pow 2 64

/-- Takes digits up as long as the significand stays below its limit and returns those that
are left. -/
def takeUp (significand : Nat) : List Char → Nat × List Char
  | [] => (significand, [])
  | c :: cs =>
    let next := 10 * significand + (c.toNat - 48)
    if next < significandLimit then takeUp next cs else (significand, c :: cs)

def signed (negative : Bool) (d : Double) : Number :=
  .double (if negative then d.negate else d)

/-- Powers of ten are 32-bit numbers; a power beyond them leaves zero or nothing. -/
def powerLimit : Nat := Nat.pow 2 31 - 1

def clampPower (e : Int) : Int :=
  max (-(powerLimit : Int) - 1) (min powerLimit e)

/-- Digits beyond the significand count as zeros in front of the point and are dropped behind it. -/
def Numeral.value? (n : Numeral) : Option Number :=
  let (whole, dropped) := takeUp 0 n.whole
  match n.places, n.power with
  | none, none =>
    if !dropped.isEmpty then (Double.ofDecimal? whole dropped.length).map (signed n.negative)
    else if !n.negative then some (.natural whole)
    else if whole = 0 || Nat.pow 2 63 < whole then (Double.ofDecimal? whole 0).map (signed true)
    else some (.negative whole)
  | places, power =>
    let (significand, unused) := takeUp whole (places.getD [])
    let scale : Int := (dropped.length : Int) - ((places.getD []).length - unused.length : Nat)
    match power with
    | none => (Double.ofDecimal? significand scale).map (signed n.negative)
    | some (below, ds) =>
      if powerLimit < Text.number ds then
        if significand = 0 || below then some (signed n.negative .zero) else none
      else
        let e := clampPower (if below then scale - Text.number ds else scale + Text.number ds)
        (Double.ofDecimal? significand e).map (signed n.negative)

def simpleValue : Reader Json
  | '"' :: cs => (readString ('"' :: cs)).map fun (content, rest) => (.string content, rest)
  | 'n' :: 'u' :: 'l' :: 'l' :: cs => some (.null, cs)
  | 't' :: 'r' :: 'u' :: 'e' :: cs => some (.boolean true, cs)
  | 'f' :: 'a' :: 'l' :: 's' :: 'e' :: cs => some (.boolean false, cs)
  | cs => (numeral cs).bind fun (n, rest) => n.value?.map fun value => (.number value, rest)

/-- The elements behind the bracket; `mayEnd` is only true in front of the first. -/
def elementsFrom (value : Reader Json) (mayEnd : Bool) : Nat → Reader (List Json)
  | 0, _ => none
  | fuel + 1, cs =>
    match dropSpace cs with
    | ']' :: rest => if mayEnd then some ([], rest) else none
    | cs => do
      let (v, cs) ← value cs
      match dropSpace cs with
      | ',' :: cs => (elementsFrom value false fuel cs).map fun (vs, rest) => (v :: vs, rest)
      | ']' :: rest => some ([v], rest)
      | _ => none

/-- The members behind the brace in the order of the text. -/
def membersFrom (value : Reader Json) (mayEnd : Bool) : Nat → Reader (List (String × Json))
  | 0, _ => none
  | fuel + 1, cs =>
    match dropSpace cs with
    | '\x7d' :: rest => if mayEnd then some ([], rest) else none
    | cs => do
      let (name, cs) ← readString cs
      let cs ← literal ':' (dropSpace cs)
      let (v, cs) ← value (dropSpace cs)
      match dropSpace cs with
      | ',' :: cs => (membersFrom value false fuel cs).map fun (ms, rest) => ((name, v) :: ms, rest)
      | '\x7d' :: rest => some ([(name, v)], rest)
      | _ => none

/-- The last of equal names counts. -/
def ofMembers (members : List (String × Json)) : Json :=
  .object (NameMap.ofList members).entries

/-- The parameter is the number of brackets that may still be opened. -/
def valueWithin : Nat → Reader Json
  | 0, cs =>
    let cs := dropSpace cs
    if cs.head? == some '[' || cs.head? == some '\x7b' then none else simpleValue cs
  | depth + 1, cs =>
    match dropSpace cs with
    | '[' :: cs => (elementsFrom (valueWithin depth) true (cs.length + 1) cs).map fun (vs, rest) =>
      (.array vs, rest)
    | '\x7b' :: cs => (membersFrom (valueWithin depth) true (cs.length + 1) cs).map fun (ms, rest) =>
      (ofMembers ms, rest)
    | cs => simpleValue cs

/-- The value that a text spells, if it spells one. -/
def read? (text : String) : Option Json :=
  match valueWithin nestingLimit text.toList with
  | some (value, rest) => if (dropSpace rest).isEmpty then some value else none
  | none => none

end FeatureForwarding.Json
