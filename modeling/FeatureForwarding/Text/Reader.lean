/-! Readers of text. A reader takes the characters that are left and returns what it read
together with the rest, or nothing where the text breaks the rules. -/

namespace FeatureForwarding.Text

abbrev Reader (α : Type) := List Char → Option (α × List Char)

/-- Puts a character in front of what was read behind it. -/
def push (c : Char) (read : List Char × List Char) : List Char × List Char :=
  (c :: read.1, read.2)

def literal (c : Char) : List Char → Option (List Char)
  | d :: cs => if d = c then some cs else none
  | [] => none

def isDigit (c : Char) : Bool := '0' ≤ c && c ≤ '9'

def number (digits : List Char) : Nat :=
  digits.foldl (fun n c => 10 * n + (c.toNat - 48)) 0

def hexDigit? (c : Char) : Option Nat :=
  if '0' ≤ c && c ≤ '9' then some (c.toNat - 48)
  else if 'a' ≤ c && c ≤ 'f' then some (c.toNat - 87)
  else if 'A' ≤ c && c ≤ 'F' then some (c.toNat - 55)
  else none

def hexNumberFrom (value : Nat) : List Char → Option Nat
  | [] => some value
  | c :: cs => (hexDigit? c).bind fun d => hexNumberFrom (16 * value + d) cs

/-- The value of exactly so many hexadecimal digits at the front. -/
def hexNumber? (length : Nat) (cs : List Char) : Option Nat :=
  let digits := cs.take length
  if digits.length = length then hexNumberFrom 0 digits else none

end FeatureForwarding.Text
