import FeatureForwarding.Json.Double

/-! JSON values. Whole numbers of 64 bits are kept exactly and all others as doubles. The
members of an object that was read are sorted by name and distinct. -/

namespace FeatureForwarding.Json

inductive Number where
  | natural (n : Nat)
  /-- The number below zero whose absolute value is `n`. -/
  | negative (n : Nat)
  | double (d : Double)
  deriving DecidableEq, Inhabited

namespace Number

def isNegative : Number → Bool
  | .natural _ => false
  | .negative _ => true
  | .double d => d.negative

/-- The absolute value as a fraction. -/
def magnitude : Number → Nat × Nat
  | .natural n => (n, 1)
  | .negative n => (n, 1)
  | .double d => d.fraction

/-- Exact equality of values, whatever their form; zero has no sign. -/
def sameValue (a b : Number) : Bool :=
  a.magnitude.1 * b.magnitude.2 == b.magnitude.1 * a.magnitude.2
    && (a.magnitude.1 == 0 || a.isNegative == b.isNegative)

end Number

end FeatureForwarding.Json

namespace FeatureForwarding

inductive Json where
  | null
  | boolean (value : Bool)
  | number (value : Json.Number)
  | string (content : String)
  | array (elements : List Json)
  | object (members : List (String × Json))
  deriving Inhabited

namespace Json

/-- What stands under a name in a list of members. -/
def member? (name : String) : List (String × Json) → Option Json
  | [] => none
  | (other, value) :: rest => if name = other then some value else member? name rest

mutual

/-- Equality of values up to an equality of the numbers in them. -/
def agree (numbers : Number → Number → Bool) : Json → Json → Bool
  | .null, .null => true
  | .boolean a, .boolean b => a == b
  | .number a, .number b => numbers a b
  | .string a, .string b => a == b
  | .array as, .array bs => agreeElements numbers as bs
  | .object as, .object bs => agreeMembers numbers as bs
  | _, _ => false
  termination_by structural a => a

def agreeElements (numbers : Number → Number → Bool) : List Json → List Json → Bool
  | [], [] => true
  | a :: as, b :: bs => agree numbers a b && agreeElements numbers as bs
  | _, _ => false
  termination_by structural as => as

def agreeMembers (numbers : Number → Number → Bool) :
    List (String × Json) → List (String × Json) → Bool
  | [], [] => true
  | (n, a) :: as, (m, b) :: bs => n == m && agree numbers a b && agreeMembers numbers as bs
  | _, _ => false
  termination_by structural as => as

end

/-- Whether two values denote the same. -/
def sameValue : Json → Json → Bool := agree Number.sameValue

/-- Whether two values are the same down to the form of their numbers. -/
def sameForm : Json → Json → Bool := agree (· == ·)

end Json

end FeatureForwarding
