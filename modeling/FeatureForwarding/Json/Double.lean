/-! Double-precision numbers, computed exactly. A number is rounded to the nearest double,
to the one with an even mantissa if two are equally near, and written with the fewest
digits that read back. -/

namespace FeatureForwarding.Json

/-- The number is the mantissa scaled by a power of two. The mantissa has 53 bits, or fewer
at the least exponent, so that equal numbers are equal structures, up to the sign of zero. -/
structure Double where
  negative : Bool
  mantissa : Nat
  exponent : Int
  deriving DecidableEq, Inhabited

namespace Double

def leastExponent : Int := -1074

def greatestExponent : Int := 971

def zero : Double := ⟨false, 0, leastExponent⟩

def isZero (d : Double) : Bool := d.mantissa == 0

def negate (d : Double) : Double := { d with negative := !d.negative }

/-- Scales a fraction by a power of two. -/
def scale (num den : Nat) (e : Int) : Nat × Nat :=
  if e ≥ 0 then (num * Nat.pow 2 e.toNat, den) else (num, den * Nat.pow 2 (-e).toNat)

/-- The integer nearest to a fraction, the even one if two are equally near. -/
def roundHalfEven (num den : Nat) : Nat :=
  let q := num / den
  let r := num % den
  if 2 * r > den || (2 * r = den && q % 2 = 1) then q + 1 else q

/-- The double nearest to a fraction of natural numbers, if it is finite. -/
def ofFraction? (num den : Nat) : Option Double :=
  if num = 0 then some zero
  else
    let guess : Int := (num.log2 : Int) - den.log2 - 52
    let (n, d) := scale num den (-guess)
    let e := max leastExponent (if n / d < Nat.pow 2 52 then guess - 1 else guess)
    let (n, d) := scale num den (-e)
    let m := roundHalfEven n d
    let (m, e) := if m = Nat.pow 2 53 then (Nat.pow 2 52, e + 1) else (m, e)
    if e > greatestExponent then none else some ⟨false, m, e⟩

def fraction (d : Double) : Nat × Nat := scale d.mantissa 1 d.exponent

def multiply? (a b : Double) : Option Double :=
  ofFraction? (a.fraction.1 * b.fraction.1) (a.fraction.2 * b.fraction.2)

def divide? (a b : Double) : Option Double :=
  ofFraction? (a.fraction.1 * b.fraction.2) (a.fraction.2 * b.fraction.1)

/-- The double nearest to a power of ten. -/
def powerOfTen? (n : Nat) : Option Double := ofFraction? (Nat.pow 10 n) 1

/-- The greatest power of ten that is a double. -/
def greatestPower : Nat := 308

/-- Divides by a power of ten, the greatest one as often as it is contained. Three such
divisions bring every 64-bit number to zero. -/
def scaleDown? (d : Double) : Nat → Nat → Option Double
  | 0, _ => some zero
  | steps + 1, places =>
    if places ≤ greatestPower then (powerOfTen? places).bind d.divide?
    else if d.isZero then some d
    else do
      let power ← powerOfTen? greatestPower
      let d ← d.divide? power
      scaleDown? d steps (places - greatestPower)

/-- A 64-bit number scaled by a power of ten, rounded after each step, if it is finite. -/
def ofDecimal? (significand : Nat) (exponent : Int) : Option Double := do
  let d ← ofFraction? significand 1
  if exponent < 0 then d.scaleDown? 4 (-exponent).toNat
  else if exponent ≤ greatestPower then do
    let power ← powerOfTen? exponent.toNat
    d.multiply? power
  else if d.isZero then some d
  else none

/-- The numbers that round to a double lie between two bounds, which are given over a common
denominator; the bounds themselves round to it if its mantissa is even. -/
structure Interval where
  low : Nat
  value : Nat
  high : Nat
  den : Nat
  closed : Bool

def interval (d : Double) : Interval :=
  let (n, den) := scale 1 1 (d.exponent - 2)
  let below := if d.mantissa = Nat.pow 2 52 && d.exponent != leastExponent then 1 else 2
  ⟨(4 * d.mantissa - below) * n, 4 * d.mantissa * n, (4 * d.mantissa + 2) * n, den,
    d.mantissa % 2 == 0⟩

/-- A decimal number: the digits as an integer, scaled by a power of ten. -/
structure Decimal where
  digits : Nat
  exponent : Int

/-- The position of the first digit: the least power of ten above the fraction. -/
def magnitude (num den : Nat) : Int :=
  if den ≤ num then (toString (num / den)).length
  else go num 400 0
where
  go (num : Nat) : Nat → Nat → Int
    | 0, places => -(places : Int)
    | fuel + 1, places => if den ≤ num * 10 then -(places : Int) else go (num * 10) fuel (places + 1)

/-- The neighbour of the value on a decimal grid that rounds to the double, if one does. -/
def onGrid? (i : Interval) (exponent : Int) : Option Decimal :=
  let up := if exponent ≥ 0 then 1 else Nat.pow 10 (-exponent).toNat
  let down := if exponent ≥ 0 then Nat.pow 10 exponent.toNat else 1
  let unit := i.den * down
  let value := i.value * up
  let inside (k : Nat) : Bool :=
    if i.closed then i.low * up ≤ k * unit && k * unit ≤ i.high * up
    else i.low * up < k * unit && k * unit < i.high * up
  let k := value / unit
  let r := value % unit
  let nearer := if 2 * r < unit || (2 * r = unit && k % 2 = 0) then [k, k + 1] else [k + 1, k]
  (nearer.find? inside).map fun k => ⟨k, exponent⟩

/-- Seventeen digits always suffice. -/
def shortestFrom (i : Interval) (magnitude : Int) : Nat → Nat → Decimal
  | 0, count => ⟨i.value / i.den, magnitude - count⟩
  | fuel + 1, count =>
    match onGrid? i (magnitude - count) with
    | some decimal => decimal
    | none => shortestFrom i magnitude fuel (count + 1)

def shortest (d : Double) : Decimal :=
  let i := d.interval
  shortestFrom i (magnitude i.value i.den) 17 1

/-- Digits without zeros at the end, and the power of ten of the last one. -/
def dropZeros : List Char → Int → List Char × Int
  | '0' :: rest, exponent => dropZeros rest (exponent + 1)
  | digits, exponent => (digits.reverse, exponent)

def zeros (n : Int) : String := String.ofList (List.replicate n.toNat '0')

/-- An exponent has a sign. -/
def powerText (power : Int) : String :=
  (if power < 0 then "e" else "e+") ++ toString power

/-- Numbers from a hundred-thousandth up to sixteen digits before the point are written out,
others with an exponent. -/
def magnitudeText (digits : List Char) (exponent : Int) : String :=
  let length : Int := digits.length
  let point := length + exponent
  let text := String.ofList digits
  if 0 ≤ exponent && point ≤ 16 then text ++ zeros exponent ++ ".0"
  else if 0 < point && point ≤ 16 then
    String.ofList (digits.take point.toNat) ++ "." ++ String.ofList (digits.drop point.toNat)
  else if -5 < point && point ≤ 0 then "0." ++ zeros (-point) ++ text
  else
    let power := powerText (point - 1)
    match digits with
    | [digit] => String.singleton digit ++ power
    | first :: rest => String.singleton first ++ "." ++ String.ofList rest ++ power
    | [] => text

def text (d : Double) : String :=
  let sign := if d.negative then "-" else ""
  if d.isZero then sign ++ "0.0"
  else
    let decimal := d.shortest
    let (digits, exponent) := dropZeros (toString decimal.digits).toList.reverse decimal.exponent
    sign ++ magnitudeText digits exponent

end Double

end FeatureForwarding.Json
