import ScalarJit.Double.Basic

/-! # Decimal text of a double

A value is written with the fewest decimal digits that read back as the same value, and of those
with the digits nearest to it. The search runs over the decimal grids of one, two, … seventeen
digits and compares exact integers: on each grid only the two neighbours of the value have to be
looked at. How the digits are laid out is a `NumberStyle`. -/

namespace ScalarJit

structure Decimal where
  coefficient : Nat
  exponent : Int
deriving DecidableEq, Repr

namespace Decimal

def digitCount (n : Nat) : Nat := if n = 0 then 0 else (Nat.toDigits 10 n).length

/-- The `E` with `10 ^ (E - 1) ≤ num / den < 10 ^ E`, for positive `num` and `den`. -/
def magnitude (num den : Nat) : Int :=
  if den ≤ num then digitCount (num / den)
  else 1 - (digitCount ((den + num - 1) / num - 1) : Int)

/-- The exact reals that read as one double: those between `low / unit` and `high / unit`, the ends
included or not, around `mid / unit`. -/
structure Interval where
  low : Nat
  mid : Nat
  high : Nat
  unit : Nat
  closed : Bool
deriving DecidableEq, Repr

/-- The interval of a finite non-zero value. The gap below a power of two is half the gap above. -/
def Interval.ofDouble (x : Double) : Interval :=
  let m := x.significand
  let q := x.power - 2
  let below := if x.fractionField = 0 ∧ 1 < x.exponentField then 1 else 2
  let scale := Nat.pow 2 q.toNat
  { low := (4 * m - below) * scale
    mid := 4 * m * scale
    high := (4 * m + 2) * scale
    unit := Nat.pow 2 (-q).toNat
    closed := m % 2 = 0 }

/-- The point of the grid `10 ^ k` that is nearest to the middle among those inside the interval,
the upper one of two equally near. -/
def Interval.gridPoint (i : Interval) (k : Int) : Option Nat :=
  let up := Nat.pow 10 (-k).toNat
  let step := i.unit * Nat.pow 10 k.toNat
  let mid := i.mid * up
  let floor := mid / step
  let reaches (bound point : Nat) : Bool := if i.closed then bound ≤ point else bound < point
  let lowerIn := reaches (i.low * up) (floor * step)
  let upperIn := reaches ((floor + 1) * step) (i.high * up)
  match lowerIn, upperIn with
  | true, true => some (if mid - floor * step < (floor + 1) * step - mid then floor else floor + 1)
  | true, false => some floor
  | false, true => some (floor + 1)
  | false, false => none

def strip : Nat → Decimal → Decimal
  | 0, d => d
  | n + 1, d =>
    if d.coefficient ≠ 0 ∧ d.coefficient % 10 = 0 then
      strip n ⟨d.coefficient / 10, d.exponent + 1⟩
    else d

/-- Tries grids of growing fineness, `count` of them, the first with `digits` digits. -/
def search (i : Interval) (size : Int) : Nat → Nat → Decimal
  | 0, _ => ⟨i.mid / i.unit, 0⟩
  | count + 1, digits =>
    let k := size - digits
    match i.gridPoint k with
    | some point => strip 20 ⟨point, k⟩
    | none => search i size count (digits + 1)

/-- The shortest decimal that reads as the magnitude of a finite value. -/
def ofDouble (x : Double) : Decimal :=
  if x.significand = 0 then ⟨0, 0⟩
  else
    let i := Interval.ofDouble x
    search i (magnitude i.mid i.unit) 17 1

def digits (d : Decimal) : List Char := Nat.toDigits 10 d.coefficient

end Decimal

/-! ### Layouts -/

/-- How the digits of a number are written. A number has `point` digits before its decimal point,
counting zeros after the point as negative; it is positional when `point` is in the given range and
has an exponent otherwise. -/
structure NumberStyle where
  /-- The least `point` written positionally; unbounded when absent. -/
  leastPoint : Option Int
  /-- The greatest `point` written positionally; unbounded when absent. -/
  greatestPoint : Option Int
  /-- What follows the digits of an integer in positional form. -/
  integerTail : String
  nan : String
  positiveInfinity : String
  negativeInfinity : String

namespace NumberStyle

/-- Output of programs: always positional, integers without a point. -/
def plain : NumberStyle :=
  { leastPoint := none
    greatestPoint := none
    integerTail := ""
    nan := "NaN"
    positiveInfinity := "inf"
    negativeInfinity := "-inf" }

/-- Numbers in a JSON document: up to sixteen digits before the point, integers keep one place, and
what has no JSON form is null. -/
def json : NumberStyle :=
  { leastPoint := some (-4)
    greatestPoint := some 16
    integerTail := ".0"
    nan := "null"
    positiveInfinity := "null"
    negativeInfinity := "null" }

def isPositional (style : NumberStyle) (point : Int) : Bool :=
  style.leastPoint.all (· ≤ point) && style.greatestPoint.all (point ≤ ·)

def positional (style : NumberStyle) (digits : List Char) (point : Int) : List Char :=
  if point ≤ 0 then
    '0' :: '.' :: List.replicate (-point).toNat '0' ++ digits
  else if digits.length ≤ point.toNat then
    digits ++ List.replicate (point.toNat - digits.length) '0' ++ style.integerTail.toList
  else
    digits.take point.toNat ++ '.' :: digits.drop point.toNat

def scientific (digits : List Char) (point : Int) : List Char :=
  let exponent := point - 1
  let sign := if 0 ≤ exponent then '+' else '-'
  let tail := if digits.length ≤ 1 then [] else '.' :: digits.drop 1
  digits.take 1 ++ tail ++ 'e' :: sign :: Nat.toDigits 10 exponent.natAbs

def magnitude (style : NumberStyle) (d : Decimal) : List Char :=
  let digits := d.digits
  let point := (digits.length : Int) + d.exponent
  if style.isPositional point then style.positional digits point else scientific digits point

def write (style : NumberStyle) (x : Double) : String :=
  if x.isNaN then style.nan
  else if x.isInfinite then
    if x.isNegative then style.negativeInfinity else style.positiveInfinity
  else
    let text := String.ofList (style.magnitude (Decimal.ofDouble x))
    if x.isNegative then "-" ++ text else text

end NumberStyle

def Double.text (x : Double) : String := NumberStyle.plain.write x

end ScalarJit
