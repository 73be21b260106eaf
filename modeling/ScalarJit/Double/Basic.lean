/-! # Double precision values

Every value that a program computes is a double precision number. A `Double` is its 64 bit pattern,
so that a literal keeps its payload and its sign of zero on the way into the constant pool. The
fields of a pattern are read in `Nat`. Arithmetic on numbers is the hardware's; what becomes of a NaN is
said on patterns. -/

namespace ScalarJit

/-- A double precision value, identified with its 64 bit pattern. -/
structure Double where
  bits : UInt64
deriving DecidableEq, Repr, Inhabited

namespace Double

/-! ### Fields of the pattern -/

def exponentField (x : Double) : Nat := x.bits.toNat / 0x10000000000000 % 0x800

def fractionField (x : Double) : Nat := x.bits.toNat % 0x10000000000000

def isNegative (x : Double) : Bool := 0x8000000000000000 ≤ x.bits.toNat

def isNaN (x : Double) : Bool := x.exponentField == 2047 && x.fractionField != 0

def isInfinite (x : Double) : Bool := x.exponentField == 2047 && x.fractionField == 0

/-- The integer `m` of the magnitude `m * 2 ^ q` of a finite value. -/
def significand (x : Double) : Nat :=
  if x.exponentField = 0 then x.fractionField else 0x10000000000000 + x.fractionField

/-- The power `q` of the magnitude `m * 2 ^ q` of a finite value. -/
def power (x : Double) : Int :=
  if x.exponentField = 0 then -1074 else (x.exponentField : Int) - 1075

/-! ### Constants -/

def zero : Double := ⟨0⟩
def one : Double := ⟨0x3ff0000000000000⟩
def minusOne : Double := ⟨0xbff0000000000000⟩
def minusTwo : Double := ⟨0xc000000000000000⟩
def negativeZero : Double := ⟨0x8000000000000000⟩
def infinity : Double := ⟨0x7ff0000000000000⟩
def nan : Double := ⟨0x7ff8000000000000⟩
def invalid : Double := ⟨0xfff8000000000000⟩

/-! ### Arithmetic -/

def ofFloat (x : Float) : Double := ⟨x.toBits⟩
def toFloat (x : Double) : Float := Float.ofBits x.bits

def quiet (x : Double) : Double := ⟨x.bits ||| 0x8000000000000⟩

/-- An operation of the machine. NaNs pass through it, the first operand before the second. -/
def operate (op : Float → Float → Float) (x y : Double) : Double :=
  if x.isNaN then x.quiet
  else if y.isNaN then y.quiet
  else
    let result := ofFloat (op x.toFloat y.toFloat)
    if result.isNaN then invalid else result

def add : Double → Double → Double := operate (· + ·)
def sub : Double → Double → Double := operate (· - ·)
def mul : Double → Double → Double := operate (· * ·)
def div : Double → Double → Double := operate (· / ·)
def pow (x y : Double) : Double := ofFloat (Float.pow x.toFloat y.toFloat)

def neg (x : Double) : Double := ⟨x.bits ^^^ negativeZero.bits⟩

def lt (x y : Double) : Bool := decide (x.toFloat < y.toFloat)
def le (x y : Double) : Bool := decide (x.toFloat ≤ y.toFloat)

def equalOrUnordered (x y : Double) : Bool := x.isNaN || y.isNaN || x.toFloat == y.toFloat

def ofBool (b : Bool) : Double := if b then one else zero

/-! ### Integers -/

/-- The value as an integer, when it is finite and has no fractional part. -/
def toInt? (x : Double) : Option Int :=
  if x.exponentField = 2047 then none
  else
    let signed (n : Nat) : Int := if x.isNegative then -(n : Int) else n
    if 0 ≤ x.power then some (signed (x.significand * Nat.pow 2 x.power.toNat))
    else
      let scale := Nat.pow 2 (-x.power).toNat
      if x.significand % scale = 0 then some (signed (x.significand / scale)) else none

/-! ### Rounding a quotient -/

/-- The integer nearest to `num / den`, a half going to the even one. -/
def roundHalfEven (num den : Nat) : Nat :=
  let quotient := num / den
  let twice := 2 * (num % den)
  if twice < den then quotient
  else if den < twice then quotient + 1
  else quotient + quotient % 2

/-- The double nearest to `num / den`, for positive `num` and `den`. The quotient is scaled by a
power of two until fifty-three bits stand before the point, fewer only at the smallest power. -/
def ofRatio (num den : Nat) : Double :=
  let estimate : Int := (num.log2 : Int) - den.log2 - 53
  let scaled (q : Int) : Nat × Nat :=
    if 0 ≤ q then (num, den * Nat.pow 2 q.toNat) else (num * Nat.pow 2 (-q).toNat, den)
  let (n, d) := scaled estimate
  let q := max (-1074) (if 0x20000000000000 * d ≤ n then estimate + 1 else estimate)
  let (n, d) := scaled q
  let pattern := (q + 1074).toNat * 0x10000000000000 + roundHalfEven n d
  if pattern < infinity.bits.toNat then ⟨pattern.toUInt64⟩ else infinity

/-- The double nearest to `digits * 10 ^ exponent`. Powers far outside the range are answered
without being computed. -/
def ofDecimal (digits : Nat) (exponent : Int) : Double :=
  if digits = 0 then zero
  else if 310 < exponent then infinity
  else if exponent < 0 ∧ (digits.log2 : Int) + 1077 ≤ -3 * exponent then zero
  else if 0 ≤ exponent then ofRatio (digits * Nat.pow 10 exponent.toNat) 1
  else ofRatio digits (Nat.pow 10 (-exponent).toNat)

end Double
end ScalarJit
