/-! # Hexadecimal text of bytes and words -/

namespace ScalarJit.Text

def hexDigit (n : Nat) : Char := (Nat.toDigits 16 n).headD '0'

/-- The low `count` hexadecimal digits of a number, most significant first. -/
def hexDigits : Nat → Nat → List Char
  | 0, _ => []
  | count + 1, n => hexDigit (n / Nat.pow 16 count % 16) :: hexDigits count n

def hexOfBytes (bytes : List UInt8) : String :=
  String.ofList (bytes.flatMap fun b => hexDigits 2 b.toNat)

def hexOfWord (w : UInt64) : String := String.ofList (hexDigits 16 w.toNat)

end ScalarJit.Text
