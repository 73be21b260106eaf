import ScalarJit.Double.Basic

/-! # Reading a double

The grammar is an optional sign, then digits with an optional point and an optional exponent, or
one of the words `inf`, `infinity` and `nan` in any case. At least one digit stands before or after
the point. The value is the nearest double. -/

namespace ScalarJit

def digitsValue (digits : List Char) : Nat :=
  digits.foldl (fun value c => 10 * value + (c.toNat - '0'.toNat)) 0

namespace Double

def ofDigits (digits : List Char) : Double := ofDecimal (digitsValue digits) 0

def splitSign : List Char → Bool × List Char
  | '-' :: rest => (true, rest)
  | '+' :: rest => (false, rest)
  | text => (false, text)

def readExponent? : List Char → Option Int
  | [] => some 0
  | mark :: rest =>
    if mark = 'e' ∨ mark = 'E' then
      let (negative, digits) := splitSign rest
      if digits ≠ [] ∧ digits.all Char.isDigit then
        some (if negative then -(digitsValue digits : Int) else digitsValue digits)
      else none
    else none

def readMagnitude? (text : List Char) : Option Double :=
  let whole := text.takeWhile Char.isDigit
  let rest := text.dropWhile Char.isDigit
  let (places, rest) := match rest with
    | '.' :: rest => (rest.takeWhile Char.isDigit, rest.dropWhile Char.isDigit)
    | rest => ([], rest)
  if whole = [] ∧ places = [] then none
  else
    (readExponent? rest).map fun exponent =>
      ofDecimal (digitsValue (whole ++ places)) (exponent - places.length)

def readNamed? (text : List Char) : Option Double :=
  match String.ofList (text.map Char.toLower) with
  | "inf" => some infinity
  | "infinity" => some infinity
  | "nan" => some nan
  | _ => none

def read? (text : List Char) : Option Double :=
  let (negative, rest) := splitSign text
  ((readMagnitude? rest).orElse fun _ => readNamed? rest).map fun x => if negative then x.neg else x

end Double
end ScalarJit
