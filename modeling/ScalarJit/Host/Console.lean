import ScalarJit.Double.Decimal
import ScalarJit.Double.Reader
import ScalarJit.Host.Function
import ScalarJit.Text.Blank

/-! # The console

What the host functions of a program act on: a sink for bytes and a source of lines. Nothing they do
can stop a program; what goes wrong is told by the number that they answer. -/

namespace ScalarJit

/-- How host functions behave: what each answers and does to the host's state. -/
abbrev Host (σ : Type) := HostFunction → List Double → StateM σ Double

/-- Where output goes. A sink with a capacity refuses a write that would go beyond it, whole. -/
structure Sink where
  written : Array UInt8
  capacity : Option Nat
deriving DecidableEq, Repr, Inhabited

namespace Sink

def empty (capacity : Option Nat) : Sink := ⟨#[], capacity⟩

def hasRoom (s : Sink) (count : Nat) : Bool :=
  match s.capacity with
  | some capacity => s.written.size + count ≤ capacity
  | none => true

def write? (s : Sink) (bytes : List UInt8) : Option Sink :=
  if s.hasRoom bytes.length then some ⟨s.written ++ bytes.toArray, s.capacity⟩ else none

end Sink

structure Console where
  sink : Sink
  input : List UInt8
deriving DecidableEq, Repr, Inhabited

abbrev ConsoleM := StateM Console

namespace Console

def fresh (input : List UInt8) (capacity : Option Nat) : Console := ⟨.empty capacity, input⟩

def write (bytes : List UInt8) (answer : Double) : ConsoleM Double := fun c =>
  match c.sink.write? bytes with
  | some sink => (answer, ⟨sink, c.input⟩)
  | none => (.nan, c)

/-- Writes a byte. Answers -1 for what is not an integer, -2 for one that is no byte. An infinity
has no fractional part, so it counts among the latter. -/
def printByte (x : Double) : ConsoleM Double :=
  match x.toInt? with
  | some n => if 0 ≤ n ∧ n ≤ 255 then write [n.toNat.toUInt8] .zero else return .minusTwo
  | none => return if x.isInfinite then .minusTwo else .minusOne

def character? (x : Double) : Option Char :=
  match x.toInt? with
  | some n => if 0 ≤ n ∧ n.toNat.isValidChar then some (Char.ofNat n.toNat) else none
  | none => none

def replacement : Char := '\ufffd'

/-- Writes a character and answers how many bytes it took, or writes the replacement and answers
zero. -/
def printUnicode (x : Double) : ConsoleM Double :=
  match character? x with
  | some c => write (String.utf8EncodeChar c) (.ofDecimal (String.utf8EncodeChar c).length 0)
  | none => write (String.utf8EncodeChar replacement) .zero

def printDouble (x : Double) : ConsoleM Double := write x.text.toUTF8.toList .zero

def nextLine : ConsoleM (List UInt8) := fun c =>
  (c.input.takeWhile (· != 10), ⟨c.sink, (c.input.dropWhile (· != 10)).drop 1⟩)

def numberOnLine (line : List UInt8) : Option Double := do
  let text ← String.fromUTF8? ⟨line.toArray⟩
  Double.read? (Text.trim text.toList)

/-- Reads a line; a NaN when there is none or when it does not hold a number. -/
def getDouble : ConsoleM Double := do return (numberOnLine (← nextLine)).getD .nan

/-- Host functions on a console. A wrong number of arguments has no answer. -/
def call : Host Console
  | .power, [x, y] => return x.pow y
  | .intrinsic .printByte, [x] => printByte x
  | .intrinsic .printUnicode, [x] => printUnicode x
  | .intrinsic .printDouble, [x] => printDouble x
  | .intrinsic .getDouble, [] => getDouble
  | _, _ => return .nan

end Console
end ScalarJit
