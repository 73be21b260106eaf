import ScalarJit.Bytes
import ScalarJit.Double.Basic

/-! # The constant pool

Literals of all functions share one read-only section. A value is stored once, eight bytes from the
next; two values are the same when their bit patterns are. -/

namespace ScalarJit.Codegen

structure Pool where
  values : Array Double
deriving DecidableEq, Repr, Inhabited

namespace Pool

def empty : Pool := ⟨#[]⟩

def intern (p : Pool) (x : Double) : Nat × Pool :=
  match p.values.idxOf? x with
  | some index => (8 * index, p)
  | none => (8 * p.values.size, ⟨p.values.push x⟩)

def bytes (p : Pool) : Array UInt8 :=
  p.values.foldl (fun bytes x => bytes ++ (Bytes.ofWord x.bits).toArray) #[]

end Pool
end ScalarJit.Codegen
