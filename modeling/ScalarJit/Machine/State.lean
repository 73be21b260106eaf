import ScalarJit.Double.Basic
import ScalarJit.X86.Register

/-! # Machine states

The part of a processor that generated code uses: the low doubles of the vector registers, the
general registers, the zero flag and a stack of eight byte cells. The stack pointer is not stored:
it is where the stack ends, and what lies below it does not exist. Stack addresses are kept apart
from numbers, so that a stack has no size limit. -/

namespace ScalarJit

open X86 (Gpr Xmm)

inductive Word where
  | bits (w : UInt64)
  /-- The address below a number of cells, counted from the bottom of the stack. -/
  | stack (depth : Nat)
  /-- Where the function that was entered first returns to. -/
  | exit
deriving DecidableEq, Repr, Inhabited

inductive MachineFault where
  | noInstruction (address : UInt64)
  | notReadable (address : UInt64)
  | notWritable (address : UInt64)
  /-- An address on the stack that is not that of a cell. -/
  | noCell (depth : Nat) (disp : Int)
  /-- A cell that was reserved and not written. -/
  | unsetCell
  /-- Bits where an address on the stack is needed, or the other way round. -/
  | wrongKind (found : Word)
  | misaligned
  | noContext
  | unsupported
deriving DecidableEq, Repr, Inhabited

def MachineFault.message : MachineFault → String
  | .noInstruction address => s!"no instruction at address {address}"
  | .notReadable address => s!"no memory to read at address {address}"
  | .notWritable address => s!"no memory to write at address {address}"
  | .noCell depth disp => s!"no stack cell {disp} bytes from depth {depth}"
  | .unsetCell => "read of an unset stack cell"
  | .wrongKind _ => "an address and a number were confused"
  | .misaligned => "misaligned stack"
  | .noContext => "a host function was called without its context"
  | .unsupported => "unsupported form of an instruction"

structure Machine where
  pc : UInt64
  vector : Vector Double 16
  general : Vector Word 16
  /-- Whether the last comparison found equality, or nothing to compare. -/
  zero : Bool
  /-- Cells of the stack, the first one pushed first. A cell that was only reserved holds
  nothing. -/
  stack : Array (Option Word)
deriving DecidableEq, Repr

namespace Machine

/-! ### Registers -/

def xmm (m : Machine) (r : Xmm) : Double := m.vector[r.number]

def setXmm (m : Machine) (r : Xmm) (x : Double) : Machine :=
  { m with vector := m.vector.set r.number.val x r.number.isLt }

def depth (m : Machine) : Nat := m.stack.size

/-- Moves the stack pointer. Cells that come into being hold nothing. -/
def setDepth (m : Machine) (depth : Nat) : Machine :=
  if depth ≤ m.depth then { m with stack := m.stack.shrink depth }
  else { m with stack := m.stack ++ Array.replicate (depth - m.depth) none }

def gpr (m : Machine) (r : Gpr) : Word :=
  if r = .rsp then .stack m.depth else m.general[r.number]

def setGpr (m : Machine) (r : Gpr) (w : Word) : Except MachineFault Machine :=
  if r = .rsp then
    match w with
    | .stack depth => .ok (m.setDepth depth)
    | w => .error (.wrongKind w)
  else .ok { m with general := m.general.set r.number.val w r.number.isLt }

theorem xmm_setXmm (m : Machine) (r s : Xmm) (x : Double) :
    (m.setXmm r x).xmm s = if r = s then x else m.xmm s := by
  by_cases h : r = s
  · subst h
    simp [xmm, setXmm]
  · have apart : r.number.val ≠ s.number.val := fun e => h (by
      cases r
      cases s
      exact congrArg _ (Fin.ext e))
    simp [xmm, setXmm, h, apart]

/-! ### The stack -/

def push (m : Machine) (w : Word) : Machine := { m with stack := m.stack.push (some w) }

def pop (m : Machine) : Except MachineFault (Word × Machine) :=
  match m.stack.back? with
  | some (some w) => .ok (w, { m with stack := m.stack.pop })
  | some none => .error .unsetCell
  | none => .error (.noCell 0 0)

/-- The cell at a distance from a stack address, counted from the bottom. -/
def cellIndex (m : Machine) (depth : Nat) (disp : Int) : Except MachineFault Nat :=
  let cell : Int := depth - disp / 8 - 1
  if disp % 8 = 0 ∧ 0 ≤ cell ∧ cell < m.depth then .ok cell.toNat else .error (.noCell depth disp)

def loadCell (m : Machine) (depth : Nat) (disp : Int) : Except MachineFault Double := do
  match m.stack[← m.cellIndex depth disp]? with
  | some (some (.bits w)) => return ⟨w⟩
  | some (some w) => throw (.wrongKind w)
  | _ => throw .unsetCell

def storeCell (m : Machine) (depth : Nat) (disp : Int) (x : Double) :
    Except MachineFault Machine := do
  let index ← m.cellIndex depth disp
  return { m with stack := m.stack.setIfInBounds index (some (.bits x.bits)) }

def cells (bytes : Int32) : Except MachineFault Nat :=
  if 0 ≤ bytes.toInt ∧ bytes.toInt % 8 = 0 then .ok (bytes.toInt.toNat / 8) else .error .misaligned

end Machine
end ScalarJit
