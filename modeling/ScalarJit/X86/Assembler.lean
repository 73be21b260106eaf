import ScalarJit.X86.Instr

/-! # A bounded code buffer

Instructions are appended piece by piece until a piece does not fit. Branches are emitted with an
open displacement and pointed at their target later. -/

namespace ScalarJit.X86

inductive EncodeFault where
  | overrun (limit : Nat)
  | adjustmentTooLarge (bytes : Nat)
  | branchOutOfRange (site target : Nat)
deriving DecidableEq, Repr, Inhabited

def EncodeFault.message : EncodeFault → String
  | .overrun limit => s!"Code buffer overrun, limit is {limit} bytes"
  | .adjustmentTooLarge bytes => s!"Unsupported operand: stack adjustment of {bytes} bytes"
  | .branchOutOfRange site target => s!"Branch at {site} cannot reach {target}"

structure Assembler where
  code : Array UInt8
  limit : Nat
deriving DecidableEq, Repr, Inhabited

structure Fixup where
  site : Nat
deriving DecidableEq, Repr, Inhabited

/-- A step of assembling; what was emitted before a fault is kept. -/
abbrev AsmM := EStateM EncodeFault Assembler

namespace Assembler

def defaultLimit : Nat := 0x100000

def empty (limit : Nat) : Assembler := ⟨#[], limit⟩

def position : AsmM Nat := return (← get).code.size

/-- Appends bytes, all or none. -/
def append (bytes : List UInt8) : AsmM Unit := fun ⟨code, limit⟩ =>
  if limit < code.size + bytes.length then .error (.overrun limit) ⟨code, limit⟩
  else .ok () ⟨code ++ bytes.toArray, limit⟩

/-- Appends pieces up to the first that does not fit. -/
def appendAll : List (List UInt8) → AsmM Unit
  | [] => return ()
  | piece :: rest => do
    append piece
    appendAll rest

def emit (i : Instr) : AsmM Unit := appendAll i.pieces

def moveImm (dst : Gpr) (imm : UInt64) : AsmM Nat := do
  emit (.moveImm dst imm)
  return (← position) - 8

def adjustment (bytes : Nat) : AsmM Int32 :=
  if bytes < 0x80000000 then return Int32.ofNat bytes else throw (.adjustmentTooLarge bytes)

def reserveStack (bytes : Nat) : AsmM Unit := do emit (.reserve (← adjustment bytes))

def freeStack (bytes : Nat) : AsmM Unit := do emit (.free (← adjustment bytes))

def branch (i : Int32 → Instr) : AsmM Fixup := do
  emit (i 0)
  return ⟨(← position) - 4⟩

def jumpIfZero : AsmM Fixup := branch .jumpIfZero

def jump : AsmM Fixup := branch .jump

/-- Points a branch at a target. Positions are 64 bit words, taken as signed. -/
def patch (fixup : Fixup) (target : Nat) : AsmM Unit := fun ⟨code, limit⟩ =>
  let distance := Int.bmod target 0x10000000000000000 - ((fixup.site + 4 : Nat) : Int)
  if -0x80000000 ≤ distance ∧ distance < 0x80000000 then
    .ok () ⟨Bytes.overwrite code fixup.site (Bytes.ofInt32 (Int32.ofInt distance)), limit⟩
  else .error (.branchOutOfRange fixup.site target) ⟨code, limit⟩

end Assembler
end ScalarJit.X86
