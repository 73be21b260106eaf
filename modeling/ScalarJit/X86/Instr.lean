import ScalarJit.Bytes
import ScalarJit.X86.Register

/-! # Instructions and their bytes

The instructions that generated code is made of: scalar double arithmetic, frame setup, loads of
64 bit immediates, indirect calls and branches. The bytes of an instruction come in pieces (a
mandatory byte, the byte for high registers and wide operands, opcode, operands), because a buffer
that fills up keeps the pieces that fitted. -/

namespace ScalarJit.X86

inductive SseOp where
  | movSd
  | addSd
  | subSd
  | mulSd
  | divSd
  | andPd
  | xorPd
  | movApd
  | uComISd
deriving DecidableEq, Repr, Inhabited

namespace SseOp

def mandatory : SseOp → UInt8
  | .movSd | .addSd | .subSd | .mulSd | .divSd => 0xf2
  | .andPd | .xorPd | .movApd | .uComISd => 0x66

def opcode : SseOp → UInt8
  | .movSd => 0x10
  | .addSd => 0x58
  | .mulSd => 0x59
  | .subSd => 0x5c
  | .divSd => 0x5e
  | .andPd => 0x54
  | .xorPd => 0x57
  | .movApd => 0x28
  | .uComISd => 0x2e

def all : List SseOp :=
  [.movSd, .addSd, .subSd, .mulSd, .divSd, .andPd, .xorPd, .movApd, .uComISd]

def ofBytes? (mandatory opcode : UInt8) : Option SseOp :=
  all.find? fun op => op.mandatory == mandatory && op.opcode == opcode

theorem ofBytes?_bytes (op : SseOp) : ofBytes? op.mandatory op.opcode = some op := by
  cases op <;> decide

end SseOp

inductive Predicate where
  | lessThan
  | lessOrEqual
deriving DecidableEq, Repr, Inhabited

def Predicate.byte : Predicate → UInt8
  | .lessThan => 1
  | .lessOrEqual => 2

structure Mem where
  base : Gpr
  disp : Int32
deriving DecidableEq, Repr, Inhabited

inductive Instr where
  | sse (op : SseOp) (dst src : Xmm)
  | sseLoad (op : SseOp) (dst : Xmm) (src : Mem)
  | store (dst : Mem) (src : Xmm)
  /-- Makes the destination all ones or all zeros, as the comparison holds or not. -/
  | compare (dst src : Xmm) (predicate : Predicate)
  | moveImm (dst : Gpr) (imm : UInt64)
  | move (dst src : Gpr)
  | call (target : Gpr)
  | push (src : Gpr)
  | pop (dst : Gpr)
  | reserve (bytes : Int32)
  | free (bytes : Int32)
  | ret
  /-- Branches relative to the end of the instruction when the last comparison found equality. -/
  | jumpIfZero (offset : Int32)
  | jump (offset : Int32)
deriving DecidableEq, Repr, Inhabited

/-! ### Parts of an encoding -/

/-- Stands where an encoding has room for a register that the instruction does not have. -/
def noRegister : Fin 16 := Gpr.rax.number

def rexByte (wide : Bool) (reg rm : Fin 16) : UInt8 :=
  (0x40 + 8 * wide.toNat + 4 * (reg.val / 8) + rm.val / 8).toUInt8

/-- That byte, left out when it says nothing. -/
def rex (wide : Bool) (reg rm : Fin 16) : List UInt8 :=
  if wide = false ∧ reg.val < 8 ∧ rm.val < 8 then [] else [rexByte wide reg rm]

def modRM (mode : Nat) (reg rm : Nat) : UInt8 := (64 * mode + 8 * (reg % 8) + rm % 8).toUInt8

inductive DispSize where
  | none
  | byte
  | word
deriving DecidableEq, Repr, Inhabited

namespace DispSize

/-- The shortest form of a displacement. No displacement at all is not available for `rbp` and
`r13`, where that form means something else. -/
def of (m : Mem) : DispSize :=
  if m.disp = 0 ∧ m.base.number.val % 8 ≠ 5 then .none
  else if -128 ≤ m.disp.toInt ∧ m.disp.toInt ≤ 127 then .byte
  else .word

def mode : DispSize → Nat
  | .none => 0
  | .byte => 1
  | .word => 2

def bytes (disp : Int32) : DispSize → List UInt8
  | .none => []
  | .byte => [disp.toUInt32.toUInt8]
  | .word => Bytes.ofInt32 disp

end DispSize

/-- The operand bytes for a register and memory. A stack pointer as base needs a byte of its own. -/
def memoryPieces (reg : Fin 16) (m : Mem) : List (List UInt8) :=
  let size := DispSize.of m
  [[modRM size.mode reg.val m.base.number.val],
    if m.base.number.val % 8 = 4 then [0x24] else [],
    size.bytes m.disp]

namespace Instr

/-- The bytes of an instruction, in the pieces in which they are emitted. -/
def pieces : Instr → List (List UInt8)
  | .sse op dst src =>
    [[op.mandatory], rex false dst.number src.number, [0x0f, op.opcode],
      [modRM 3 dst.number.val src.number.val]]
  | .sseLoad op dst src =>
    [[op.mandatory], rex false dst.number src.base.number, [0x0f, op.opcode]] ++
      memoryPieces dst.number src
  | .store dst src =>
    [[0xf2], rex false src.number dst.base.number, [0x0f, 0x11]] ++ memoryPieces src.number dst
  | .compare dst src predicate =>
    [[0xf2], rex false dst.number src.number,
      [0x0f, 0xc2, modRM 3 dst.number.val src.number.val, predicate.byte]]
  | .moveImm dst imm =>
    [rex true noRegister dst.number, [(0xb8 + dst.number.val % 8).toUInt8], Bytes.ofWord imm]
  | .move dst src =>
    [rex true src.number dst.number, [0x89, modRM 3 src.number.val dst.number.val]]
  | .call target => [rex false noRegister target.number, [0xff, modRM 3 2 target.number.val]]
  | .push src => [rex false noRegister src.number, [(0x50 + src.number.val % 8).toUInt8]]
  | .pop dst => [rex false noRegister dst.number, [(0x58 + dst.number.val % 8).toUInt8]]
  | .reserve bytes => [[0x48, 0x81, modRM 3 5 Gpr.rsp.number.val], Bytes.ofInt32 bytes]
  | .free bytes => [[0x48, 0x81, modRM 3 0 Gpr.rsp.number.val], Bytes.ofInt32 bytes]
  | .ret => [[0xc3]]
  | .jumpIfZero offset => [[0x0f, 0x84], Bytes.ofInt32 offset]
  | .jump offset => [[0xe9], Bytes.ofInt32 offset]

def encode (i : Instr) : List UInt8 := i.pieces.flatten

end Instr
end ScalarJit.X86
