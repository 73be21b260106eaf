import ScalarJit.X86.Instr

/-! # Reading instructions back

A decoder for the instructions that are generated: it answers the instruction that some bytes start
with and the bytes after it. It reads an optional mandatory byte, an optional byte for high
registers and wide operands, and then goes by the opcode. -/

namespace ScalarJit.X86

structure Rex where
  wide : Bool
  reg : Bool
  rm : Bool
deriving DecidableEq, Repr, Inhabited

namespace Rex

def ofByte (b : UInt8) : Rex :=
  ⟨b.toNat / 8 % 2 = 1, b.toNat / 4 % 2 = 1, b.toNat % 2 = 1⟩

def split : List UInt8 → Rex × List UInt8
  | [] => (⟨false, false, false⟩, [])
  | b :: rest =>
    if b.toNat / 16 = 4 then (ofByte b, rest) else (⟨false, false, false⟩, b :: rest)

end Rex

def registerNumber (high : Bool) (low : Nat) : Fin 16 :=
  ⟨8 * high.toNat + low % 8, by cases high <;> simp <;> omega⟩

structure Operands where
  mode : Nat
  reg : Fin 16
  rm : Fin 16
deriving DecidableEq, Repr, Inhabited

def Operands.ofByte (r : Rex) (b : UInt8) : Operands :=
  ⟨b.toNat / 64, registerNumber r.reg (b.toNat / 8), registerNumber r.rm b.toNat⟩

def takeInt32 : List UInt8 → Option (Int32 × List UInt8)
  | a :: b :: c :: d :: rest => some (Bytes.toInt32 [a, b, c, d], rest)
  | _ => none

def takeWord (bytes : List UInt8) : Option (UInt64 × List UInt8) :=
  if 8 ≤ bytes.length then some (Bytes.toWord (bytes.take 8), bytes.drop 8) else none

def takeDisp (mode : Nat) (bytes : List UInt8) : Option (Int32 × List UInt8) :=
  match mode, bytes with
  | 0, rest => some (0, rest)
  | 1, b :: rest => some (b.toInt8.toInt32, rest)
  | 2, rest => takeInt32 rest
  | _, _ => none

def takeMemory (o : Operands) (bytes : List UInt8) : Option (Mem × List UInt8) := do
  if o.mode = 0 ∧ o.rm.val % 8 = 5 then none
  let bytes ←
    if o.rm.val % 8 = 4 then
      match bytes with
      | 0x24 :: rest => some rest
      | _ => none
    else some bytes
  let (disp, rest) ← takeDisp o.mode bytes
  return (⟨⟨o.rm⟩, disp⟩, rest)

def decodeVector (mandatory : UInt8) (bytes : List UInt8) : Option (Instr × List UInt8) := do
  let (r, bytes) := Rex.split bytes
  match bytes with
  | 0x0f :: opcode :: operands :: rest =>
    let o := Operands.ofByte r operands
    if mandatory = 0xf2 ∧ opcode = 0xc2 then
      if o.mode ≠ 3 then none
      match rest with
      | 1 :: rest => some (.compare ⟨o.reg⟩ ⟨o.rm⟩ .lessThan, rest)
      | 2 :: rest => some (.compare ⟨o.reg⟩ ⟨o.rm⟩ .lessOrEqual, rest)
      | _ => none
    else if mandatory = 0xf2 ∧ opcode = 0x11 then
      let (m, rest) ← takeMemory o rest
      some (.store m ⟨o.reg⟩, rest)
    else
      let op ← SseOp.ofBytes? mandatory opcode
      if o.mode = 3 then some (.sse op ⟨o.reg⟩ ⟨o.rm⟩, rest)
      else
        let (m, rest) ← takeMemory o rest
        some (.sseLoad op ⟨o.reg⟩ m, rest)
  | _ => none

def decodeWide (r : Rex) (bytes : List UInt8) : Option (Instr × List UInt8) := do
  match bytes with
  | 0x81 :: operands :: rest =>
    let (imm, rest) ← takeInt32 rest
    if operands = modRM 3 5 Gpr.rsp.number.val then some (.reserve imm, rest)
    else if operands = modRM 3 0 Gpr.rsp.number.val then some (.free imm, rest)
    else none
  | 0x89 :: operands :: rest =>
    let o := Operands.ofByte r operands
    if o.mode = 3 then some (.move ⟨o.rm⟩ ⟨o.reg⟩, rest) else none
  | opcode :: rest =>
    if opcode.toNat / 8 = 0xb8 / 8 then
      let (imm, rest) ← takeWord rest
      some (.moveImm ⟨registerNumber r.rm opcode.toNat⟩ imm, rest)
    else none
  | [] => none

def decodePlain (r : Rex) (bytes : List UInt8) : Option (Instr × List UInt8) := do
  match bytes with
  | 0xc3 :: rest => some (.ret, rest)
  | 0xe9 :: rest =>
    let (offset, rest) ← takeInt32 rest
    some (.jump offset, rest)
  | 0x0f :: 0x84 :: rest =>
    let (offset, rest) ← takeInt32 rest
    some (.jumpIfZero offset, rest)
  | 0xff :: operands :: rest =>
    if operands.toNat / 8 = 0xd0 / 8 then
      some (.call ⟨registerNumber r.rm operands.toNat⟩, rest)
    else none
  | opcode :: rest =>
    if opcode.toNat / 8 = 0x50 / 8 then some (.push ⟨registerNumber r.rm opcode.toNat⟩, rest)
    else if opcode.toNat / 8 = 0x58 / 8 then some (.pop ⟨registerNumber r.rm opcode.toNat⟩, rest)
    else none
  | [] => none

def decode (bytes : List UInt8) : Option (Instr × List UInt8) :=
  match bytes with
  | 0xf2 :: rest => decodeVector 0xf2 rest
  | 0x66 :: rest => decodeVector 0x66 rest
  | _ =>
    let (r, rest) := Rex.split bytes
    if r.wide then decodeWide r rest else decodePlain r rest

/-- All instructions of a byte sequence, `bound` of them at most; none if it does not end with the
end of an instruction. -/
def decodeAllWithin : Nat → List UInt8 → Option (List Instr)
  | _, [] => some []
  | 0, _ :: _ => none
  | bound + 1, bytes => do
    let (i, rest) ← decode bytes
    return i :: (← decodeAllWithin bound rest)

def decodeAll (bytes : List UInt8) : Option (List Instr) := decodeAllWithin bytes.length bytes

end ScalarJit.X86
