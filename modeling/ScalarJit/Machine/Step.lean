import ScalarJit.Host.Function
import ScalarJit.Image.Load
import ScalarJit.Machine.State
import ScalarJit.X86.Decode

/-! # Execution of instructions

One step decodes the bytes at the program counter and carries the instruction out. Calls of host
functions are left to the host: they come out as events, and `resume` takes their answer in. -/

namespace ScalarJit

open X86 (Gpr Instr Mem Predicate SseOp Xmm)

namespace Image

def longestInstruction : Nat := 15

def fetch (image : Image) (address : UInt64) : Except MachineFault (Instr × UInt64) :=
  match image.region? .executable with
  | none => .error (.noInstruction address)
  | some region =>
    let start := address.toNat - region.base
    if region.base ≤ address.toNat ∧ start < region.bytes.size then
      let window := (region.bytes.extract start (start + longestInstruction)).toList
      match X86.decode window with
      | some (i, rest) => .ok (i, address + (window.length - rest.length).toUInt64)
      | none => .error (.noInstruction address)
    else .error (.noInstruction address)

def loadDouble (image : Image) (address : UInt64) : Except MachineFault Double :=
  let start (r : Region) := address.toNat - r.base
  match image.regions.find? fun r =>
      r.base ≤ address.toNat && start r + 8 ≤ r.bytes.size with
  | some r => .ok ⟨Bytes.toWord (r.bytes.extract (start r) (start r + 8)).toList⟩
  | none => .error (.notReadable address)

end Image

def signExtend (disp : Int32) : UInt64 := disp.toInt64.toUInt64

def maskOf (b : Bool) : Double := ⟨if b then 0xffffffffffffffff else 0⟩

def X86.Predicate.holds : Predicate → Double → Double → Bool
  | .lessThan => Double.lt
  | .lessOrEqual => Double.le

inductive Event where
  | running (m : Machine)
  /-- A host function is called and will go on from the machine given. -/
  | calling (f : HostFunction) (args : List Double) (m : Machine)
  | finished (value : Double)
deriving Repr

namespace Machine

/-! ### Memory operands -/

def load (m : Machine) (image : Image) (src : Mem) : Except MachineFault Double :=
  match m.gpr src.base with
  | .bits w => image.loadDouble (w + signExtend src.disp)
  | .stack depth => m.loadCell depth src.disp.toInt
  | .exit => .error (.wrongKind .exit)

def store (m : Machine) (dst : Mem) (x : Double) : Except MachineFault Machine :=
  match m.gpr dst.base with
  | .bits w => .error (.notWritable (w + signExtend dst.disp))
  | .stack depth => m.storeCell depth dst.disp.toInt x
  | .exit => .error (.wrongKind .exit)

/-! ### Instructions -/

def operate (m : Machine) (op : SseOp) (dst : Xmm) (y : Double) : Machine :=
  let x := m.xmm dst
  match op with
  | .movSd | .movApd => m.setXmm dst y
  | .addSd => m.setXmm dst (x.add y)
  | .subSd => m.setXmm dst (x.sub y)
  | .mulSd => m.setXmm dst (x.mul y)
  | .divSd => m.setXmm dst (x.div y)
  | .andPd => m.setXmm dst ⟨x.bits &&& y.bits⟩
  | .xorPd => m.setXmm dst ⟨x.bits ^^^ y.bits⟩
  | .uComISd => { m with zero := x.equalOrUnordered y }

def isAligned (m : Machine) : Bool := m.depth % 2 == 0

variable [HostAddresses]

def callHost (m : Machine) (f : HostFunction) : Except MachineFault Event :=
  if f.takesContext ∧ m.gpr .rdi ≠ .bits HostFunction.contextAddress then .error .noContext
  else if !m.isAligned then .error .misaligned
  else .ok (.calling f ((Xmm.all.take f.arity).map m.xmm) m)

def call (m : Machine) (target : Word) : Except MachineFault Event :=
  match target with
  | .bits w =>
    match HostFunction.ofAddress? w with
    | some f => m.callHost f
    | none => .ok (.running { m.push (.bits m.pc) with pc := w })
  | w => .error (.wrongKind w)

def ret (m : Machine) : Except MachineFault Event := do
  match (← m.pop) with
  | (.bits w, m) => return .running { m with pc := w }
  | (.exit, m) => return .finished (m.xmm .result)
  | (w, _) => throw (.wrongKind w)

/-- Carries out an instruction; the program counter is already behind it. -/
def execute (image : Image) (m : Machine) : Instr → Except MachineFault Event
  | .sse op dst src => return .running (m.operate op dst (m.xmm src))
  | .sseLoad .movSd dst src => return .running (m.setXmm dst (← m.load image src))
  | .sseLoad .. => throw .unsupported
  | .store dst src => return .running (← m.store dst (m.xmm src))
  | .compare dst src predicate =>
    return .running (m.setXmm dst (maskOf (predicate.holds (m.xmm dst) (m.xmm src))))
  | .moveImm dst imm => return .running (← m.setGpr dst (.bits imm))
  | .move dst src => return .running (← m.setGpr dst (m.gpr src))
  | .call target => m.call (m.gpr target)
  | .push src => return .running (m.push (m.gpr src))
  | .pop dst => do
    let (w, m) ← m.pop
    return .running (← m.setGpr dst w)
  | .reserve bytes => return .running (m.setDepth (m.depth + (← cells bytes)))
  | .free bytes => do
    let count ← cells bytes
    if m.depth < count then throw (.noCell m.depth bytes.toInt)
    return .running (m.setDepth (m.depth - count))
  | .ret => m.ret
  | .jumpIfZero offset =>
    return .running (if m.zero then { m with pc := m.pc + signExtend offset } else m)
  | .jump offset => return .running { m with pc := m.pc + signExtend offset }

def step (image : Image) (m : Machine) : Except MachineFault Event := do
  let (i, next) ← image.fetch m.pc
  execute image { m with pc := next } i

end Machine
end ScalarJit
