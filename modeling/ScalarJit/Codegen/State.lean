import ScalarJit.Codegen.Pool
import ScalarJit.Codegen.RegisterStack
import ScalarJit.Host.Function
import ScalarJit.Image.Section
import ScalarJit.Tree.Program

/-! # Generating one function

The code of a function grows in a buffer of its own, while links and literals are collected for the
whole program. The steps here are those that expressions are generated from. -/

namespace ScalarJit.Codegen

open X86 (Assembler AsmM Fixup Gpr Instr Mem SseOp Xmm)

structure Context where
  function : Function
  home : SectionId
  poolSection : SectionId
  sections : List (Named SectionId)

structure State where
  asm : Assembler
  registers : RegisterStack
  links : Array Link
  pool : Pool
deriving Inhabited

abbrev GenM := EStateM Fault State

def asm {α : Type} (m : AsmM α) : GenM α := fun ⟨code, registers, links, pool⟩ =>
  match m.run code with
  | .ok a code => .ok a ⟨code, registers, links, pool⟩
  | .error fault code => .error (.encode fault) ⟨code, registers, links, pool⟩

def emit (i : Instr) : GenM Unit := asm (Assembler.emit i)

def internal {α : Type} (fault : InternalFault) : GenM α := throw (.internal fault)

def checked {α : Type} (result : Except Panic α) : GenM α :=
  match result with
  | .ok a => return a
  | .error p => throw (.panic p)

def acquire : GenM Xmm := fun ⟨code, registers, links, pool⟩ =>
  match registers.acquire with
  | .ok (r, registers) => .ok r ⟨code, registers, links, pool⟩
  | .error fault => .error fault ⟨code, registers, links, pool⟩

def release (r : Xmm) : GenM Unit := fun ⟨code, registers, links, pool⟩ =>
  match registers.release r with
  | .ok registers => .ok () ⟨code, registers, links, pool⟩
  | .error fault => .error fault ⟨code, registers, links, pool⟩

def live : GenM (List Xmm) := return (← get).registers.live

def addLink (l : Link) : GenM Unit := modify fun ⟨code, registers, links, pool⟩ =>
  ⟨code, registers, links.push l, pool⟩

def intern (x : Double) : GenM Nat := modifyGet fun ⟨code, registers, links, pool⟩ =>
  let (offset, pool) := pool.intern x
  (offset, ⟨code, registers, links, pool⟩)

def slotAddress (slot : Nat) : GenM Mem := do
  let distance ← checked (checkedMul 8 (← checked (checkedAdd slot 1)))
  if distance < 0x80000000 then return ⟨.rbp, Int32.ofInt (-(distance : Int))⟩
  else internal (.slotOutOfRange slot)

def variableAddress (ctx : Context) (var : VarRef) : GenM Mem :=
  match declaration? ctx.function.blocks var with
  | some v => slotAddress v.slot
  | none => throw (.panic .outOfBounds)

def required (m : GenM (Option Xmm)) : GenM Xmm := do
  match (← m) with
  | some r => return r
  | none => internal .missingValue

def loadLinked (ctx : Context) (target : SectionId) (offset : Nat) : GenM Unit := do
  let place ← asm (Assembler.moveImm .rax 0)
  addLink ⟨ctx.home, place, target, offset⟩

def constant (ctx : Context) (x : Double) : GenM Xmm := do
  let offset ← intern x
  let r ← acquire
  loadLinked ctx ctx.poolSection offset
  emit (.sseLoad .movSd r ⟨.rax, 0⟩)
  return r

def returnValue (value : Option Xmm) : GenM Unit := do
  match value with
  | some r =>
    if r ≠ Xmm.result then emit (.sse .movSd .result r)
    release r
  | none => emit (.sse .xorPd .result .result)

def epilogue : GenM Unit := do
  emit (.move .rsp .rbp)
  emit (.pop .rbp)
  emit .ret

/-! ### Calls -/

inductive Target where
  | code (id : SectionId)
  | host (f : HostFunction)
deriving DecidableEq, Repr, Inhabited

def target (ctx : Context) (callee : String) : GenM Target :=
  match ctx.sections.lookup callee with
  | some id => return .code id
  | none =>
    match Intrinsic.ofName? callee with
    | some i => return .host (.intrinsic i)
    | none => throw (.unknownExtern callee)

def spillCell (index : Nat) : Mem := ⟨.rsp, Int32.ofNat (8 * index)⟩

def spill : Nat → List Xmm → GenM Unit
  | _, [] => return ()
  | index, r :: rest => do
    emit (.store (spillCell index) r)
    spill (index + 1) rest

def reload : Nat → List Xmm → GenM Unit
  | _, [] => return ()
  | index, r :: rest => do
    emit (.sseLoad .movSd r (spillCell index))
    reload (index + 1) rest

/-- Loads `count` arguments, the first from cell `base`, from argument `index` on. -/
def loadArguments (base : Nat) : Nat → Nat → GenM Unit
  | 0, _ => return ()
  | count + 1, index => do
    match Xmm.argument? index with
    | some r => emit (.sseLoad .movSd r (spillCell (base + index)))
    | none => internal (.argumentWithoutRegister index)
    loadArguments base count (index + 1)

variable [HostAddresses]

def callTarget (ctx : Context) (t : Target) : GenM Unit := do
  match t with
  | .code id => loadLinked ctx id 0
  | .host f =>
    if f.takesContext then emit (.moveImm .rdi HostFunction.contextAddress)
    emit (.moveImm .rax f.address)
  emit (.call .rax)

def releaseAll : List Xmm → GenM Unit
  | [] => return ()
  | r :: rest => do
    releaseAll rest
    release r

/-- Calls a target. All live registers go to cells on the stack, from which the arguments are loaded
and to which the values that outlive the call are restored. -/
def call (ctx : Context) (t : Target) (arguments : GenM (List Xmm)) (returns : Bool) :
    GenM (Option Xmm) := do
  let before := (← live).length
  let args ← arguments
  let held ← live
  -- There are sixteen registers, so that the sum is no matter.
  let area := roundUp 16 (8 * held.length)
  if 0 < area then asm (Assembler.reserveStack area)
  spill 0 held
  loadArguments before args.length 0
  callTarget ctx t
  releaseAll args
  let result ←
    if returns then
      let r ← acquire
      if r ≠ Xmm.result then emit (.sse .movSd r .result)
      pure (some r)
    else pure none
  reload 0 ((← live).take before)
  if 0 < area then asm (Assembler.freeStack area)
  return result

end ScalarJit.Codegen
