import ScalarJit.Codegen.Expr

/-! # Code of programs

Each function becomes an executable section, in the order of names. Literals share a read-only
section after them, which is there only if there are literals. -/

namespace ScalarJit

structure Object where
  sections : List Section
  links : List Link
  /-- The section of every function, in the order of names. Code starts at its first byte. -/
  entries : List (Named SectionId)
deriving Repr, Inhabited

def Object.entry? (o : Object) (name : String) : Option SectionId := o.entries.lookup name

namespace Codegen

open X86 (Assembler Xmm)

def storeArguments (ctx : Context) : Nat → Nat → GenM Unit
  | 0, _ => return ()
  | count + 1, index => do
    match declaration? ctx.function.blocks ⟨rootBlock, index⟩ with
    | none => throw (.panic .outOfBounds)
    | some v =>
      match Xmm.argument? index with
      | none => internal (.argumentWithoutRegister index)
      | some r =>
        let address ← slotAddress v.slot
        emit (.store address r)
    storeArguments ctx count (index + 1)

variable [HostAddresses]

/-- Generates a function: its frame, its arguments, its body and the way back. A body without a
value returns zero. -/
def functionCode (ctx : Context) : GenM Unit := do
  let f := ctx.function
  emit (.push .rbp)
  emit (.move .rbp .rsp)
  let bytes ← checked (checkedMul 8 f.slots)
  let padded ← checked (checkedAdd bytes 15)
  let frame := padded / 16 * 16
  if 0 < frame then asm (Assembler.reserveStack frame)
  storeArguments ctx f.signature.args.length 0
  let value ← functionExpr ctx f.body
  returnValue value
  epilogue
  let held ← live
  if held ≠ [] then internal (.registersHeld held.length)

def checkSignature (name : String) (s : Signature) : Except Fault Unit := do
  if maxArguments < s.args.length then throw (.tooManyArguments name s.args.length)
  match s.args.find? fun (_, ty) => ty ≠ .float64 with
  | some (arg, ty) => throw (.unsupportedType s!"Argument {arg} of {name}" ty)
  | none => pure ()
  if s.result ≠ .void ∧ s.result ≠ .float64 then
    throw (.unsupportedType s!"The return value of {name}" s.result)

def checkFunction (name : String) (f : Function) : Except Fault Unit := do
  checkSignature name f.signature
  match (f.blocks.flatMap (·.locals)).find? fun v => v.ty ≠ .float64 with
  | some v => throw (.unsupportedType s!"Variable {v.name} in {name}" v.ty)
  | none => pure ()

def checkExtern (name : String) (s : Signature) : Except Fault Unit := do
  checkSignature name s
  match Intrinsic.ofName? name with
  | none => throw (.unknownExtern name)
  | some i =>
    if i.arity ≠ s.args.length then throw (.externArity name i.arity s.args.length)

structure Shared where
  links : Array Link
  pool : Pool
deriving Inhabited

def generateFunction (ctx : Context) (shared : Shared) : Except Fault (Array UInt8 × Shared) :=
  match (functionCode ctx).run ⟨.empty Assembler.defaultLimit, .empty, shared.links, shared.pool⟩ with
  | .ok _ s => .ok (s.asm.code, ⟨s.links, s.pool⟩)
  | .error fault _ => .error fault

def generateFunctions (poolSection : SectionId) (sections : List (Named SectionId)) :
    SectionId → List (Named Function) → Shared → Except Fault (List Section × Shared)
  | _, [], shared => .ok ([], shared)
  | home, (name, f) :: rest, shared => do
    checkFunction name f
    let (code, shared) ← generateFunction ⟨f, home, poolSection, sections⟩ shared
    let (others, shared) ← generateFunctions poolSection sections (home + 1) rest shared
    return (⟨.executable, code⟩ :: others, shared)

end Codegen

def Program.compile [HostAddresses] (p : Program) : Except Codegen.Fault Object := do
  if p.errorCount ≠ 0 then throw (.hasDiagnostics p.errorCount)
  (Named.sort p.externs).forM fun (name, s) => Codegen.checkExtern name s
  let functions := Named.sort p.functions
  let entries := functions.zipIdx.map fun ((name, _), id) => (name, id)
  let (sections, shared) ← Codegen.generateFunctions functions.length entries 0 functions ⟨#[], .empty⟩
  let pool : List Section :=
    if shared.pool.values.isEmpty then [] else [⟨.readOnly, shared.pool.bytes⟩]
  return ⟨sections ++ pool, shared.links.toList, entries⟩

end ScalarJit
