import ScalarJit.Grammar.Operand

/-! # Declarations and programs

A program is a list of functions and of host functions that it uses. A declaration with a problem in
its head is passed over; a function whose head is right is kept whatever its body holds. -/

namespace ScalarJit
namespace Grammar

def declaredArguments : Nat → List (String × Ty) → ParseM (List (String × Ty))
  | 0, args => return args
  | bound + 1, args => do
    let start ← token
    let name ← identifier .expectedArgumentName
    expectSymbol .colon .expectedArgumentType
    let ty ← typeName
    if args.any (·.1 == name) then failAt start (.repeatedArgument name)
    let args := args ++ [(name, ty)]
    match (← kind) with
    | .symbol .comma =>
      bump
      declaredArguments bound args
    | .symbol .closedBracket => return args
    | _ => failHere .unfinishedArgumentList

def signature : ParseM (Named Signature) := do
  let name ← identifier .expectedFunctionName
  if (← kind) ≠ .symbol .openBracket then failHere .expectedArgumentList
  openBracket
  let args ←
    if (← kind) = .symbol .closedBracket then pure []
    else declaredArguments (← get).remaining []
  closeBracket
  let result ←
    if (← kind) = .symbol .arrow then
      bump
      typeName
    else pure .void
  return (name, ⟨args, result⟩)

def useDeclaration : ParseM Unit := do
  let start ← token
  bump
  let (name, signature) ← signature
  if (← get).isDeclared name then failAt start (.alreadyDeclaredForUse name)
  match (← kind) with
  | .newline | .endOfFile => pure ()
  | _ => failHere .unfinishedUse
  modify fun s => { s with externs := s.externs ++ [(name, signature)] }

def skipNewlines : Nat → State → State
  | 0, s => s
  | bound + 1, s => if s.token.kind = .newline then skipNewlines bound s.bump else s

def functionHead : ParseM (Named Signature) := do
  let start ← token
  bump
  let (name, signature) ← signature
  if ((← get).externs.lookup name).isSome then failAt start (.alreadyUsed name)
  if ((← get).functions.lookup name).isSome then failAt start (.alreadyDefined name)
  modify fun s => skipNewlines s.remaining s
  if (← kind) ≠ .symbol .openCurly then failHere .expectedBody
  return (name, signature)

def declareArguments (s : State) (args : List (String × Ty)) : State :=
  args.foldl (fun s (name, ty) => (s.declare name ty false).2) s

def functionBody (name : String) (signature : Signature) (s : State) : State :=
  let s := { s with scope := { Scope.empty with name, signature } }
  let (root, s) := s.openBlock
  let s := declareArguments s signature.args
  let (body, s) := blockBody (operandWithin nestingLimit) root s
  let function : Function := ⟨signature, body, s.scope.blocks, s.scope.slots⟩
  { s with functions := s.functions ++ [(name, function)], scope := .empty }

def declaration (s : State) : State :=
  match s.token.kind with
  | .keyword .function =>
    match functionHead.run s with
    | .ok (name, signature) s => functionBody name signature s
    | .error problem s => s.endDeclaration.report problem
  | .keyword .uses =>
    match useDeclaration.run s with
    | .ok _ s => s
    | .error problem s => s.endDeclaration.report problem
  | .newline => s.bump
  | found => s.endDeclaration.report ⟨.invalidTopLevel found, s.token.position⟩

def declarations : Nat → State → State
  | 0, s => s
  | bound + 1, s =>
    if s.token.kind = .endOfFile then s else declarations bound (declaration s)

end Grammar

/-- The program that a source spells, as far as it could be read, with all that is wrong in it. -/
def Program.parse (source : List Char) : Program :=
  let s := Grammar.State.ofSource source
  let s := Grammar.declarations s.remaining s
  ⟨s.functions, s.externs, s.diagnostics.toList⟩

end ScalarJit
