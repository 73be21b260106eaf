import ScalarJit.Grammar.Operator

/-! # Statements and blocks

A statement ends at a line feed, a closing brace or the end of the source. A problem in a statement
costs that statement only, so a block is always read to its closing brace. -/

namespace ScalarJit.Grammar

def endsStatement : TokenKind → Bool
  | .newline => true
  | .symbol .closedCurly => true
  | .endOfFile => true
  | _ => false

/-- A declaration of a variable with its first value. The name is visible only after it. -/
def binding (operand : ParseM Expr) (mutable : Bool) : ParseM Expr := do
  bump
  let start ← token
  let name ← identifier .expectedVariableName
  let annotation ←
    if (← kind) = .symbol .colon then
      bump
      some <$> typeName
    else pure none
  expectSymbol .assign .expectedInitialValue
  let value ← expression operand
  if value.ty = .void then failAt start (.boundToNothing name)
  match annotation with
  | some ty =>
    if ty ≠ value.ty then failAt start (.annotationMismatch name ty value.ty)
  | none => pure ()
  let var ← modifyGet fun s => s.declare name value.ty mutable
  return .bind name var value

def returnStatement (operand : ParseM Expr) : ParseM Expr := do
  let start ← token
  bump
  let value ← if endsStatement (← kind) then pure none else some <$> expression operand
  typed start (Typing.leave value (← get).scope.signature.result)

def statement (operand : ParseM Expr) : ParseM Expr := do
  match (← kind) with
  | .keyword .letBinding => binding operand false
  | .keyword .varBinding => binding operand true
  | .keyword .returns => returnStatement operand
  | .keyword .function => failHere .closure
  | .keyword .uses => failHere .useInBlock
  | _ => expression operand

/-- Reads statements into a block up to its closing brace, `bound` of them at most. -/
def statements (operand : ParseM Expr) (id : BlockId) : Nat → State → State
  | 0, s => s
  | bound + 1, s =>
    match s.token.kind with
    | .newline => statements operand id bound s.bump
    | .symbol .closedCurly => s
    | .endOfFile => s.report ⟨.unclosedBlock, s.token.position⟩
    | _ =>
      match (statement operand).run s with
      | .error problem after => statements operand id bound (after.report problem).endStatement
      | .ok e after =>
        if !endsStatement after.token.kind then
          let problem := ⟨.unfinishedStatement, after.token.position⟩
          statements operand id bound (after.report problem).endStatement
        else if !e.useful then
          statements operand id bound (after.report ⟨.uselessStatement, s.token.position⟩)
        else statements operand id bound (after.addStatement id e)

/-- Reads the body of an open block, from its opening brace on. Line feeds count inside braces,
whatever brackets are open around them. -/
def blockBody (operand : ParseM Expr) (id : BlockId) (s : State) : Expr × State :=
  let outer := s.brackets
  let s := { s with brackets := 0 }.bump
  let s := statements operand id s.remaining s
  let s := { s with brackets := outer }
  let s := if s.token.kind = .symbol .closedCurly then s.bump else s
  let ty := (s.scope.blocks[id]?.map (·.ty)).getD .void
  (.block id ty, s.closeBlock id)

def block (operand : ParseM Expr) : ParseM Expr := modifyGet fun s =>
  let (id, s) := s.openBlock
  blockBody operand id s

end ScalarJit.Grammar
