import ScalarJit.Grammar.Block

/-! # Operands

An operand is a literal, a variable, a call, a block, a conditional, a bracketed expression or a
sign with an operand. Operands inside operands nest to a fixed depth, which the state counts: up
before an operand, down after it, whether it could be read or not. -/

namespace ScalarJit.Grammar

def nestingLimit : Nat := 256

def callArguments (operand : ParseM Expr) (callee : String) : Nat → List Expr → ParseM (List Expr)
  | 0, args => return args
  | bound + 1, args => do
    let arg ← expression operand
    let args := args ++ [arg]
    match (← kind) with
    | .symbol .comma =>
      bump
      callArguments operand callee bound args
    | .symbol .closedBracket => return args
    | _ => failHere (.unfinishedCall callee)

def call (operand : ParseM Expr) (callee : String) (start : Token) : ParseM Expr := do
  openBracket
  let args ←
    if (← kind) = .symbol .closedBracket then pure []
    else callArguments operand callee (← get).remaining []
  closeBracket
  match (← get).signature? callee with
  | some signature => typed start (Typing.call callee signature args)
  | none => failAt start (.undefinedFunction callee)

def readVariable (name : String) (start : Token) : ParseM Expr := do
  let s ← get
  let found := (resolve s.scope.blocks s.here name).bind fun var =>
    (declaration? s.scope.blocks var).map fun v => Expr.read name var v.ty v.mutable
  match found with
  | some e => return e
  | none => failAt start (.undefinedVariable name)

structure Branch where
  start : Token
  condition : Expr
  body : Expr

def branch (operand : ParseM Expr) (keyword : Keyword) : ParseM Branch := do
  let start ← token
  bump
  let condition ← expression operand
  if (← kind) ≠ .symbol .openCurly then failHere (.expectedBranch keyword)
  let body ← block operand
  return ⟨start, condition, body⟩

def furtherBranches (operand : ParseM Expr) : Nat → List Branch → ParseM (List Branch)
  | 0, branches => return branches
  | bound + 1, branches => do
    if (← kind) = .keyword .elifBranch then
      let next ← branch operand .elifBranch
      furtherBranches operand bound (branches ++ [next])
    else return branches

/-- Each branch with those after it as its alternative, the last with `otherwise`. -/
def joinBranches (otherwise : Option Expr) : List Branch → ParseM (Option Expr)
  | [] => return otherwise
  | b :: rest => do
    let alternative ← joinBranches otherwise rest
    some <$> typed b.start (Typing.conditional b.condition b.body alternative)

def conditional (operand : ParseM Expr) : ParseM Expr := do
  let head ← branch operand .ifBranch
  let further ← furtherBranches operand (← get).remaining []
  let otherwise ←
    if (← kind) = .keyword .elseBranch then
      bump
      if (← kind) ≠ .symbol .openCurly then failHere .expectedElseBranch
      some <$> block operand
    else pure none
  let alternative ← joinBranches otherwise further
  typed head.start (Typing.conditional head.condition head.body alternative)

def signed (operand : ParseM Expr) (op : UnaryOp) : ParseM Expr := do
  let start ← token
  bump
  let e ← operand
  typed start (Typing.unary op e)

def bracketed (operand : ParseM Expr) : ParseM Expr := do
  let start ← token
  openBracket
  if (← kind) = .symbol .closedBracket then failAt start .emptyBrackets
  let e ← expression operand
  if (← kind) ≠ .symbol .closedBracket then failHere .unclosedBrackets
  closeBracket
  return e

/-- One level of operands, given the level below. -/
def operandWith (operand : ParseM Expr) : ParseM Expr := do
  let start ← token
  match start.kind with
  | .symbol .minus => signed operand .minus
  | .symbol .plus => signed operand .plus
  | .symbol .openBracket => bracketed operand
  | .symbol .openCurly => block operand
  | .number value =>
    bump
    return .literal value
  | .identifier name =>
    bump
    if (← kind) = .symbol .openBracket then call operand name start else readVariable name start
  | .keyword .ifBranch => conditional operand
  | found => failHere (.expectedExpression found)

/-- Reads one more operand inside those that are being read, unless these are too many. -/
def nested (operand : ParseM Expr) : ParseM Expr := fun s =>
  if nestingLimit ≤ s.nesting then failHere .nestedTooDeeply s
  else
    match operand s.descend with
    | .ok e t => .ok e t.ascend
    | .error problem t => .error problem t.ascend

/-- An operand, with `depth` levels of operands at most. From the body of a function on these are
`nestingLimit` levels, as many as the count in the state allows. -/
def operandWithin : Nat → ParseM Expr
  | 0 => failHere .nestedTooDeeply
  | depth + 1 => nested (operandWith (operandWithin depth))

end ScalarJit.Grammar
