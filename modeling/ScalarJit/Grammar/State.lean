import ScalarJit.Grammar.Complaint
import ScalarJit.Token.Lexer
import ScalarJit.Tree.Program

/-! # The state of reading a program

One token is looked at, the rest of the source is behind a lexer. Line feeds count as tokens only
outside round brackets. What has been read of the current function is its scope: the blocks so far
and which of them is open. Problems become diagnostics, and reading goes on after the statement or
the declaration that has one. -/

namespace ScalarJit.Grammar

structure Scope where
  name : String
  signature : Signature
  blocks : List Block
  slots : Nat
  current : Option BlockId
deriving Repr, Inhabited

def Scope.empty : Scope := ⟨"", ⟨[], .void⟩, [], 0, none⟩

structure State where
  source : List Char
  lexer : Lexer
  token : Token
  /-- Round brackets that are open. -/
  brackets : Nat
  /-- Operands that are being read, each inside the one before. -/
  nesting : Nat
  functions : List (Named Function)
  externs : List (Named Signature)
  diagnostics : Array Diagnostic
  scope : Scope
deriving Repr, Inhabited

/-- A step of reading that can end in a problem; the state it got to is kept. -/
abbrev ParseM := EStateM Problem State

namespace State

def bump (s : State) : State :=
  let step := s.lexer.next (s.brackets == 0)
  { s with
    lexer := step.lexer
    token := step.token
    diagnostics := s.diagnostics ++ (step.faults.map (·.diagnostic s.source)).toArray }

def ofSource (source : List Char) : State :=
  bump
    { source
      lexer := .ofSource source
      token := ⟨.newline, .start⟩
      brackets := 0
      nesting := 0
      functions := []
      externs := []
      diagnostics := #[]
      scope := .empty }

def remaining (s : State) : Nat := s.lexer.rest.length + 2

def report (s : State) (p : Problem) : State :=
  { s with diagnostics := s.diagnostics ++ (p.diagnostics s.source).toArray }

/-! ### Recovery -/

/-- Passes tokens up to the end of a statement: a line feed or a closing brace that is not inside
braces opened on the way. -/
def skipStatement : Nat → Nat → State → State
  | 0, _, s => s
  | bound + 1, depth, s =>
    match s.token.kind with
    | .endOfFile => s
    | .newline => if depth = 0 then s else skipStatement bound depth s.bump
    | .symbol .closedCurly => if depth = 0 then s else skipStatement bound (depth - 1) s.bump
    | .symbol .openCurly => skipStatement bound (depth + 1) s.bump
    | _ => skipStatement bound depth s.bump

def endStatement (s : State) : State :=
  let s := { s with brackets := 0 }
  s.skipStatement s.remaining 0

/-- Passes tokens up to the end of a declaration: a line feed outside braces or the closing brace
of a body. -/
def skipDeclaration : Nat → Nat → State → State
  | 0, _, s => s
  | bound + 1, depth, s =>
    match s.token.kind with
    | .endOfFile => s
    | .newline => if depth = 0 then s else skipDeclaration bound depth s.bump
    | .symbol .closedCurly =>
      if depth ≤ 1 then s.bump else skipDeclaration bound (depth - 1) s.bump
    | .symbol .openCurly => skipDeclaration bound (depth + 1) s.bump
    | _ => skipDeclaration bound depth s.bump

def endDeclaration (s : State) : State :=
  let s := { s with brackets := 0 }
  s.skipDeclaration s.remaining 0

/-! ### Scopes -/

def isDeclared (s : State) (name : String) : Bool :=
  (s.functions.lookup name).isSome || (s.externs.lookup name).isSome

def signature? (s : State) (name : String) : Option Signature :=
  match s.functions.lookup name with
  | some f => some f.signature
  | none =>
    match s.externs.lookup name with
    | some signature => some signature
    | none => if s.scope.name = name then some s.scope.signature else none

def here (s : State) : BlockId := s.scope.current.getD rootBlock

def openBlock (s : State) : BlockId × State :=
  let id := s.scope.blocks.length
  let blocks := s.scope.blocks ++ [Block.empty s.scope.current]
  (id, { s with scope := { s.scope with blocks, current := some id } })

def declare (s : State) (name : String) (ty : Ty) (mutable : Bool) : VarRef × State :=
  let block := s.here
  let index := (s.scope.blocks[block]?.map (·.locals.length)).getD 0
  let added : Variable := ⟨name, ty, mutable, s.scope.slots⟩
  let blocks := s.scope.blocks.modify block fun b => { b with locals := b.locals ++ [added] }
  (⟨block, index⟩, { s with scope := { s.scope with blocks, slots := s.scope.slots + 1 } })

def addStatement (s : State) (id : BlockId) (e : Expr) : State :=
  let blocks := s.scope.blocks.modify id fun b => { b with statements := b.statements ++ [e] }
  { s with scope := { s.scope with blocks } }

def closeBlock (s : State) (id : BlockId) : State :=
  { s with scope := { s.scope with current := s.scope.blocks[id]?.bind (·.parent) } }

end State

/-- The state in which an operand inside the current one is read. -/
def State.descend (s : State) : State := { s with nesting := s.nesting + 1 }

def State.ascend (s : State) : State := { s with nesting := s.nesting - 1 }

/-! ### Steps -/

def token : ParseM Token := return (← get).token

def kind : ParseM TokenKind := return (← get).token.kind

def bump : ParseM Unit := modify State.bump

def failAt {α : Type} (t : Token) (c : Complaint) : ParseM α := throw ⟨c, t.position⟩

def failHere {α : Type} (c : Complaint) : ParseM α := do failAt (← token) c

def openBracket : ParseM Unit := modify fun s => { s with brackets := s.brackets + 1 }.bump

def closeBracket : ParseM Unit := modify fun s => { s with brackets := s.brackets - 1 }.bump

def expectSymbol (symbol : Symbol) (c : Complaint) : ParseM Unit := do
  if (← kind) = .symbol symbol then bump else failHere c

def identifier (c : Complaint) : ParseM String := do
  match (← kind) with
  | .identifier name => bump; return name
  | _ => failHere c

def typeName : ParseM Ty := do
  let start ← token
  let name ← identifier .expectedTypeName
  match Ty.ofName? name with
  | some ty => return ty
  | none => failAt start (.unknownType name)

/-- What typed construction refuses is a problem at a token. -/
def typed (start : Token) (result : Except TypeFault Expr) : ParseM Expr :=
  match result with
  | .ok e => return e
  | .error fault => failAt start (.typing fault)

/-! ### Progress -/

theorem State.length_rest_bump_le (s : State) :
    s.bump.lexer.rest.length ≤ s.lexer.rest.length :=
  Lexer.length_rest_next_le ..

/-- Moving to a token other than the end of file uses up some of the source. -/
theorem State.length_rest_bump_lt (s : State) (h : s.bump.token.kind ≠ .endOfFile) :
    s.bump.lexer.rest.length < s.lexer.rest.length :=
  Lexer.length_rest_next_lt _ _ h

end ScalarJit.Grammar
