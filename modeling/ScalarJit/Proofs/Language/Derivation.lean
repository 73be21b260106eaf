import ScalarJit.Grammar.Declaration

/-! # The language

What the tokens of a source have to be for it to be a program, and which program they are. The rules
are those of a grammar with attributes: each reads a part of the tokens, from an input up to a rest,
inside a scope, and gives the tree of that part and the scope after it. -/

namespace ScalarJit.Grammar

/-! ### Line feeds -/

structure Mode where
  /-- Round brackets since the innermost brace. -/
  depth : Nat
  /-- Round brackets around each brace that is open, the innermost first. -/
  outer : List Nat
deriving DecidableEq, Repr, Inhabited

def Mode.after (m : Mode) : TokenKind → Mode
  | .symbol .openBracket => ⟨m.depth + 1, m.outer⟩
  | .symbol .closedBracket => ⟨m.depth - 1, m.outer⟩
  | .symbol .openCurly => ⟨0, m.depth :: m.outer⟩
  | .symbol .closedCurly => ⟨m.outer.headD 0, m.outer.tail⟩
  | _ => m

/-- Tokens without the line feeds inside round brackets. Within braces line feeds count again. -/
def significant : Mode → List TokenKind → List TokenKind
  | _, [] => []
  | m, k :: rest =>
    if k = .newline ∧ 0 < m.depth then significant m rest else k :: significant (m.after k) rest

def tokens (source : List Char) : List TokenKind :=
  significant ⟨0, []⟩ ((tokenize source true).1.map (·.kind))

/-! ### Scopes -/

namespace Scope

def here (σ : Scope) : BlockId := σ.current.getD rootBlock

def openBlock (σ : Scope) : Scope :=
  { σ with blocks := σ.blocks ++ [Block.empty σ.current], current := some σ.blocks.length }

def nextVar (σ : Scope) : VarRef := ⟨σ.here, (σ.blocks[σ.here]?.map (·.locals.length)).getD 0⟩

def declare (σ : Scope) (name : String) (ty : Ty) (mutable : Bool) : Scope :=
  { σ with
    blocks := σ.blocks.modify σ.here fun b =>
      { b with locals := b.locals ++ [⟨name, ty, mutable, σ.slots⟩] }
    slots := σ.slots + 1 }

def addStatement (σ : Scope) (id : BlockId) (e : Expr) : Scope :=
  { σ with blocks := σ.blocks.modify id fun b => { b with statements := b.statements ++ [e] } }

def closeBlock (σ : Scope) (id : BlockId) : Scope :=
  { σ with current := σ.blocks[id]?.bind (·.parent) }

def blockExpr (σ : Scope) (id : BlockId) : Expr := .block id ((σ.blocks[id]?.map (·.ty)).getD .void)

end Scope

/-- What can be called: an earlier function, a host function, or the function that is being read. -/
inductive Callable (functions : List (Named Function)) (externs : List (Named Signature))
    (σ : Scope) (name : String) : Signature → Prop
  | function {f : Function} (h : functions.lookup name = some f) :
      Callable functions externs σ name f.signature
  | used {signature : Signature} (hf : functions.lookup name = none)
      (h : externs.lookup name = some signature) : Callable functions externs σ name signature
  | itself (hf : functions.lookup name = none) (he : externs.lookup name = none)
      (h : σ.name = name) : Callable functions externs σ name σ.signature

/-! ### Operators -/

/-- Operators on their operands. Only variables declared with `var` are assigned to. -/
inductive Joined : Operator → Expr → Expr → Expr → Prop
  | operation {op : BinaryOp} {lhs rhs : Expr} (hvalue : lhs.ty ≠ .void) (hty : rhs.ty = lhs.ty) :
      Joined (.operation op) lhs rhs (.binary op lhs rhs)
  | assignment {name : String} {var : VarRef} {ty : Ty} {value : Expr} (hty : value.ty = ty) :
      Joined (.assignment none) (.read name var ty true) value (.write name var value)
  | compound {op : BinaryOp} {name : String} {var : VarRef} {ty : Ty} {rhs : Expr}
      (hvalue : ty ≠ .void) (hty : rhs.ty = ty) :
      Joined (.assignment (some op)) (.read name var ty true) rhs
        (.write name var (.binary op (.read name var ty true) rhs))

inductive Chosen (condition onTrue : Expr) : Option Expr → Expr → Prop
  | alone (hvalue : condition.ty ≠ .void) :
      Chosen condition onTrue none (.ifThen condition onTrue)
  | both {onFalse : Expr} (hvalue : condition.ty ≠ .void) (hty : onFalse.ty = onTrue.ty)
      (hcategory : onFalse.category = onTrue.category) :
      Chosen condition onTrue (some onFalse) (.ifThenElse condition onTrue onFalse)

/-! ### Inside functions -/

/-- What is read, with its tree. -/
inductive Form where
  | operand (e : Expr)
  /-- Operands joined by operators that bind at least so tight. -/
  | level (least : Nat) (e : Expr)
  | arguments (args : List Expr)
  /-- What comes after the first branch of a conditional. -/
  | alternative (e : Option Expr)
  | statement (e : Expr)
  | statements (id : BlockId)
  | body (id : BlockId) (e : Expr)

inductive Sign : Symbol → UnaryOp → Prop
  | minus : Sign .minus .minus
  | plus : Sign .plus .plus

inductive Binder : Keyword → Bool → Prop
  | fixed : Binder .letBinding false
  | mutable : Binder .varBinding true

inductive Annotation : Option Ty → List TokenKind → List TokenKind → Prop
  | absent {rest : List TokenKind} : Annotation none rest rest
  | present {name : String} {ty : Ty} {rest : List TokenKind} (h : Ty.ofName? name = some ty) :
      Annotation (some ty) (.symbol .colon :: .identifier name :: rest) rest

def StatementEnd (rest : List TokenKind) : Prop :=
  rest.head? = some .newline ∨ rest.head? = some (.symbol .closedCurly)

/-- Parts of a function, with operands nested to a depth at most. -/
inductive Derives (functions : List (Named Function)) (externs : List (Named Signature)) :
    Nat → Form → Scope → List TokenKind → Scope → List TokenKind → Prop
  -- Operands.
  | signed {d : Nat} {sign : Symbol} {op : UnaryOp} {e : Expr} {σ σ' : Scope}
      {input rest : List TokenKind} (hsign : Sign sign op)
      (h : Derives functions externs d (.operand e) σ input σ' rest) (hvalue : e.ty ≠ .void) :
      Derives functions externs (d + 1) (.operand (.unary op e)) σ (.symbol sign :: input) σ' rest
  | bracketed {d : Nat} {e : Expr} {σ σ' : Scope} {input rest : List TokenKind}
      (h : Derives functions externs d (.level 1 e) σ input σ' (.symbol .closedBracket :: rest)) :
      Derives functions externs (d + 1) (.operand e) σ (.symbol .openBracket :: input) σ' rest
  | block {d : Nat} {e : Expr} {σ σ' : Scope} {input rest : List TokenKind}
      (h : Derives functions externs d (.body σ.blocks.length e) σ.openBlock input σ' rest) :
      Derives functions externs (d + 1) (.operand e) σ input σ' rest
  | number {d : Nat} {value : Double} {σ : Scope} {rest : List TokenKind} :
      Derives functions externs (d + 1) (.operand (.literal value)) σ (.number value :: rest) σ rest
  | named {d : Nat} {name : String} {var : VarRef} {v : Variable} {σ : Scope}
      {rest : List TokenKind} (hvar : resolve σ.blocks σ.here name = some var)
      (hv : declaration? σ.blocks var = some v) :
      Derives functions externs (d + 1) (.operand (.read name var v.ty v.mutable)) σ
        (.identifier name :: rest) σ rest
  | call {d : Nat} {name : String} {args : List Expr} {signature : Signature} {σ σ' : Scope}
      {input rest : List TokenKind}
      (h : Derives functions externs d (.arguments args) σ input σ' (.symbol .closedBracket :: rest))
      (hcallee : Callable functions externs σ' name signature)
      (htypes : signature.args.map (·.2) = args.map (·.ty)) :
      Derives functions externs (d + 1) (.operand (.call name args signature.result)) σ
        (.identifier name :: .symbol .openBracket :: input) σ' rest
  | conditional {d : Nat} {condition onTrue e : Expr} {onFalse : Option Expr} {σ σ₁ σ₂ σ' : Scope}
      {input branch more rest : List TokenKind}
      (hc : Derives functions externs d (.level 1 condition) σ input σ₁ branch)
      (ht : Derives functions externs d (.body σ₁.blocks.length onTrue) σ₁.openBlock branch σ₂ more)
      (hf : Derives functions externs d (.alternative onFalse) σ₂ more σ' rest)
      (he : Chosen condition onTrue onFalse e) :
      Derives functions externs (d + 1) (.operand e) σ (.keyword .ifBranch :: input) σ' rest
  -- Operators: those of one level group all to the left or all to the right.
  | tightest {d : Nat} {e : Expr} {σ σ' : Scope} {input rest : List TokenKind}
      (h : Derives functions externs d (.operand e) σ input σ' rest) :
      Derives functions externs d (.level 6 e) σ input σ' rest
  | looser {d n : Nat} {e : Expr} {σ σ' : Scope} {input rest : List TokenKind}
      (h : Derives functions externs d (.level (n + 1) e) σ input σ' rest) :
      Derives functions externs d (.level n e) σ input σ' rest
  | joinLeft {d : Nat} {sign : Symbol} {op : Operator} {lhs rhs e : Expr} {σ σ₁ σ' : Scope}
      {input mid rest : List TokenKind} (hop : Operator.ofSymbol? sign = some op)
      (hleft : op.groupsRight = false)
      (hl : Derives functions externs d (.level op.precedence lhs) σ input σ₁ (.symbol sign :: mid))
      (hr : Derives functions externs d (.level (op.precedence + 1) rhs) σ₁ mid σ' rest)
      (he : Joined op lhs rhs e) :
      Derives functions externs d (.level op.precedence e) σ input σ' rest
  | joinRight {d : Nat} {sign : Symbol} {op : Operator} {lhs rhs e : Expr} {σ σ₁ σ' : Scope}
      {input mid rest : List TokenKind} (hop : Operator.ofSymbol? sign = some op)
      (hright : op.groupsRight = true)
      (hl : Derives functions externs d (.level (op.precedence + 1) lhs) σ input σ₁
        (.symbol sign :: mid))
      (hr : Derives functions externs d (.level op.precedence rhs) σ₁ mid σ' rest)
      (he : Joined op lhs rhs e) :
      Derives functions externs d (.level op.precedence e) σ input σ' rest
  -- Arguments, up to the closing bracket.
  | noArguments {d : Nat} {σ : Scope} {rest : List TokenKind} :
      Derives functions externs d (.arguments []) σ (.symbol .closedBracket :: rest) σ
        (.symbol .closedBracket :: rest)
  | lastArgument {d : Nat} {e : Expr} {σ σ' : Scope} {input rest : List TokenKind}
      (h : Derives functions externs d (.level 1 e) σ input σ' (.symbol .closedBracket :: rest)) :
      Derives functions externs d (.arguments [e]) σ input σ' (.symbol .closedBracket :: rest)
  | argument {d : Nat} {e next : Expr} {args : List Expr} {σ σ₁ σ' : Scope}
      {input mid rest : List TokenKind}
      (h : Derives functions externs d (.level 1 e) σ input σ₁ (.symbol .comma :: mid))
      (hrest : Derives functions externs d (.arguments (next :: args)) σ₁ mid σ' rest) :
      Derives functions externs d (.arguments (e :: next :: args)) σ input σ' rest
  -- Further branches.
  | noAlternative {d : Nat} {σ : Scope} {rest : List TokenKind} :
      Derives functions externs d (.alternative none) σ rest σ rest
  | otherwise {d : Nat} {e : Expr} {σ σ' : Scope} {input rest : List TokenKind}
      (h : Derives functions externs d (.body σ.blocks.length e) σ.openBlock input σ' rest) :
      Derives functions externs d (.alternative (some e)) σ (.keyword .elseBranch :: input) σ' rest
  | further {d : Nat} {condition onTrue e : Expr} {onFalse : Option Expr} {σ σ₁ σ₂ σ' : Scope}
      {input branch more rest : List TokenKind}
      (hc : Derives functions externs d (.level 1 condition) σ input σ₁ branch)
      (ht : Derives functions externs d (.body σ₁.blocks.length onTrue) σ₁.openBlock branch σ₂ more)
      (hf : Derives functions externs d (.alternative onFalse) σ₂ more σ' rest)
      (he : Chosen condition onTrue onFalse e) :
      Derives functions externs d (.alternative (some e)) σ (.keyword .elifBranch :: input) σ' rest
  -- Statements.
  | binding {d : Nat} {word : Keyword} {mutable : Bool} {name : String} {given : Option Ty}
      {value : Expr} {σ σ' : Scope} {input mid rest : List TokenKind} (hword : Binder word mutable)
      (hgiven : Annotation given input (.symbol .assign :: mid))
      (h : Derives functions externs d (.level 1 value) σ mid σ' rest) (hvalue : value.ty ≠ .void)
      (hty : ∀ ty, given = some ty → ty = value.ty) :
      Derives functions externs d (.statement (.bind name σ'.nextVar value)) σ
        (.keyword word :: .identifier name :: input) (σ'.declare name value.ty mutable) rest
  | leave {d : Nat} {σ : Scope} {rest : List TokenKind} (hresult : σ.signature.result = .void) :
      Derives functions externs d (.statement .leave) σ (.keyword .returns :: rest) σ rest
  | leaveWith {d : Nat} {value : Expr} {σ σ' : Scope} {input rest : List TokenKind}
      (h : Derives functions externs d (.level 1 value) σ input σ' rest)
      (hresult : value.ty = σ'.signature.result) :
      Derives functions externs d (.statement (.leaveWith value)) σ (.keyword .returns :: input) σ' rest
  | expression {d : Nat} {e : Expr} {σ σ' : Scope} {input rest : List TokenKind}
      (h : Derives functions externs d (.level 1 e) σ input σ' rest) :
      Derives functions externs d (.statement e) σ input σ' rest
  -- Blocks.
  | noStatements {d : Nat} {id : BlockId} {σ : Scope} {rest : List TokenKind} :
      Derives functions externs d (.statements id) σ (.symbol .closedCurly :: rest) σ
        (.symbol .closedCurly :: rest)
  | emptyLine {d : Nat} {id : BlockId} {σ σ' : Scope} {input rest : List TokenKind}
      (h : Derives functions externs d (.statements id) σ input σ' rest) :
      Derives functions externs d (.statements id) σ (.newline :: input) σ' rest
  | statement {d : Nat} {id : BlockId} {e : Expr} {σ σ₁ σ' : Scope} {input mid rest : List TokenKind}
      (h : Derives functions externs d (.statement e) σ input σ₁ mid) (hend : StatementEnd mid)
      (huseful : e.useful = true)
      (hrest : Derives functions externs d (.statements id) (σ₁.addStatement id e) mid σ' rest) :
      Derives functions externs d (.statements id) σ input σ' rest
  | body {d : Nat} {id : BlockId} {σ σ' : Scope} {input rest : List TokenKind}
      (h : Derives functions externs d (.statements id) σ input σ' (.symbol .closedCurly :: rest)) :
      Derives functions externs d (.body id (σ'.blockExpr id)) σ (.symbol .openCurly :: input)
        (σ'.closeBlock id) rest

/-! ### Declarations -/

inductive Parameters : List String → List (String × Ty) → List TokenKind → List TokenKind → Prop
  | last {seen : List String} {name typeName : String} {ty : Ty} {rest : List TokenKind}
      (hty : Ty.ofName? typeName = some ty) (hname : name ∉ seen) :
      Parameters seen [(name, ty)] (.identifier name :: .symbol .colon :: .identifier typeName :: rest)
        rest
  | more {seen : List String} {name typeName : String} {ty : Ty} {next : String × Ty}
      {args : List (String × Ty)} {input rest : List TokenKind}
      (hty : Ty.ofName? typeName = some ty) (hname : name ∉ seen)
      (h : Parameters (seen ++ [name]) (next :: args) input rest) :
      Parameters seen ((name, ty) :: next :: args)
        (.identifier name :: .symbol .colon :: .identifier typeName :: .symbol .comma :: input) rest

inductive Result : Ty → List TokenKind → List TokenKind → Prop
  | void {rest : List TokenKind} : Result .void rest rest
  | arrow {name : String} {ty : Ty} {rest : List TokenKind} (h : Ty.ofName? name = some ty) :
      Result ty (.symbol .arrow :: .identifier name :: rest) rest

inductive Head : Named Signature → List TokenKind → List TokenKind → Prop
  | noArguments {name : String} {result : Ty} {input rest : List TokenKind}
      (hresult : Result result input rest) :
      Head (name, ⟨[], result⟩)
        (.identifier name :: .symbol .openBracket :: .symbol .closedBracket :: input) rest
  | arguments {name : String} {args : List (String × Ty)} {result : Ty}
      {input mid rest : List TokenKind}
      (hargs : Parameters [] args input (.symbol .closedBracket :: mid))
      (hresult : Result result mid rest) :
      Head (name, ⟨args, result⟩) (.identifier name :: .symbol .openBracket :: input) rest

/-- The scope in which the body of a function is read: its outermost block with its arguments. -/
def Scope.ofHead (name : String) (signature : Signature) : Scope :=
  signature.args.foldl (fun σ arg => σ.declare arg.1 arg.2 false)
    ({ Scope.empty with name, signature } : Scope).openBlock

/-- Declarations after those that were read, up to the end of the source. -/
inductive Declares : List (Named Function) → List (Named Signature) → List TokenKind →
    List (Named Function) → List (Named Signature) → Prop
  | done {functions : List (Named Function)} {externs : List (Named Signature)} :
      Declares functions externs [.endOfFile] functions externs
  | newline {functions functions' : List (Named Function)} {externs externs' : List (Named Signature)}
      {input : List TokenKind} (h : Declares functions externs input functions' externs') :
      Declares functions externs (.newline :: input) functions' externs'
  | used {functions functions' : List (Named Function)} {externs externs' : List (Named Signature)}
      {name : String} {signature : Signature} {input rest : List TokenKind}
      (hhead : Head (name, signature) input rest)
      (hend : rest.head? = some .newline ∨ rest.head? = some .endOfFile)
      (hf : functions.lookup name = none) (he : externs.lookup name = none)
      (h : Declares functions (externs ++ [(name, signature)]) rest functions' externs') :
      Declares functions externs (.keyword .uses :: input) functions' externs'
  | function {functions functions' : List (Named Function)} {externs externs' : List (Named Signature)}
      {name : String} {signature : Signature} {body : Expr} {σ : Scope} {lines : Nat}
      {input mid rest : List TokenKind}
      (hhead : Head (name, signature) input (List.replicate lines .newline ++ mid))
      (hf : functions.lookup name = none) (he : externs.lookup name = none)
      (hbody : Derives functions externs nestingLimit (.body rootBlock body)
        (.ofHead name signature) mid σ rest)
      (h : Declares (functions ++ [(name, ⟨signature, body, σ.blocks, σ.slots⟩)]) externs rest
        functions' externs') :
      Declares functions externs (.keyword .function :: input) functions' externs'

end ScalarJit.Grammar
