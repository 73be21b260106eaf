import ScalarJit.Host.Console
import ScalarJit.Tree.Program

/-! # The meaning of programs

A plain evaluator of trees, strict and from left to right. Variables belong to the activation of the
function that declares them, and host functions act on the state of the host. Only calls of the
program's own functions use up fuel. -/

namespace ScalarJit.Evaluation

inductive Exit where
  | returned (value : Double)
  | outOfFuel
  /-- Something is missing: a block, a variable's value, an operand's value or a callee. -/
  | stuck
deriving DecidableEq, Repr, Inhabited

abbrev Locals := VarRef → Option Double

def Locals.empty : Locals := fun _ => none

def Locals.set (locals : Locals) (var : VarRef) (x : Double) : Locals :=
  fun v => if v = var then some x else locals v

/-- Arguments are the first variables of the outermost block. -/
def Locals.ofArguments (args : List Double) : Locals :=
  fun v => if v.block = rootBlock then args[v.index]? else none

structure State (σ : Type) where
  locals : Locals
  host : σ

abbrev EvalM (σ : Type) := EStateM Exit (State σ)

abbrev CallEval (σ : Type) := String → List Double → σ → Except Exit Double × σ

/-- How the blocks of a function are evaluated. The flag says whether a value is wanted. -/
abbrev BlockEval (σ : Type) := BlockId → Bool → EvalM σ (Option Double)

/-! ### Steps -/

section
variable {σ : Type}

def required (m : EvalM σ (Option Double)) : EvalM σ Double := do
  match (← m) with
  | some x => return x
  | none => throw .stuck

def readVariable (var : VarRef) : EvalM σ Double := do
  match (← get).locals var with
  | some x => return x
  | none => throw .stuck

def writeVariable (var : VarRef) (x : Double) : EvalM σ Unit :=
  modify fun s => { s with locals := s.locals.set var x }

def hostCall (host : Host σ) (f : HostFunction) (args : List Double) : EvalM σ Double :=
  fun s =>
    let (answer, next) := host f args s.host
    .ok answer { s with host := next }

def functionCall (calls : CallEval σ) (callee : String) (args : List Double) : EvalM σ Double :=
  fun s =>
    match calls callee args s.host with
    | (.ok answer, next) => .ok answer { s with host := next }
    | (.error e, next) => .error e { s with host := next }

/-- An operation on two values. Comparisons answer one or zero, zero if there is a NaN. -/
def operation (host : Host σ) (op : BinaryOp) (x y : Double) : EvalM σ Double :=
  match op with
  | .plus => return x.add y
  | .minus => return x.sub y
  | .multiply => return x.mul y
  | .divide => return x.div y
  | .power => hostCall host .power [x, y]
  | .smaller => return .ofBool (x.lt y)
  | .smallerEquals => return .ofBool (x.le y)
  | .greater => return .ofBool (y.lt x)
  | .greaterEquals => return .ofBool (y.le x)

def holds (condition : Double) : Bool := !condition.equalOrUnordered .zero

/-! ### Expressions -/

mutual

def expr (host : Host σ) (calls : CallEval σ) (blocks : BlockEval σ) :
    Expr → EvalM σ (Option Double)
  | .literal value => return some value
  | .read _ var _ _ => some <$> readVariable var
  | .write _ var value => do
    writeVariable var (← required (expr host calls blocks value))
    return none
  | .bind _ var value => do
    writeVariable var (← required (expr host calls blocks value))
    return none
  | .binary op lhs rhs => do
    let x ← required (expr host calls blocks lhs)
    let y ← required (expr host calls blocks rhs)
    some <$> operation host op x y
  | .unary .plus operand => expr host calls blocks operand
  | .unary .minus operand => do
    return some (← required (expr host calls blocks operand)).neg
  | .call callee args ty => do
    let args ← arguments host calls blocks args
    let answer ← functionCall calls callee args
    return if ty.isVoid then none else some answer
  | .leave => throw (.returned .zero)
  | .leaveWith value => do throw (.returned (← required (expr host calls blocks value)))
  | .ifThen condition onTrue => do
    if holds (← required (expr host calls blocks condition)) then expr host calls blocks onTrue
    else return if onTrue.hasValue then some .zero else none
  | .ifThenElse condition onTrue onFalse => do
    if holds (← required (expr host calls blocks condition)) then expr host calls blocks onTrue
    else expr host calls blocks onFalse
  | .block id ty => blocks id (!ty.isVoid)

def arguments (host : Host σ) (calls : CallEval σ) (blocks : BlockEval σ) :
    List Expr → EvalM σ (List Double)
  | [] => return []
  | e :: rest => do
    let x ← required (expr host calls blocks e)
    let values ← arguments host calls blocks rest
    return x :: values

end

def statements (host : Host σ) (calls : CallEval σ) (blocks : BlockEval σ) (hasValue : Bool) :
    List Expr → EvalM σ (Option Double)
  | [] => return none
  | [e] => do
    let value ← expr host calls blocks e
    return if hasValue then value else none
  | e :: rest => do
    let _ ← expr host calls blocks e
    statements host calls blocks hasValue rest

def blocksWithin (host : Host σ) (calls : CallEval σ) (f : Function) : Nat → BlockEval σ
  | 0, _, _ => throw .stuck
  | depth + 1, id, hasValue =>
    match f.blocks[id]? with
    | some block => statements host calls (blocksWithin host calls f depth) hasValue block.statements
    | none => throw .stuck

/-! ### Functions -/

/-- What a function returns: the value of its body or of a return, and zero if there is none. -/
def applyFunction (host : Host σ) (calls : CallEval σ) (f : Function) (args : List Double) (s : σ) :
    Except Exit Double × σ :=
  let body := expr host calls (blocksWithin host calls f f.blocks.length) f.body
  match body.run ⟨.ofArguments args, s⟩ with
  | .ok value s => (.ok (value.getD .zero), s.host)
  | .error (.returned value) s => (.ok value, s.host)
  | .error e s => (.error e, s.host)

/-- Calls by name, nested so deep at most. A function of the program comes before one of the host. -/
def callWithin (host : Host σ) (p : Program) : Nat → CallEval σ
  | 0, _, _, s => (.error .outOfFuel, s)
  | depth + 1, callee, args, s =>
    match p.function? callee with
    | some f => applyFunction host (callWithin host p depth) f args s
    | none =>
      match Intrinsic.ofName? callee with
      | some i =>
        let (answer, s) := host (.intrinsic i) args s
        (.ok answer, s)
      | none => (.error .stuck, s)

def entry (host : Host σ) (p : Program) (depth : Nat) (name : String) (s : σ) :
    Except Exit Double × σ :=
  callWithin host p depth name [] s

end
end ScalarJit.Evaluation
