import ScalarJit.Codegen.State

/-! # Code of expressions

Generating an expression leaves its value, if it has one, in the next free register. A block is
generated by a function that is given along, so that the recursion over an expression stays inside
it; blocks nest in blocks no deeper than there are blocks. -/

namespace ScalarJit.Codegen

open X86 (Assembler Instr Predicate SseOp Xmm)

variable [HostAddresses]

inductive Lowering where
  | arithmetic (op : SseOp)
  | comparison (predicate : Predicate) (swapped : Bool)
  | power
deriving DecidableEq, Repr, Inhabited

def Lowering.of : BinaryOp → Lowering
  | .plus => .arithmetic .addSd
  | .minus => .arithmetic .subSd
  | .multiply => .arithmetic .mulSd
  | .divide => .arithmetic .divSd
  | .power => .power
  | .smaller => .comparison .lessThan false
  | .smallerEquals => .comparison .lessOrEqual false
  | .greater => .comparison .lessThan true
  | .greaterEquals => .comparison .lessOrEqual true

def comparison (ctx : Context) (predicate : Predicate) (swapped : Bool) (l r : Xmm) :
    GenM Unit := do
  if swapped then
    emit (.compare r l predicate)
    emit (.sse .movApd l r)
  else
    emit (.compare l r predicate)
  release r
  let one ← constant ctx .one
  emit (.sse .andPd l one)
  release one

def operation (ctx : Context) (op : BinaryOp) (lhs rhs : GenM (Option Xmm)) :
    GenM (Option Xmm) := do
  let operands : GenM (Xmm × Xmm) := do
    let l ← required lhs
    let r ← required rhs
    return (l, r)
  match Lowering.of op with
  | .power =>
    call ctx (.host .power) (do let (l, r) ← operands; return [l, r]) true
  | .arithmetic op =>
    let (l, r) ← operands
    emit (.sse op l r)
    release r
    return some l
  | .comparison predicate swapped =>
    let (l, r) ← operands
    comparison ctx predicate swapped l r
    return some l

def negation (ctx : Context) (operand : GenM (Option Xmm)) : GenM (Option Xmm) := do
  let v ← required operand
  let sign ← constant ctx .negativeZero
  emit (.sse .xorPd v sign)
  release sign
  return some v

def storeVariable (ctx : Context) (var : VarRef) (value : GenM (Option Xmm)) : GenM Unit := do
  let r ← required value
  let address ← variableAddress ctx var
  emit (.store address r)
  release r

def testCondition (condition : GenM (Option Xmm)) : GenM X86.Fixup := do
  let c ← required condition
  let zero ← acquire
  emit (.sse .xorPd zero zero)
  emit (.sse .uComISd c zero)
  release zero
  release c
  asm Assembler.jumpIfZero

/-- A conditional. Both branches leave their value in the same register. -/
def conditional (condition onTrue onFalse : GenM (Option Xmm)) (hasValue : Bool) :
    GenM (Option Xmm) := do
  let toFalse ← testCondition condition
  let t ← onTrue
  match t with
  | some r => release r
  | none => pure ()
  let toEnd ← asm Assembler.jump
  asm (do Assembler.patch toFalse (← Assembler.position))
  let f ← onFalse
  asm (do Assembler.patch toEnd (← Assembler.position))
  match hasValue, t, f with
  | false, _, some r =>
    release r
    return none
  | false, _, none => return none
  | true, some t, some f => if t = f then return some f else internal .branchesDisagree
  | true, _, _ => internal .branchesDisagree

def missingAlternative (hasValue : Bool) : GenM (Option Xmm) := do
  if hasValue then
    let r ← acquire
    emit (.sse .xorPd r r)
    return some r
  else return none

abbrev BlockGen := BlockId → Bool → GenM (Option Xmm)

mutual

def expr (ctx : Context) (blocks : BlockGen) : Expr → GenM (Option Xmm)
  | .literal value => some <$> constant ctx value
  | .read _ var _ _ => do
    let r ← acquire
    let address ← variableAddress ctx var
    emit (.sseLoad .movSd r address)
    return some r
  | .write _ var value => do
    storeVariable ctx var (expr ctx blocks value)
    return none
  | .bind _ var value => do
    storeVariable ctx var (expr ctx blocks value)
    return none
  | .binary op lhs rhs => operation ctx op (expr ctx blocks lhs) (expr ctx blocks rhs)
  | .unary .plus operand => expr ctx blocks operand
  | .unary .minus operand => negation ctx (expr ctx blocks operand)
  | .call callee args ty => do
    let t ← target ctx callee
    call ctx t (arguments ctx blocks args) (!ty.isVoid)
  | .leave => do
    returnValue none
    epilogue
    return none
  | .leaveWith value => do
    let r ← required (expr ctx blocks value)
    returnValue (some r)
    epilogue
    return none
  | .ifThen condition onTrue =>
    conditional (expr ctx blocks condition) (expr ctx blocks onTrue)
      (missingAlternative onTrue.hasValue) onTrue.hasValue
  | .ifThenElse condition onTrue onFalse =>
    conditional (expr ctx blocks condition) (expr ctx blocks onTrue) (expr ctx blocks onFalse)
      onTrue.hasValue
  | .block id ty => blocks id (!ty.isVoid)

def arguments (ctx : Context) (blocks : BlockGen) : List Expr → GenM (List Xmm)
  | [] => return []
  | e :: rest => do
    let r ← required (expr ctx blocks e)
    let registers ← arguments ctx blocks rest
    return r :: registers

end

/-- Generates statements. Only the last may leave its value, and only if one is wanted. -/
def statements (ctx : Context) (blocks : BlockGen) (hasValue : Bool) :
    List Expr → GenM (Option Xmm)
  | [] => return none
  | e :: rest => do
    let value ← expr ctx blocks e
    match rest, value with
    | [], some r =>
      if hasValue then return some r
      else
        release r
        return none
    | [], none => return none
    | _ :: _, some r =>
      release r
      statements ctx blocks hasValue rest
    | _ :: _, none => statements ctx blocks hasValue rest

def blocksWithin (ctx : Context) : Nat → BlockGen
  | 0, _, _ => throw (.panic .stackOverflow)
  | depth + 1, id, hasValue =>
    match ctx.function.blocks[id]? with
    | some block => statements ctx (blocksWithin ctx depth) hasValue block.statements
    | none => throw (.panic .outOfBounds)

def functionExpr (ctx : Context) (e : Expr) : GenM (Option Xmm) :=
  expr ctx (blocksWithin ctx ctx.function.blocks.length) e

end ScalarJit.Codegen
