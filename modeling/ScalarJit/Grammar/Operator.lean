import ScalarJit.Grammar.State

/-! # Operators between operands

Assignments bind loosest, then comparisons, sums, products and powers. Assignments and powers group
to the right, all others to the left. An assignment with an operator stands for the assignment of
that operation on the variable and the right-hand side. -/

namespace ScalarJit.Grammar

inductive Operator where
  | operation (op : BinaryOp)
  /-- An assignment, with the operation that it stands for if it has one. -/
  | assignment (op : Option BinaryOp)
deriving DecidableEq, Repr, Inhabited

namespace Operator

def ofSymbol? : Symbol → Option Operator
  | .assign => some (.assignment none)
  | .plusEquals => some (.assignment (some .plus))
  | .minusEquals => some (.assignment (some .minus))
  | .multiplyEquals => some (.assignment (some .multiply))
  | .divideEquals => some (.assignment (some .divide))
  | .greater => some (.operation .greater)
  | .smaller => some (.operation .smaller)
  | .greaterEquals => some (.operation .greaterEquals)
  | .smallerEquals => some (.operation .smallerEquals)
  | .plus => some (.operation .plus)
  | .minus => some (.operation .minus)
  | .multiply => some (.operation .multiply)
  | .divide => some (.operation .divide)
  | .power => some (.operation .power)
  | _ => none

def ofToken? : TokenKind → Option Operator
  | .symbol symbol => ofSymbol? symbol
  | _ => none

/-- Higher binds tighter. -/
def precedence : Operator → Nat
  | .assignment _ => 1
  | .operation .greater | .operation .smaller => 2
  | .operation .greaterEquals | .operation .smallerEquals => 2
  | .operation .plus | .operation .minus => 3
  | .operation .multiply | .operation .divide => 4
  | .operation .power => 5

def groupsRight : Operator → Bool
  | .assignment _ => true
  | .operation .power => true
  | _ => false

def combine (op : Operator) (lhs rhs : Expr) : Except Complaint Expr :=
  match op with
  | .operation op => (Typing.binary op lhs rhs).mapError .typing
  | .assignment compound =>
    match lhs with
    | .read name var ty mutable =>
      match compound with
      | none => (Typing.write name var ty mutable rhs).mapError .typing
      | some op => do
        let value ← (Typing.binary op lhs rhs).mapError .typing
        (Typing.write name var ty mutable value).mapError .typing
    | _ => throw .assignToNonVariable

end Operator

def operator? : ParseM (Option Operator) := return Operator.ofToken? (← kind)

def combineAt (start : Token) (op : Operator) (lhs rhs : Expr) : ParseM Expr :=
  match op.combine lhs rhs with
  | .ok e => return e
  | .error complaint => failAt start complaint

mutual

/-- Folds operators that bind at least as tight as `least` onto an expression. -/
def climb (operand : ParseM Expr) : Nat → Nat → Expr → ParseM Expr
  | 0, _, lhs => return lhs
  | bound + 1, least, lhs => do
    match (← operator?) with
    | none => return lhs
    | some op =>
      if op.precedence < least then return lhs
      else
        let start ← token
        bump
        let rhs ← operand
        let rhs ← tighten operand bound op rhs
        let lhs ← combineAt start op lhs rhs
        climb operand bound least lhs

/-- Folds operators that belong to the right-hand side of `op` onto it. -/
def tighten (operand : ParseM Expr) : Nat → Operator → Expr → ParseM Expr
  | 0, _, rhs => return rhs
  | bound + 1, op, rhs => do
    match (← operator?) with
    | none => return rhs
    | some next =>
      if op.precedence < next.precedence then
        let rhs ← climb operand bound (op.precedence + 1) rhs
        tighten operand bound op rhs
      else if next.precedence = op.precedence ∧ next.groupsRight then
        let rhs ← climb operand bound op.precedence rhs
        tighten operand bound op rhs
      else return rhs

end

def expression (operand : ParseM Expr) : ParseM Expr := do
  let lhs ← operand
  climb operand (2 * (← get).remaining) 1 lhs

end ScalarJit.Grammar
