import ScalarJit.Tree.Expr

/-! # Typed construction

Each way to build an expression from parts checks the types of the parts. What it refuses is a
`TypeFault`; where two faults apply, the first of the checks names it. -/

namespace ScalarJit

structure Signature where
  args : List (String × Ty)
  result : Ty
deriving DecidableEq, Repr, Inhabited

inductive TypeFault where
  | operandMismatch (lhs rhs : Ty)
  | voidOperand
  | immutable (name : String)
  | assignMismatch (name : String) (expected found : Ty)
  | arity (callee : String) (expected found : Nat)
  | argumentMismatch (callee : String) (index : Nat) (expected found : Ty)
  | returnMismatch (expected found : Ty)
  | voidCondition
  | branchMismatch (onTrue onFalse : Ty)
deriving DecidableEq, Repr, Inhabited

def TypeFault.message : TypeFault → String
  | .operandMismatch lhs rhs => s!"Mismatched operand types {lhs.name} and {rhs.name}"
  | .voidOperand => "An operand has no value"
  | .immutable name => s!"Cannot assign to {name}, it was not declared with var"
  | .assignMismatch name expected found =>
    s!"Cannot assign a {found.name} to {name}, which is a {expected.name}"
  | .arity callee expected found =>
    s!"Function {callee} expected {expected} arguments, {found} were supplied"
  | .argumentMismatch callee index expected found =>
    s!"Argument {index} of {callee} should be a {expected.name}, found {found.name}"
  | .returnMismatch expected found =>
    s!"Returning {found.name} from a function that returns {expected.name}"
  | .voidCondition => "The condition has no value"
  | .branchMismatch onTrue onFalse =>
    s!"Branches of an if disagree: {onTrue.name} and {onFalse.name}"

namespace Typing

def binary (op : BinaryOp) (lhs rhs : Expr) : Except TypeFault Expr :=
  if lhs.ty = .void ∨ rhs.ty = .void then throw .voidOperand
  else if lhs.ty ≠ rhs.ty then throw (.operandMismatch lhs.ty rhs.ty)
  else pure (.binary op lhs rhs)

def unary (op : UnaryOp) (operand : Expr) : Except TypeFault Expr :=
  if operand.ty = .void then throw .voidOperand else pure (.unary op operand)

def write (name : String) (var : VarRef) (ty : Ty) (mutable : Bool) (value : Expr) :
    Except TypeFault Expr :=
  if !mutable then throw (.immutable name)
  else if value.ty ≠ ty then throw (.assignMismatch name ty value.ty)
  else pure (.write name var value)

/-- The first argument whose type is not the one declared, counting from `index`. -/
def checkArguments (callee : String) : Nat → List (String × Ty) → List Expr → Except TypeFault Unit
  | index, (_, expected) :: declared, arg :: args =>
    if arg.ty ≠ expected then throw (.argumentMismatch callee index expected arg.ty)
    else checkArguments callee (index + 1) declared args
  | _, _, _ => pure ()

def call (callee : String) (signature : Signature) (args : List Expr) : Except TypeFault Expr :=
  if signature.args.length ≠ args.length then
    throw (.arity callee signature.args.length args.length)
  else do
    checkArguments callee 0 signature.args args
    pure (.call callee args signature.result)

def leave (value : Option Expr) (expected : Ty) : Except TypeFault Expr :=
  match value with
  | none => if expected ≠ .void then throw (.returnMismatch expected .void) else pure .leave
  | some value =>
    if value.ty ≠ expected then throw (.returnMismatch expected value.ty)
    else pure (.leaveWith value)

/-- A condition has a value, and two branches agree in type and category. -/
def conditional (condition onTrue : Expr) (onFalse : Option Expr) : Except TypeFault Expr :=
  if condition.ty = .void then throw .voidCondition
  else
    match onFalse with
    | none => pure (.ifThen condition onTrue)
    | some onFalse =>
      if onFalse.ty ≠ onTrue.ty ∨ onFalse.category ≠ onTrue.category then
        throw (.branchMismatch onTrue.ty onFalse.ty)
      else pure (.ifThenElse condition onTrue onFalse)

end Typing
end ScalarJit
