import ScalarJit.Double.Basic
import ScalarJit.Ty.Basic

/-! # Expressions

An expression is built with everything that fixes its type: a read carries the type and mutability
of its variable, a call the type of its result, a block its own type. The type, the value category
and whether an expression has an effect are then functions of it. -/

namespace ScalarJit

inductive BinaryOp where
  | plus
  | minus
  | multiply
  | divide
  | power
  | greater
  | smaller
  | greaterEquals
  | smallerEquals
deriving DecidableEq, Repr, Inhabited

namespace BinaryOp

def isComparison : BinaryOp → Bool
  | .greater | .smaller | .greaterEquals | .smallerEquals => true
  | _ => false

def name : BinaryOp → String
  | .plus => "Plus"
  | .minus => "Minus"
  | .multiply => "Multiply"
  | .divide => "Divide"
  | .power => "Power"
  | .greater => "Greater"
  | .smaller => "Smaller"
  | .greaterEquals => "GreaterEquals"
  | .smallerEquals => "SmallerEquals"

end BinaryOp

inductive UnaryOp where
  | minus
  | plus
deriving DecidableEq, Repr, Inhabited

def UnaryOp.name : UnaryOp → String
  | .minus => "Minus"
  | .plus => "Plus"

/-- Whether an expression names an immutable variable, a mutable one, or is a temporary. -/
inductive Category where
  | ref
  | mutRef
  | transient
deriving DecidableEq, Repr, Inhabited

def Category.name : Category → String
  | .ref => "Ref"
  | .mutRef => "MutRef"
  | .transient => "Transient"

abbrev BlockId := Nat

def rootBlock : BlockId := 0

/-- A resolved variable: the block that declares it and its place among the block's variables. -/
structure VarRef where
  block : BlockId
  index : Nat
deriving DecidableEq, Repr, Inhabited

inductive Expr where
  | literal (value : Double)
  | binary (op : BinaryOp) (lhs rhs : Expr)
  | unary (op : UnaryOp) (operand : Expr)
  | read (name : String) (var : VarRef) (ty : Ty) (mutable : Bool)
  | write (name : String) (var : VarRef) (value : Expr)
  | bind (name : String) (var : VarRef) (value : Expr)
  | call (callee : String) (args : List Expr) (ty : Ty)
  | leave
  | leaveWith (value : Expr)
  | ifThen (condition onTrue : Expr)
  | ifThenElse (condition onTrue onFalse : Expr)
  | block (id : BlockId) (ty : Ty)
deriving Repr, Inhabited

namespace Expr

def ty : Expr → Ty
  | .literal _ => .float64
  | .binary _ lhs _ => lhs.ty
  | .unary _ operand => operand.ty
  | .read _ _ ty _ => ty
  | .write .. => .void
  | .bind .. => .void
  | .call _ _ ty => ty
  | .leave => .void
  | .leaveWith _ => .void
  | .ifThen _ onTrue => onTrue.ty
  | .ifThenElse _ onTrue _ => onTrue.ty
  | .block _ ty => ty

def category : Expr → Category
  | .read _ _ _ mutable => if mutable then .mutRef else .ref
  | .ifThen _ onTrue => onTrue.category
  | .ifThenElse _ onTrue _ => onTrue.category
  | _ => .transient

/-- Whether the expression may stand alone as a statement. -/
def useful : Expr → Bool
  | .literal _ => false
  | .binary .. => false
  | .unary .. => false
  | .read .. => false
  | _ => true

def hasValue (e : Expr) : Bool := !e.ty.isVoid

end Expr
end ScalarJit
