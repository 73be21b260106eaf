import ScalarJit.Tree.Expr
import ScalarJit.Word
import ScalarJit.X86.Assembler

/-! # Why a program has no code -/

namespace ScalarJit.Codegen

def maxArguments : Nat := 8

/-- States that no program read without errors leads to. -/
inductive InternalFault where
  | slotOutOfRange (slot : Nat)
  | argumentWithoutRegister (index : Nat)
  | registersHeld (count : Nat)
  | missingValue
  | releasedOutOfOrder (released : X86.Xmm) (top : Option X86.Xmm)
  | branchesDisagree
deriving DecidableEq, Repr, Inhabited

def InternalFault.message : InternalFault → String
  | .slotOutOfRange slot => s!"stack slot {slot} out of range"
  | .argumentWithoutRegister index => s!"argument {index} has no register"
  | .registersHeld count => s!"{count} registers still held at the end of the function"
  | .missingValue => "expression produced no value"
  | .releasedOutOfOrder released top =>
    let shown := (top.map X86.Xmm.name).getD "nothing"
    s!"released {released.name} while {shown} was on top of the register stack"
  | .branchesDisagree => "branches of an if left values in different places"

inductive Fault where
  | hasDiagnostics (errors : Nat)
  | registersExhausted
  | encode (fault : X86.EncodeFault)
  | unsupportedType (what : String) (ty : Ty)
  | tooManyArguments (callee : String) (count : Nat)
  | unknownExtern (name : String)
  | externArity (name : String) (expected found : Nat)
  | internal (fault : InternalFault)
  | panic (p : Panic)
deriving DecidableEq, Repr, Inhabited

def Fault.message : Fault → String
  | .hasDiagnostics errors => s!"Cannot generate code for a program with {errors} errors"
  | .registersExhausted => "Expression too deep, all registers are in use"
  | .encode fault => fault.message
  | .unsupportedType what ty => s!"{what} has type {ty.name}, only Float64 is supported"
  | .tooManyArguments callee count =>
    s!"{callee} takes {count} arguments, at most {maxArguments} are supported"
  | .unknownExtern name => s!"No intrinsic named {name} to satisfy its use declaration"
  | .externArity name expected found =>
    s!"{name} is declared with {found} arguments, the intrinsic takes {expected}"
  | .internal fault => "Internal compiler error: " ++ fault.message
  | .panic p => p.message

end ScalarJit.Codegen
