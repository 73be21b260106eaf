import ScalarJit.Token.Basic
import ScalarJit.Tree.Typing

/-! # What can be wrong in a source

Every way in which a declaration or a statement can be refused, with the words for it. -/

namespace ScalarJit

inductive Complaint where
  | invalidTopLevel (found : TokenKind)
  | expectedTypeName
  | unknownType (name : String)
  | expectedFunctionName
  | expectedArgumentList
  | expectedArgumentName
  | expectedArgumentType
  | repeatedArgument (name : String)
  | unfinishedArgumentList
  | alreadyDeclaredForUse (name : String)
  | unfinishedUse
  | alreadyUsed (name : String)
  | alreadyDefined (name : String)
  | expectedBody
  | unclosedBlock
  | unfinishedStatement
  | uselessStatement
  | closure
  | useInBlock
  | expectedVariableName
  | expectedInitialValue
  | boundToNothing (name : String)
  | annotationMismatch (name : String) (declared given : Ty)
  | assignToNonVariable
  | nestedTooDeeply
  | emptyBrackets
  | unclosedBrackets
  | expectedExpression (found : TokenKind)
  | undefinedVariable (name : String)
  | unfinishedCall (callee : String)
  | undefinedFunction (name : String)
  | expectedBranch (after : Keyword)
  | expectedElseBranch
  | typing (fault : TypeFault)
deriving DecidableEq, Repr, Inhabited

namespace Complaint

def message : Complaint → String
  | .invalidTopLevel found => s!"Invalid token ({found.text}) in a top level statement"
  | .expectedTypeName => "Expected an identifier to name a type"
  | .unknownType name => s!"Identifier {name} does not name a type"
  | .expectedFunctionName => "Expected identifier in function declaration"
  | .expectedArgumentList => "Expected a '(' after the function name"
  | .expectedArgumentName => "Expected an argument name"
  | .expectedArgumentType => "Expected a ':' after the argument name"
  | .repeatedArgument name => s!"Argument {name} is declared twice"
  | .unfinishedArgumentList => "Expected a comma or a closed bracket after argument"
  | .alreadyDeclaredForUse name => s!"Cannot extern {name}, as it was already declared"
  | .unfinishedUse => "Expected a newline or the end of file after extern"
  | .alreadyUsed name => s!"Cannot create function {name}, as it was already externed"
  | .alreadyDefined name => s!"Cannot create function {name}, as it was already declared"
  | .expectedBody => "Expected an open curly bracket after function declaration"
  | .unclosedBlock => "Expected a '\x7d' before the end of file"
  | .unfinishedStatement => "Expected newline after statement"
  | .uselessStatement => "An expression with no effects is not allowed as a statement"
  | .closure => "Closures not implemented"
  | .useInBlock => "The extern keyword is invalid here"
  | .expectedVariableName => "Expected identifier after let"
  | .expectedInitialValue => "Expected a '=' after the name of the variable"
  | .boundToNothing name => s!"Cannot bind {name} to an expression with no value"
  | .annotationMismatch name declared given =>
    s!"{name} is declared as {declared.name} but given a {given.name}"
  | .assignToNonVariable => "Only variables can be assigned to"
  | .nestedTooDeeply => "Expression nested too deeply"
  | .emptyBrackets => "Empty brackets in expression"
  | .unclosedBrackets => "Expected a closing bracket after bracketed expression"
  | .expectedExpression found => s!"Expected an expression, found {found.text}"
  | .undefinedVariable name => s!"Variable {name} is not defined"
  | .unfinishedCall callee => s!"Expected a comma or a closed bracket in the call to {callee}"
  | .undefinedFunction name => s!"Function {name} was called but is not defined"
  | .expectedBranch after =>
    "Expected a block '\x7b' after the condition of an " ++ (TokenKind.keyword after).text
  | .expectedElseBranch => "Expected a block '\x7b' after else"
  | .typing fault => fault.message

def note? : Complaint → Option String
  | .useInBlock => some "To use extern, do it in a top level statement"
  | _ => none

end Complaint

structure Problem where
  complaint : Complaint
  position : Position
deriving DecidableEq, Repr, Inhabited

def Problem.diagnostics (source : List Char) (p : Problem) : List Diagnostic :=
  .about source .error p.complaint.message p.position ::
    (p.complaint.note?.map fun note => Diagnostic.about source .note note p.position).toList

end ScalarJit
