import ScalarJit.Text.Lines

/-! # Diagnostics

A message about a place in a source text. It is shown with the line it is about and a caret under
the column. A tab is four columns wide, in the count of columns as in the line shown, so the caret
stands under the character that it means. -/

namespace ScalarJit

/-- A place in a text. Lines and columns start at one. -/
structure Position where
  line : Nat
  column : Nat
deriving DecidableEq, Repr, Inhabited

def tabWidth : Nat := 4

namespace Position

def start : Position := ⟨1, 1⟩

def after (p : Position) (c : Char) : Position :=
  if c = '\n' then ⟨p.line + 1, 1⟩
  else if c = '\t' then ⟨p.line, p.column + tabWidth⟩
  else ⟨p.line, p.column + 1⟩

def afterAll (p : Position) (text : List Char) : Position := text.foldl after p

@[simp]
theorem afterAll_cons (p : Position) (c : Char) (text : List Char) :
    p.afterAll (c :: text) = (p.after c).afterAll text := rfl

theorem afterAll_append (p : Position) (s t : List Char) :
    p.afterAll (s ++ t) = (p.afterAll s).afterAll t := List.foldl_append

end Position

inductive Severity where
  | error
  | note
  | help
deriving DecidableEq, Repr, Inhabited

def Severity.text : Severity → String
  | .error => "error"
  | .note => "note"
  | .help => "help"

structure Diagnostic where
  severity : Severity
  message : String
  position : Position
  /-- The line that the position is on, verbatim. -/
  sourceLine : String
deriving DecidableEq, Repr, Inhabited

namespace Diagnostic

def about (source : List Char) (severity : Severity) (message : String) (position : Position) :
    Diagnostic :=
  { severity, message, position
    sourceLine := String.ofList (Text.lineAt source (position.line - 1)) }

def isError (d : Diagnostic) : Bool := d.severity == .error

def expandTabs (line : List Char) : List Char :=
  line.flatMap fun c => if c = '\t' then List.replicate tabWidth ' ' else [c]

def render (d : Diagnostic) : String :=
  let number := toString d.position.line
  let gutter := String.ofList (List.replicate number.length ' ')
  let shown := String.ofList (expandTabs d.sourceLine.toList)
  let indent := String.ofList (List.replicate (d.position.column - 1) ' ')
  s!"{d.severity.text}: {d.message}\n {number} | {shown}\n {gutter} | {indent}^"

def renderAll (ds : List Diagnostic) : String :=
  "\n".intercalate (ds.map fun d => d.render ++ "\n")

def errorCount (ds : List Diagnostic) : Nat := ds.countP isError

end Diagnostic
end ScalarJit
