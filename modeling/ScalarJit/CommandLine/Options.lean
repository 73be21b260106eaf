/-! # Options of the command line

One file, an entry to call, and two switches for extra output. Arguments are read from left to
right: two dashes alone end the options, a long name may be followed by `=` and a value, and an
option that waits for its value takes the next argument unless that starts with a dash. -/

namespace ScalarJit.CommandLine

structure Options where
  file : String
  entry : String
  emitTree : Bool
  emitCode : Bool
deriving DecidableEq, Repr, Inhabited

def defaultEntry : String := "main"

/-- What the arguments read so far have said, with how often each option was named. -/
structure Seen where
  file : Option String
  entry : Option String
  entryCount : Nat
  treeCount : Nat
  codeCount : Nat
deriving DecidableEq, Repr, Inhabited

def Seen.nothing : Seen := ⟨none, none, 0, 0, 0⟩

inductive OptionName where
  | emitTree
  | emitCode
  | entry
deriving DecidableEq, Repr, Inhabited

namespace OptionName

def shown : OptionName → String
  | .emitTree => "--emit-ast"
  | .emitCode => "--emit-code"
  | .entry => "--entry <entry>"

def all : List OptionName := [.emitTree, .emitCode, .entry]

def count (seen : Seen) : OptionName → Nat
  | .emitTree => seen.treeCount
  | .emitCode => seen.codeCount
  | .entry => seen.entryCount

end OptionName

inductive UsageFault where
  | helpWanted
  | versionWanted
  | unknownArgument (argument : String) (seen : Seen)
  | missingFile (seen : Seen)
  | repeated (option : OptionName) (seen : Seen)
deriving DecidableEq, Repr, Inhabited

/-! ### Shapes of arguments -/

inductive Argument where
  | separator
  | long (name : String) (value : Option String)
  | short (letters : List Char)
  | plain (text : String)
deriving DecidableEq, Repr, Inhabited

namespace Argument

/-- The name and value of a long argument. All dashes before the name are dropped, and so are
further equals signs before the value. -/
def ofLong (text : List Char) : Argument :=
  let body := text.dropWhile (· == '-')
  let name := String.ofList (body.takeWhile (· != '='))
  match body.dropWhile (· != '=') with
  | [] => .long name none
  | value => .long name (some (String.ofList (value.dropWhile (· == '='))))

/-- A single dash is an ordinary value. -/
def of (text : String) : Argument :=
  match text.toList with
  | ['-', '-'] => .separator
  | '-' :: '-' :: rest => ofLong rest
  | '-' :: letter :: rest => .short (letter :: rest)
  | _ => .plain text

end Argument

/-! ### Reading arguments -/

/-- An argument that is not an option names the file, once. -/
def takeFile (seen : Seen) (argument : String) : Except UsageFault Seen :=
  match seen.file with
  | none => .ok { seen with file := some argument }
  | some _ => .error (.unknownArgument argument seen)

/-- The first of a group of letters decides, since only letters that end the reading are known. -/
def shortFault (seen : Seen) : List Char → UsageFault
  | 'h' :: _ => .helpWanted
  | 'V' :: _ => .versionWanted
  | letter :: _ => .unknownArgument (String.ofList ['-', letter]) seen
  | [] => .unknownArgument "-" seen

def takeLong (seen : Seen) (name : String) (value : Option String) :
    Except UsageFault (Seen × Bool) :=
  match name with
  | "entry" =>
    .ok ({ seen with entry := value, entryCount := seen.entryCount + 1 }, value.isNone)
  | "emit-ast" => .ok ({ seen with treeCount := seen.treeCount + 1 }, false)
  | "emit-code" => .ok ({ seen with codeCount := seen.codeCount + 1 }, false)
  | "help" => .error .helpWanted
  | "version" => .error .versionWanted
  | _ => .error (.unknownArgument ("--" ++ name) seen)

def scan : Seen → Bool → List String → Except UsageFault Seen
  | seen, _, [] => .ok seen
  | seen, waiting, argument :: rest =>
    match Argument.of argument with
    | .separator => rest.foldlM takeFile seen
    | .long name value => do
      let (seen, waiting) ← takeLong seen name value
      scan seen waiting rest
    | .short letters => .error (shortFault seen letters)
    | .plain text =>
      if waiting then scan { seen with entry := some text } false rest
      else do scan (← takeFile seen text) false rest

/-- The options of a call. A missing file is noticed before a repeated option. -/
def Options.parse (arguments : List String) : Except UsageFault Options := do
  let seen ← scan .nothing false arguments
  match seen.file with
  | none => throw (.missingFile seen)
  | some file =>
    match OptionName.all.find? fun o => 1 < o.count seen with
    | some o => throw (.repeated o seen)
    | none =>
      return {
        file
        entry := seen.entry.getD defaultEntry
        emitTree := 0 < seen.treeCount
        emitCode := 0 < seen.codeCount }

end ScalarJit.CommandLine
