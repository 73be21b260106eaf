import ScalarJit.CommandLine.Files
import ScalarJit.CommandLine.Usage
import ScalarJit.Dump.Tree
import ScalarJit.Execution

/-! # The program as a whole

From arguments, a file and input to output, error output and an exit code. Everything up to the call
of the entry is decided here without looking at the input. -/

namespace ScalarJit.CommandLine

structure Outcome where
  code : Nat
  output : List UInt8
  errors : String
deriving DecidableEq, Repr, Inhabited

inductive Start where
  | stopped (output errors : String)
  | ready (output : String) (executable : Executable)
deriving Repr

/-! ### Texts -/

def failure (message : String) : String := "Error: " ++ message ++ "\n"

def readFailure (file : String) (f : ReadFault) : String :=
  failure ("Could not read " ++ file ++ "\n\nCaused by:\n    " ++ f.message)

/-- Diagnostics are shown in full; only errors among them are counted. -/
def diagnosticFailure (found : List Diagnostic) : String :=
  String.join (found.map fun d => d.render ++ "\n\n") ++
    failure s!"Compilation failed with {Diagnostic.errorCount found} errors"

def faultText : RunFault → String
  | .diagnostics found => diagnosticFailure found
  | f => failure f.message

def codeListing (o : Object) : String :=
  let functions := o.entries.map fun (name, id) =>
    let code := (o.sections[id]?.map (·.data.toList)).getD []
    s!"{name} (section {id}): " ++ Text.hexOfBytes code ++ "\n"
  String.join (functions ++ o.links.map fun l => l.describe ++ "\n")

def closingLine (value : Double) : String := "\nReturn value = " ++ value.text ++ "\n"

/-! ### Stages -/

def readProgram (o : Options) (contents : Except ReadFault (List UInt8)) : Except String Program := do
  let bytes ← contents.mapError (readFailure o.file)
  match String.fromUTF8? ⟨bytes.toArray⟩ with
  | none => throw (readFailure o.file .notUtf8)
  | some source =>
    let p ← (Program.ofSource source.toList).mapError faultText
    (p.checkEntry o.entry).mapError faultText
    return p

variable [HostAddresses]

def start (o : Options) (contents : Except ReadFault (List UInt8)) : Start :=
  match readProgram o contents with
  | .error errors => .stopped "" errors
  | .ok p =>
    let tree := if o.emitTree then (Dump.program p).text ++ "\n" else ""
    match p.compile with
    | .error f => .stopped tree (faultText (.codegen f))
    | .ok object =>
      let listing := if o.emitCode then codeListing object else ""
      match Executable.ofObject object with
      | .error f => .stopped (tree ++ listing) (faultText f)
      | .ok executable => .ready (tree ++ listing) executable

def finish (o : Options) (output : String) (e : Executable) (input : List UInt8) : Outcome :=
  let (result, console) := Console.enter e o.entry (.fresh input none)
  let written := output.toUTF8.toList ++ console.sink.written.toList
  match result with
  | .ok value => ⟨0, written ++ (closingLine value).toUTF8.toList, ""⟩
  | .error f => ⟨1, written, faultText f⟩

/-- A whole call of the program, where files are read by a given function. -/
def run (files : String → Except ReadFault (List UInt8)) (arguments : List String)
    (input : List UInt8) : Outcome :=
  match Options.parse arguments with
  | .error f =>
    if f.isAnswer then ⟨0, f.message.toUTF8.toList, ""⟩ else ⟨1, [], f.message⟩
  | .ok o =>
    match start o (files o.file) with
    | .stopped output errors => ⟨1, output.toUTF8.toList, errors⟩
    | .ready output e => finish o output e input

end ScalarJit.CommandLine
