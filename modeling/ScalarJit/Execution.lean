import ScalarJit.Codegen.Object
import ScalarJit.Grammar.Declaration
import ScalarJit.Machine.Run

/-! # Running sources

A source is read, its entry checked, its code generated and loaded, and then the entry is called.
Nothing reaches the host before the entry is called. -/

namespace ScalarJit

inductive RunFault where
  | diagnostics (found : List Diagnostic)
  | noEntry (name : String)
  | entryArguments (name : String)
  | codegen (f : Codegen.Fault)
  | load (f : LoadFault)
  | machine (f : MachineFault)
  | outOfFuel
deriving Repr, Inhabited

def RunFault.message : RunFault → String
  | .diagnostics found => s!"Compilation failed with {found.length} diagnostics"
  | .noEntry name => s!"No function named {name} to run"
  | .entryArguments name => s!"The entry function {name} must not take arguments"
  | .codegen f => f.message
  | .load f => f.message
  | .machine f => "The machine stopped: " ++ f.message
  | .outOfFuel => "The program ran for too long"

namespace Program

def ofSource (source : List Char) : Except RunFault Program :=
  let p := parse source
  if p.errorCount = 0 then .ok p else .error (.diagnostics p.diagnostics)

/-- An entry is a function of the program that takes no arguments. -/
def checkEntry (p : Program) (entry : String) : Except RunFault Unit :=
  match p.function? entry with
  | none => .error (.noEntry entry)
  | some f => if f.signature.args = [] then .ok () else .error (.entryArguments entry)

end Program

structure Executable where
  object : Object
  image : Image
deriving Repr, Inhabited

namespace Executable

def ofObject (o : Object) : Except RunFault Executable :=
  match Image.load .standard o.sections o.links with
  | .ok image => .ok ⟨o, image⟩
  | .error f => .error (.load f)

def ofProgram [HostAddresses] (p : Program) : Except RunFault Executable :=
  match p.compile with
  | .ok o => ofObject o
  | .error f => .error (.codegen f)

def entryAddress (e : Executable) (name : String) : Except RunFault UInt64 :=
  match e.object.entry? name with
  | none => .error (.noEntry name)
  | some id =>
    match e.image.entryAddress id 0 with
    | .ok address => .ok address.toUInt64
    | .error f => .error (.load f)

variable [HostAddresses]

def call {σ : Type} (e : Executable) (host : Host σ) (residue : σ → Residue) (fuel : Nat)
    (name : String) : StateM σ (Except RunFault Double) := fun s =>
  match e.entryAddress name with
  | .error f => (.error f, s)
  | .ok address =>
    match Machine.run host residue e.image fuel (.enter address (residue s)) s with
    | (.finished value, s) => (.ok value, s)
    | (.faulted f, s) => (.error (.machine f), s)
    | (.outOfFuel, s) => (.error .outOfFuel, s)

end Executable

variable [HostAddresses]

def prepare (source : List Char) (entry : String) : Except RunFault Executable := do
  let p ← Program.ofSource source
  p.checkEntry entry
  Executable.ofProgram p

def run {σ : Type} (host : Host σ) (residue : σ → Residue) (fuel : Nat) (source : List Char)
    (entry : String) : StateM σ (Except RunFault Double) := fun s =>
  match prepare source entry with
  | .error f => (.error f, s)
  | .ok e => e.call host residue fuel entry s

theorem run_of_prepare_error {σ : Type} {host : Host σ} {residue : σ → Residue} {fuel : Nat}
    {source : List Char} {entry : String} {f : RunFault} (h : prepare source entry = .error f)
    (s : σ) : run host residue fuel source entry s = (.error f, s) := by
  simp [run, h]

namespace Console

def stepLimit : Nat := 0x4000000000000000

def enter (e : Executable) (name : String) : ConsoleM (Except RunFault Double) :=
  e.call call (fun _ => .nans) stepLimit name

def runSource (source : List Char) (entry : String) : ConsoleM (Except RunFault Double) :=
  run call (fun _ => .nans) stepLimit source entry

end Console
end ScalarJit
