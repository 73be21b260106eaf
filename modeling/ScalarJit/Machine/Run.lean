import ScalarJit.Host.Console
import ScalarJit.Machine.Step

/-! # Runs

A run enters code at an address and steps until the function that was entered returns. Host
functions answer in the first vector register and may leave anything in the other vector registers,
in the registers that a caller has to save, and in the flag. -/

namespace ScalarJit

open X86 (Gpr)

/-- What is left in registers by someone who need not keep them. -/
structure Residue where
  vector : Vector Double 16
  general : Vector Word 16
  zero : Bool
deriving DecidableEq, Repr

namespace Residue

def nans : Residue :=
  ⟨Vector.replicate 16 .nan, Vector.replicate 16 (.bits 0xdddddddddddddddd), false⟩

end Residue

inductive Ending where
  | finished (value : Double)
  | faulted (f : MachineFault)
  | outOfFuel
deriving DecidableEq, Repr, Inhabited

namespace Machine

def enter (address : UInt64) (residue : Residue) : Machine where
  pc := address
  vector := residue.vector
  general := residue.general
  zero := residue.zero
  stack := #[some .exit]

def resume (m : Machine) (residue : Residue) (answer : Double) : Machine where
  pc := m.pc
  vector := residue.vector.set 0 answer
  general := Vector.ofFn fun i =>
    if ⟨i⟩ ∈ Gpr.callerSaved then residue.general[i] else m.general[i]
  zero := residue.zero
  stack := m.stack

variable [HostAddresses]

/-- Runs for so many steps at most. What a host function leaves in registers depends on the state it
leaves the host in. -/
def run {σ : Type} (host : Host σ) (residue : σ → Residue) (image : Image) :
    Nat → Machine → σ → Ending × σ
  | 0, _, s => (.outOfFuel, s)
  | fuel + 1, m, s =>
    match m.step image with
    | .error f => (.faulted f, s)
    | .ok (.finished value) => (.finished value, s)
    | .ok (.running m) => run host residue image fuel m s
    | .ok (.calling f args m) =>
      let (answer, s) := host f args s
      run host residue image fuel (m.resume (residue s) answer) s

end Machine
end ScalarJit
