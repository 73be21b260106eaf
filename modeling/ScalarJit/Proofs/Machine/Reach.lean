import ScalarJit.Machine.Run

/-! # Following code

`Image.At` says that instructions lie in memory one after another, `Machine.Reaches` that a run gets
from one machine to another in a number of steps. Code without branches, calls and returns is
followed by `Straight`, which leaves the host out. -/

namespace ScalarJit

open X86 (Instr)

abbrev behind (address : UInt64) (bytes : Nat) : UInt64 := address + UInt64.ofNat bytes

theorem behind_zero (address : UInt64) : behind address 0 = address := UInt64.add_zero address

theorem behind_add (address : UInt64) (m n : Nat) :
    behind (behind address m) n = behind address (m + n) := by
  rw [behind, behind, behind, UInt64.ofNat_add, UInt64.add_assoc]

def codeSize : List Instr → Nat
  | [] => 0
  | i :: rest => i.encode.length + codeSize rest

theorem codeSize_cons (i : Instr) (code : List Instr) :
    codeSize (i :: code) = i.encode.length + codeSize code := rfl

theorem codeSize_append (code more : List Instr) :
    codeSize (code ++ more) = codeSize code + codeSize more := by
  induction code with
  | nil => simp [codeSize]
  | cons i rest ih =>
    rw [List.cons_append, codeSize_cons, codeSize_cons, ih, Nat.add_assoc]

/-- Instructions lie in memory one after another, from an address on. -/
def Image.At (image : Image) : UInt64 → List Instr → Prop
  | _, [] => True
  | address, i :: rest =>
    image.fetch address = .ok (i, behind address i.encode.length) ∧
      image.At (behind address i.encode.length) rest

theorem Image.at_append {image : Image} {address : UInt64} {code more : List Instr} :
    image.At address (code ++ more) ↔
      image.At address code ∧ image.At (behind address (codeSize code)) more := by
  induction code generalizing address with
  | nil =>
    rw [List.nil_append, show codeSize [] = 0 from rfl, behind_zero]
    exact ⟨fun h => ⟨trivial, h⟩, fun h => h.2⟩
  | cons i code ih =>
    rw [List.cons_append, Image.At, Image.At, ih, behind_add, codeSize_cons, and_assoc]

namespace Machine

def past (m : Machine) (i : Instr) : Machine := { m with pc := behind m.pc i.encode.length }

variable [HostAddresses]

theorem step_of_at {image : Image} {m : Machine} {i : Instr} {rest : List Instr}
    (h : image.At m.pc (i :: rest)) : m.step image = (m.past i).execute image i := by
  rw [step, h.1]
  rfl

/-! ### Straight code -/

inductive Straight (image : Image) : Machine → List Instr → Machine → Prop
  | nil {m : Machine} : Straight image m [] m
  | cons {m next last : Machine} {i : Instr} {rest : List Instr}
      (hstep : (m.past i).execute image i = .ok (.running next)) (hpc : next.pc = (m.past i).pc)
      (h : Straight image next rest last) : Straight image m (i :: rest) last

namespace Straight

variable {image : Image} {m next last : Machine} {code more : List Instr} {i : Instr}

theorem single (hstep : (m.past i).execute image i = .ok (.running next))
    (hpc : next.pc = (m.past i).pc) : Straight image m [i] next :=
  .cons hstep hpc .nil

theorem append (h : Straight image m code next) (h' : Straight image next more last) :
    Straight image m (code ++ more) last := by
  induction h with
  | nil => exact h'
  | cons hstep hpc _ ih => exact .cons hstep hpc (ih h')

theorem pc_eq (h : Straight image m code last) : last.pc = behind m.pc (codeSize code) := by
  induction h with
  | nil => exact (behind_zero _).symm
  | cons hstep hpc _ ih =>
    rw [ih, hpc, codeSize_cons, ← behind_add]
    rfl

end Straight

/-! ### Runs -/

section
variable {σ : Type} (host : Host σ) (residue : σ → Residue) (image : Image)

/-- A run gets from one machine to another in so many steps. -/
def Reaches (n : Nat) (m : Machine) (s : σ) (last : Machine) (t : σ) : Prop :=
  ∀ fuel, run host residue image (n + fuel) m s = run host residue image fuel last t

variable {host residue image} {m next last : Machine} {s t u : σ} {j n : Nat}

theorem Reaches.refl (m : Machine) (s : σ) : Reaches host residue image 0 m s m s := by
  intro fuel
  rw [Nat.zero_add]

theorem Reaches.trans (h : Reaches host residue image j m s next t)
    (h' : Reaches host residue image n next t last u) :
    Reaches host residue image (j + n) m s last u := by
  intro fuel
  rw [Nat.add_assoc, h, h']

theorem reaches_of_step (h : m.step image = .ok (.running next)) :
    Reaches host residue image 1 m s next s := by
  intro fuel
  rw [Nat.add_comm, run, h]

theorem reaches_of_call {f : HostFunction} {args : List Double}
    (h : m.step image = .ok (.calling f args next)) :
    Reaches host residue image 1 m s
      (next.resume (residue (host f args s).2) (host f args s).1) (host f args s).2 := by
  intro fuel
  rw [Nat.add_comm, run, h]
  rfl

theorem Straight.reaches {code : List Instr} (h : Straight image m code last)
    (hat : image.At m.pc code) : Reaches host residue image code.length m s last s := by
  induction h with
  | nil => exact .refl _ s
  | @cons m next last i rest hstep hpc _ ih =>
    have hone : Reaches host residue image 1 m s next s :=
      reaches_of_step ((step_of_at hat).trans hstep)
    have hrest := hone.trans (ih (by rw [hpc]; exact hat.2))
    rwa [Nat.add_comm] at hrest

theorem run_add {fuel : Nat} {ending : Ending} (h : run host residue image fuel m s = (ending, t))
    (hend : ending ≠ .outOfFuel) (more : Nat) :
    run host residue image (fuel + more) m s = (ending, t) := by
  induction fuel generalizing m s with
  | zero =>
    cases h
    exact absurd rfl hend
  | succ fuel ih =>
    rw [Nat.succ_add]
    rw [run] at h ⊢
    split at h
    · next hstep => exact h
    · next hstep => exact h
    · next hstep => exact ih h
    · next hstep => exact ih h

end
end Machine
end ScalarJit
