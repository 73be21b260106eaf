import ScalarJit.Evaluation
import ScalarJit.Proofs.Codegen.Function
import ScalarJit.Proofs.Machine.Registers

/-! # Runs against evaluations

An evaluation and a run from the same place are compared by how the evaluation ends: with a value the
run gets to code that goes on with it, with a return to the end of the function, without fuel through
as many steps, and stuck to a machine that cannot go on. -/

namespace ScalarJit
namespace Machine

open X86 (Gpr Instr Xmm)
open Codegen (reg slotMem frameSize Framed)
open Evaluation (EvalM Exit Locals)

/-! ### Frames -/

/-- What an activation found: the stack, its return address on top, and the frame pointer. -/
structure Activation where
  entry : Array (Option Word)
  frame : Word

def Activation.below (act : Activation) : Array (Option Word) := act.entry.push (some act.frame)

structure InFrame (act : Activation) (f : Function) (locals : Locals) (m : Machine) : Prop where
  frame : m.gpr .rbp = .stack act.below.size
  size : m.stack.size = act.below.size + frameSize f / 8
  below : ∀ i < act.below.size, m.stack[i]? = act.below[i]?
  slots : ∀ var v, declaration? f.blocks var = some v →
    m.stack[act.below.size + v.slot]? = some ((locals var).map fun x => .bits x.bits)

theorem InFrame.of_eq {act : Activation} {f : Function} {locals : Locals} {m last : Machine}
    (h : InFrame act f locals m) (hstack : last.stack = m.stack)
    (hframe : last.gpr .rbp = m.gpr .rbp) : InFrame act f locals last where
  frame := hframe.trans h.frame
  size := by rw [hstack, h.size]
  below := by rw [hstack]; exact h.below
  slots := by rw [hstack]; exact h.slots

theorem toInt_slotMem {f : Function} (hf : Framed f) {var : VarRef} {v : Variable}
    (hv : declaration? f.blocks var = some v) (depth : Nat) :
    (slotMem v.slot).disp.toInt = 8 * ((depth : Int) - 1 - (depth + v.slot : Nat)) := by
  have hslot := hf.slot_lt var v hv
  have hsmall := hf.small
  rw [slotMem, Int32.toInt_ofInt_of_le (by omega) (by omega)]
  omega

theorem slots_le_frame {f : Function} (hf : Framed f) : f.slots ≤ frameSize f / 8 := by
  have hsmall := hf.small
  rw [Codegen.frameSize_eq]
  omega

theorem InFrame.slot_lt {act : Activation} {f : Function} {locals : Locals} {m : Machine}
    (h : InFrame act f locals m) {var : VarRef} {v : Variable}
    (hv : declaration? f.blocks var = some v) : act.below.size + v.slot < m.stack.size :=
  (Array.getElem?_eq_some_iff.1 (h.slots var v hv)).1

def Apart (f : Function) : Prop :=
  ∀ var v other w, declaration? f.blocks var = some v → declaration? f.blocks other = some w →
    v.slot = w.slot → var = other

theorem InFrame.set {act : Activation} {f : Function} {locals : Locals} {m last : Machine}
    (h : InFrame act f locals m) (hapart : Apart f) {var : VarRef} {v : Variable} {x : Double}
    (hv : declaration? f.blocks var = some v)
    (hstack : last.stack = m.stack.setIfInBounds (act.below.size + v.slot) (some (.bits x.bits)))
    (hframe : last.gpr .rbp = m.gpr .rbp) : InFrame act f (locals.set var x) last where
  frame := hframe.trans h.frame
  size := by rw [hstack, Array.size_setIfInBounds, h.size]
  below := by
    intro i hi
    rw [hstack, Array.getElem?_setIfInBounds_ne (by omega)]
    exact h.below i hi
  slots := by
    intro other w hw
    rw [hstack, Locals.set]
    by_cases heq : other = var
    · subst heq
      rw [hv, Option.some_inj] at hw
      subst hw
      rw [if_pos rfl, Array.getElem?_setIfInBounds_self_of_lt (h.slot_lt hv)]
      rfl
    · have hne : act.below.size + v.slot ≠ act.below.size + w.slot := fun hslot =>
        heq (hapart other w var v hw hv (by omega))
      rw [if_neg heq, Array.getElem?_setIfInBounds_ne hne]
      exact h.slots other w hw

/-! ### Ends of functions -/

/-- A function is about to return a value to whoever called it. -/
structure AtReturn (image : Image) (act : Activation) (value : Double) (m : Machine) : Prop where
  code : ∃ rest, image.At m.pc (.ret :: rest)
  stack : m.stack = act.entry
  frame : m.gpr .rbp = act.frame
  value : m.xmm .result = value

/-- Where a run is when the evaluation ends before its time. -/
def Abandoned [HostAddresses] (image : Image) (act : Activation) (n : Nat) (steps : Nat)
    (m : Machine) : Exit → Prop
  | .returned value => AtReturn image act value m
  | .outOfFuel => n ≤ steps
  | .stuck => ∃ fault, m.step image = .error fault

section
variable {σ : Type} (host : Host σ) (residue : σ → Residue) (image : Image) [HostAddresses]

/-- A run does what an evaluation does. -/
def Simulates (act : Activation) (n : Nat) (m : Machine) (locals : Locals) (s : σ)
    {α : Type}
    (e : EvalM σ α) (Q : α → Locals → Machine → Prop) : Prop :=
  Ends e ⟨locals, s⟩
    (fun a t => ∃ j last, Reaches host residue image j m s last t.host ∧ Q a t.locals last)
    (fun exit t => ∃ j last, Reaches host residue image j m s last t.host ∧
      Abandoned image act n j last exit)

namespace Simulates

variable {host residue image} {act : Activation} {n : Nat} {m next : Machine} {locals : Locals}
  {s : σ} {α β : Type} {e : EvalM σ α} {Q : α → Locals → Machine → Prop}

theorem after {j : Nat} (h : Reaches host residue image j m s next s)
    (h' : Simulates host residue image act n next locals s e Q) :
    Simulates host residue image act n m locals s e Q := by
  refine Ends.mono h' ?_ ?_
  · rintro a t ⟨i, last, hreach, hq⟩
    exact ⟨j + i, last, h.trans hreach, hq⟩
  · rintro exit t ⟨i, last, hreach, hleft⟩
    refine ⟨j + i, last, h.trans hreach, ?_⟩
    cases exit with
    | returned value => exact hleft
    | outOfFuel => exact Nat.le_trans hleft (Nat.le_add_left i j)
    | stuck => exact hleft

theorem bind {f : α → EvalM σ β} {R : β → Locals → Machine → Prop}
    (h : Simulates host residue image act n m locals s e Q)
    (hnext : ∀ a locals' s' last, Q a locals' last →
      Simulates host residue image act n last locals' s' (f a) R) :
    Simulates host residue image act n m locals s (e >>= f) R := by
  refine (ends_bind e f).2 (Ends.mono h ?_ fun _ _ he => he)
  rintro a t ⟨j, last, hreach, hq⟩
  refine Ends.mono (hnext a t.locals t.host last hq) ?_ ?_
  · rintro b u ⟨i, last', hreach', hr⟩
    exact ⟨j + i, last', hreach.trans hreach', hr⟩
  · rintro exit u ⟨i, last', hreach', hleft⟩
    refine ⟨j + i, last', hreach.trans hreach', ?_⟩
    cases exit with
    | returned value => exact hleft
    | outOfFuel => exact Nat.le_trans hleft (Nat.le_add_left i j)
    | stuck => exact hleft

theorem mono {R : α → Locals → Machine → Prop}
    (h : Simulates host residue image act n m locals s e Q)
    (imp : ∀ a locals' last, Q a locals' last → R a locals' last) :
    Simulates host residue image act n m locals s e R := by
  refine Ends.mono h ?_ fun _ _ he => he
  rintro a t ⟨j, last, hreach, hq⟩
  exact ⟨j, last, hreach, imp a _ _ hq⟩

theorem finish {R : α → Locals → Machine → Prop}
    (h : Simulates host residue image act n m locals s e Q)
    (hlast : ∀ a locals' (s' : σ) last, Q a locals' last →
      ∃ j final, Reaches host residue image j last s' final s' ∧ R a locals' final) :
    Simulates host residue image act n m locals s e R := by
  refine Ends.mono h ?_ fun _ _ he => he
  rintro a t ⟨j, last, hreach, hq⟩
  obtain ⟨i, final, hreach', hr⟩ := hlast a t.locals t.host last hq
  exact ⟨j + i, final, hreach.trans hreach', hr⟩

theorem map_iff {f : α → β} {Q : β → Locals → Machine → Prop} :
    Simulates host residue image act n m locals s (f <$> e) Q ↔
      Simulates host residue image act n m locals s e fun a => Q (f a) :=
  ends_map f e

theorem pure {a : α} (h : Q a locals m) :
    Simulates host residue image act n m locals s (pure a) Q :=
  ⟨0, m, .refl m s, h⟩

theorem returned {value : Double} (h : AtReturn image act value m) :
    Simulates host residue image act n m locals s (throw (.returned value) : EvalM σ α) Q :=
  ⟨0, m, .refl m s, h⟩

theorem straight {code more : List Instr} (hat : image.At m.pc (code ++ more))
    (hcode : Straight image m code next)
    (h : next.pc = behind m.pc (codeSize code) → image.At next.pc more →
      Simulates host residue image act n next locals s e Q) :
    Simulates host residue image act n m locals s e Q := by
  obtain ⟨hfirst, hrest⟩ := Image.at_append.1 hat
  have hpc := hcode.pc_eq
  exact .after (hcode.reaches hfirst) (h hpc (by rw [hpc]; exact hrest))

end Simulates
end
end Machine
end ScalarJit
