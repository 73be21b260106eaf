import ScalarJit.Proofs.Language.OneToOne
import ScalarJit.Proofs.Machine.Agreement
import ScalarJit.Proofs.Machine.Progress
import ScalarJit.Proofs.Machine.Traced

/-! # Variables are set before they are read

In a source without errors no execution of a function reads a variable before it is set, and what a
function evaluates to is found by such an execution. The code of a function reads no cell of the stack
that is not set either: wherever it is called from and whatever it calls, it runs without a fault until
it returns. -/

namespace ScalarJit
namespace Machine

structure Called (address : UInt64) (args : List Double) (m : Machine) : Prop where
  pc : m.pc = address
  /-- The return address is on top of a stack that was aligned. -/
  odd : m.stack.size % 2 = 1
  passed : Passed args m

section
variable {σ : Type} (host : Host σ) (residue : σ → Residue) (image : Image) [HostAddresses]

/-- A run faults only after it has returned from the activation that it starts in. -/
def Survives (m : Machine) (s : σ) : Prop :=
  ∀ fuel fault t, run host residue image fuel m s = (.faulted fault, t) →
    ∃ steps last u value, steps < fuel ∧ Reaches host residue image steps m s last u ∧
      AtReturn image ⟨m.stack, m.gpr .rbp⟩ value last

variable {host residue image} {m last : Machine} {s t u : σ}

theorem Reaches.lt_of_faulted {steps fuel : Nat} {fault : MachineFault}
    (h : Reaches host residue image steps m s last u)
    (hrun : run host residue image fuel m s = (.faulted fault, t)) : steps < fuel := by
  by_contra hge
  have hadd := run_add hrun (by simp) (steps - fuel)
  have hlast := h 0
  rw [Nat.add_sub_cancel' (Nat.not_lt.1 hge)] at hadd
  rw [Nat.add_zero, hadd] at hlast
  cases hlast

theorem Called.survives {address : UInt64} {args : List Double}
    {f : Nat → Invocation σ}
    (hcalled : Called address args m) (h : ∀ n, Enters host residue image n address args (f n))
    (hf : ∀ n s, (f n s).1 ≠ .error .stuck) : Survives host residue image m s := by
  intro fuel fault t hrun
  -- With fuel for the whole run, the evaluation does not end for want of it.
  have henters := h fuel m s hcalled.pc hcalled.odd hcalled.passed
  have hne := hf fuel s
  generalize f fuel s = ending at henters hne
  rcases ending with ⟨exit | value, u⟩
  · obtain ⟨steps, last, hreach, hbroken⟩ := henters
    have hlt := hreach.lt_of_faulted hrun
    cases exit with
    | returned value => exact hbroken.elim
    | outOfFuel => exact absurd hlt (Nat.not_lt.2 hbroken)
    | stuck => exact absurd rfl hne
  · obtain ⟨steps, last, hreach, hreturn⟩ := henters
    exact ⟨steps, last, u, value, hreach.lt_of_faulted hrun, hreach, hreturn⟩

end
end Machine

namespace Program

theorem Lowered.survives [HostAddresses] {p : Program} {o : Object} {pool : Codegen.Pool}
    {code : List (List Codegen.Item)} (h : p.Lowered o pool code) (hp : p.Ordered)
    (hlaid : ∀ entry ∈ p.functions, entry.2.Laid) {bases : Bases} (hsuit : bases.Suit o.sections) :
    ∃ image, Image.load bases o.sections o.links = .ok image ∧
      ∀ name f, p.function? name = some f → ∃ id address, o.entry? name = some id ∧
        image.entryAddress id 0 = .ok address ∧
        ∀ (σ : Type) (host : Host σ) (residue : σ → Residue) (args : List Double) (m : Machine) (s : σ),
          args.length = f.signature.args.length → m.Called address.toUInt64 args →
          Machine.Survives host residue image m s := by
  obtain ⟨image, hload, hloaded, haddress⟩ := h.load hsuit
  refine ⟨image, hload, fun name f hf => ?_⟩
  cases hid : o.entries.lookup name with
  | none =>
    rw [h.function_of_no_entry hp hid] at hf
    cases hf
  | some id =>
    obtain ⟨_, items, -, -, hitems, -⟩ := h.function_of_entry hp hid
    obtain ⟨address, hentry, hword⟩ := haddress id items hitems
    refine ⟨id, address, hid, hentry, fun σ host residue args m s hargs hcalled => ?_⟩
    rw [hword] at hcalled
    exact hcalled.survives (fun n => Machine.enters_callWithin hp h hloaded n name id f args hid hf hargs)
      fun n s => Machine.callWithin_ne_stuck host hp h hlaid n hf hargs s

/-- In a source without errors, every execution of a function sets a variable before it reads it, and
every evaluation is an execution. The code of a function, wherever it is loaded, does not fault until
it returns. -/
theorem set_before_read [HostAddresses] (source : List Char) (h : (parse source).errorCount = 0) :
    (∀ entry ∈ (parse source).functions, entry.2.Initialized ∧
      ∀ (σ : Type) (host : Host σ) (depth : Nat),
        entry.2.Traced host (Evaluation.callWithin host (parse source) depth)) ∧
    (source.length < sourceLimit → ∀ o, (parse source).compile = .ok o →
      ∀ bases : Bases, bases.Suit o.sections →
      ∃ image, Image.load bases o.sections o.links = .ok image ∧
        ∀ name f, (parse source).function? name = some f → ∃ id address, o.entry? name = some id ∧
          image.entryAddress id 0 = .ok address ∧
          ∀ (σ : Type) (host : Host σ) (residue : σ → Residue) (args : List Double) (m : Machine) (s : σ),
            args.length = f.signature.args.length → m.Called address.toUInt64 args →
            Machine.Survives host residue image m s) := by
  have hlaid := laid_parse h
  refine ⟨fun entry hentry => ⟨(hlaid entry hentry).initialized, fun σ host depth => ?_⟩,
    fun hlen o hcompile bases hsuit => ?_⟩
  · exact entry.2.traced (answers_callWithin host _ depth)
  have hanswers := answers_compile_parse hlen h
  rw [hcompile] at hanswers
  obtain ⟨pool, code, hlowered⟩ := hanswers
  exact hlowered.survives (ordered_parse source) hlaid hsuit

def rebinds : List Char :=
  ("func f() -> Float64 \x7b\n var x = 1\n let y = \x7b\n let x = x\n f()\n\x7d\n" ++
    " if y \x7b\n x = y\n\x7d\n return x\n\x7d").toList

open scoped HostAddresses in
theorem set_before_read_rebinds : (parse rebinds).errorCount = 0 ∧
    ∃ f o image id address, (parse rebinds).functions = [("f", f)] ∧ (f.Initialized ∧
        ∀ (σ : Type) (host : Host σ) (depth : Nat),
          f.Traced host (Evaluation.callWithin host (parse rebinds) depth)) ∧
      (parse rebinds).compile = .ok o ∧ Image.load .standard o.sections o.links = .ok image ∧
      o.entry? "f" = some id ∧ image.entryAddress id 0 = .ok address ∧
      ∀ (σ : Type) (host : Host σ) (residue : σ → Residue) (initial : Residue) (s : σ),
        Machine.Survives host residue image (.enter address.toUInt64 initial) s := by
  have hparse : (parse rebinds).errorCount = 0 ∧ rebinds.length < sourceLimit ∧
      (parse rebinds).functions.map (fun entry => (entry.1, entry.2.signature.args.length)) = [("f", 0)] ∧
      ((parse rebinds).compile.toOption.any fun o =>
        Rights.all.all fun r => (Image.layout o.sections).2 r ≤ 0x100000000) = true := by
    decide +kernel
  obtain ⟨herrors, hlen, hone, hcompiles⟩ := hparse
  obtain ⟨⟨name, f⟩, hfunctions, heq⟩ := List.map_eq_singleton_iff.1 hone
  obtain ⟨rfl, hargs⟩ := Prod.mk.inj heq
  have hf : (parse rebinds).function? "f" = some f := by rw [function?, hfunctions]; rfl
  obtain ⟨o, hcompile, hsizes⟩ := exists_compile hcompiles
  obtain ⟨htree, hcode⟩ := set_before_read rebinds herrors
  obtain ⟨image, hload, hentries⟩ := hcode hlen o hcompile .standard (Bases.suit_standard hsizes)
  obtain ⟨id, address, hid, haddress, hsurvives⟩ := hentries "f" f hf
  refine ⟨herrors, f, o, image, id, address, hfunctions, htree _ (mem_of_lookup hf), hcompile, hload,
    hid, haddress, fun σ host residue initial s => ?_⟩
  exact hsurvives σ host residue [] _ s hargs.symm ⟨rfl, rfl, fun i x hx => (by cases hx)⟩

end Program
end ScalarJit
