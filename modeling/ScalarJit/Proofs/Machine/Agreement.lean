import ScalarJit.Execution
import ScalarJit.Proofs.Codegen.Faults
import ScalarJit.Proofs.Image.Load

/-! # Whole runs

A run of the code of a program and the evaluation of its entry show the same: the same calls of host
functions with the same arguments in the same order, however long they go on, and the same value at
the end, if there is one. -/

namespace ScalarJit

abbrev Calls := List (HostFunction × List Double)

/-- A host that keeps a record of the calls. -/
def Host.recorded {σ : Type} (host : Host σ) : Host (σ × Calls) := fun f args s =>
  ((host f args s.1).1, (host f args s.1).2, s.2 ++ [(f, args)])

namespace Machine

section
variable {σ : Type} (host : Host σ) (residue : σ × Calls → Residue) (image : Image) (m : Machine)
  [HostAddresses]

/-- A run makes calls, and perhaps more after them. -/
def Makes (s : σ) (calls : Calls) : Prop :=
  ∃ fuel, calls <+: (run host.recorded residue image fuel m (s, [])).2.2

def Finishes (s : σ) (value : Double) (t : σ) (calls : Calls) : Prop :=
  ∃ fuel, run host.recorded residue image fuel m (s, []) = (.finished value, t, calls)

def Faults (s : σ) : Prop :=
  ∃ fuel f, (run host.recorded residue image fuel m (s, [])).1 = .faulted f

variable {host residue image m}

theorem calls_prefix_run (fuel : Nat) (m : Machine) (s : σ × Calls) :
    s.2 <+: (run host.recorded residue image fuel m s).2.2 := by
  induction fuel generalizing m s with
  | zero => exact List.prefix_rfl
  | succ fuel ih =>
    rw [run]
    split
    · exact List.prefix_rfl
    · exact List.prefix_rfl
    · exact ih _ s
    · next f args next _ =>
      have hgrown : s.2 <+: s.2 ++ [(f, args)] := List.prefix_append ..
      exact hgrown.trans (ih _ (host.recorded f args s).2)

theorem calls_run_add (fuel more : Nat) (m : Machine) (s : σ × Calls) :
    (run host.recorded residue image fuel m s).2.2 <+:
      (run host.recorded residue image (fuel + more) m s).2.2 := by
  induction fuel generalizing m s with
  | zero =>
    rw [Nat.zero_add]
    exact calls_prefix_run more m s
  | succ fuel ih =>
    rw [Nat.succ_add, run, run]
    cases m.step image with
    | error f => exact List.prefix_rfl
    | ok event =>
      cases event with
      | finished value => exact List.prefix_rfl
      | running next => exact ih next s
      | calling f args next => exact ih _ _

end

/-! ### One depth of nesting -/

section
variable {σ : Type} {host : Host σ} {residue : σ → Residue} {image : Image} {m : Machine} {s t : σ}
  {n : Nat} {address : UInt64} {initial : Residue} {f : Invocation σ} [HostAddresses]

/-- How a run ends whose steps get to the same end as an evaluation. -/
inductive Ended (n : Nat) : Except Evaluation.Exit Double → Nat → Ending → Prop
  | value {x : Double} {j : Nat} : Ended n (.ok x) j (.finished x)
  | stuck {fault : MachineFault} {j : Nat} : Ended n (.error .stuck) j (.faulted fault)
  | outOfFuel {j : Nat} (h : n ≤ j) : Ended n (.error .outOfFuel) j .outOfFuel

/-- A run from an entry ends as the evaluation does, with the same state of the host. -/
theorem ended_of_enters (h : Enters host residue image n address [] f) (s : σ) :
    ∃ j ending, run host residue image j (.enter address initial) s = (ending, (f s).2) ∧
      Ended n (f s).1 j ending := by
  have henters := h (.enter address initial) s rfl rfl (fun i x hx => (by cases hx))
  cases hf : f s with
  | mk result t =>
    rw [hf] at henters
    cases result with
    | ok value =>
      obtain ⟨j, last, hreach, ⟨rest, hat⟩, hstack, hframe, hvalue⟩ := henters
      have hpop : (last.past .ret).pop = .ok (.exit, { last.past .ret with stack := #[] }) := by
        rw [pop, stack_past, hstack]
        rfl
      have hstep : last.step image = .ok (.finished value) := by
        rw [step_of_at hat, execute, ret, hpop, ← hvalue]
        rfl
      refine ⟨j + 1, .finished value, ?_, .value⟩
      rw [hreach, run, hstep]
    | error exit =>
      obtain ⟨j, last, hreach, hbroken⟩ := henters
      cases exit with
      | returned value => exact hbroken.elim
      | outOfFuel =>
        refine ⟨j, .outOfFuel, ?_, .outOfFuel hbroken⟩
        have hrun := hreach 0
        rw [Nat.add_zero] at hrun
        rw [hrun, run]
      | stuck =>
        obtain ⟨fault, hfault⟩ := hbroken
        refine ⟨j + 1, .faulted fault, ?_, .stuck⟩
        rw [hreach, run, hfault]

/-- Two ends of one run are the same, if neither is for want of fuel. -/
theorem run_unique {j k : Nat} {first second : Ending}
    (h : run host residue image j m s = (first, t)) (hfirst : first ≠ .outOfFuel) {u : σ}
    (h' : run host residue image k m s = (second, u)) (hsecond : second ≠ .outOfFuel) :
    first = second ∧ t = u := by
  have hone := run_add h hfirst k
  have htwo := run_add h' hsecond j
  rw [Nat.add_comm k j, hone] at htwo
  cases htwo
  exact ⟨rfl, rfl⟩

end

/-! ### All depths -/

section
variable {σ : Type} {host : Host σ} {residue : σ × Calls → Residue} {image : Image}
  {address : UInt64} {initial : Residue} {f : Nat → Invocation (σ × Calls)} [HostAddresses]

theorem makes_iff (h : ∀ n, Enters host.recorded residue image n address [] (f n)) (s : σ)
    (calls : Calls) : Makes host residue image (.enter address initial) s calls ↔
      ∃ n, calls <+: (f n (s, [])).2.2 := by
  constructor
  · rintro ⟨fuel, hcalls⟩
    refine ⟨fuel, hcalls.trans ?_⟩
    obtain ⟨j, ending, hrun, hended⟩ := @ended_of_enters _ _ _ _ _ _ initial _ _ (h fuel) (s, [])
    rcases Nat.le_total fuel j with hle | hle
    · have hmore := @calls_run_add σ host residue image _ fuel (j - fuel) (.enter address initial) (s, [])
      rw [Nat.add_sub_cancel' hle, hrun] at hmore
      exact hmore
    · -- With more fuel than the run needs, nothing follows its end.
      cases hresult : f fuel (s, []) with
      | mk result u =>
        rw [hresult] at hrun hended
        have hsame : (run host.recorded residue image fuel (.enter address initial) (s, [])).2 = u := by
          cases hended with
          | outOfFuel hge =>
            rw [Nat.le_antisymm hle hge] at hrun
            rw [hrun]
          | value =>
            have hadd := run_add hrun (by intro hbad; cases hbad) (fuel - j)
            rw [Nat.add_sub_cancel' hle] at hadd
            rw [hadd]
          | stuck =>
            have hadd := run_add hrun (by intro hbad; cases hbad) (fuel - j)
            rw [Nat.add_sub_cancel' hle] at hadd
            rw [hadd]
        simp only [hsame, List.prefix_rfl]
  · rintro ⟨n, hcalls⟩
    obtain ⟨j, ending, hrun, -⟩ := @ended_of_enters _ _ _ _ _ _ initial _ _ (h n) (s, [])
    refine ⟨j, ?_⟩
    rw [hrun]
    exact hcalls

theorem finishes_iff (h : ∀ n, Enters host.recorded residue image n address [] (f n)) (s : σ)
    (value : Double) (t : σ) (calls : Calls) :
    Finishes host residue image (.enter address initial) s value t calls ↔
      ∃ n, f n (s, []) = (.ok value, t, calls) := by
  constructor
  · rintro ⟨fuel, hfuel⟩
    refine ⟨fuel + 1, ?_⟩
    obtain ⟨j, ending, hrun, hended⟩ :=
      @ended_of_enters _ _ _ _ _ _ initial _ _ (h (fuel + 1)) (s, [])
    have hne : (.finished value : Ending) ≠ .outOfFuel := by intro hbad; cases hbad
    cases hresult : f (fuel + 1) (s, []) with
    | mk result u =>
      rw [hresult] at hrun hended
      cases hended with
      | value =>
        obtain ⟨hvalue, hstate⟩ := run_unique hfuel hne hrun (by intro hbad; cases hbad)
        cases hvalue
        rw [hstate]
      | stuck =>
        obtain ⟨hvalue, -⟩ := run_unique hfuel hne hrun (by intro hbad; cases hbad)
        cases hvalue
      | outOfFuel hge =>
        -- The run has ended by then.
        have hadd := run_add hfuel hne (j - fuel)
        rw [Nat.add_sub_cancel' (by omega), hrun] at hadd
        cases hadd
  · rintro ⟨n, hn⟩
    obtain ⟨j, ending, hrun, hended⟩ := @ended_of_enters _ _ _ _ _ _ initial _ _ (h n) (s, [])
    rw [hn] at hrun hended
    cases hended
    exact ⟨j, hrun⟩

theorem faults_iff (h : ∀ n, Enters host.recorded residue image n address [] (f n)) (s : σ) :
    Faults host residue image (.enter address initial) s ↔ ∃ n, (f n (s, [])).1 = .error .stuck := by
  constructor
  · rintro ⟨fuel, fault, hfault⟩
    refine ⟨fuel + 1, ?_⟩
    obtain ⟨j, ending, hrun, hended⟩ :=
      @ended_of_enters _ _ _ _ _ _ initial _ _ (h (fuel + 1)) (s, [])
    have hne : (.faulted fault : Ending) ≠ .outOfFuel := by intro hbad; cases hbad
    have hfuel : run host.recorded residue image fuel (.enter address initial) (s, []) =
        (.faulted fault, (run host.recorded residue image fuel (.enter address initial) (s, [])).2) :=
      Prod.ext hfault rfl
    cases hresult : f (fuel + 1) (s, []) with
    | mk result u =>
      rw [hresult] at hrun hended
      cases hended with
      | value =>
        obtain ⟨hvalue, -⟩ := run_unique hfuel hne hrun (by intro hbad; cases hbad)
        cases hvalue
      | stuck => rfl
      | outOfFuel hge =>
        have hadd := run_add hfuel hne (j - fuel)
        rw [Nat.add_sub_cancel' (by omega), hrun] at hadd
        cases hadd
  · rintro ⟨n, hn⟩
    obtain ⟨j, ending, hrun, hended⟩ := @ended_of_enters _ _ _ _ _ _ initial _ _ (h n) (s, [])
    rw [hn] at hended
    cases hended with
    | @stuck fault => exact ⟨j, fault, by rw [hrun]⟩

end
end Machine

/-! ### Programs -/

namespace Evaluation

section
variable {σ : Type} (host : Host σ) (p : Program) (name : String)

def Makes (s : σ) (calls : Calls) : Prop :=
  ∃ depth, calls <+: (entry host.recorded p depth name (s, [])).2.2

def Finishes (s : σ) (value : Double) (t : σ) (calls : Calls) : Prop :=
  ∃ depth, entry host.recorded p depth name (s, []) = (.ok value, t, calls)

/-- An evaluation misses something that it needs. -/
def Sticks (s : σ) : Prop := ∃ depth, (entry host.recorded p depth name (s, [])).1 = .error .stuck

end
end Evaluation

namespace Program

theorem errorCount_of_compile [HostAddresses] {p : Program} {o : Object} (h : p.compile = .ok o) :
    p.errorCount = 0 := by
  by_cases he : p.errorCount = 0
  · exact he
  · rw [compile, if_pos he] at h
    cases h

theorem Lowered.enters [HostAddresses] {p : Program} {o : Object} {pool : Codegen.Pool}
    {code : List (List Codegen.Item)} (h : p.Lowered o pool code) (hp : p.Ordered) {entry : String}
    (hentry : p.checkEntry entry = .ok ()) {bases : Bases} (hsuit : bases.Suit o.sections) :
    ∃ image id address, Image.load bases o.sections o.links = .ok image ∧
      o.entry? entry = some id ∧ image.entryAddress id 0 = .ok address ∧
      ∀ (σ : Type) (host : Host σ) (residue : σ → Residue) (n : Nat),
        Machine.Enters host residue image n address.toUInt64 []
          (Evaluation.entry host p n entry) := by
  obtain ⟨image, hload, hloaded, haddress⟩ := h.load hsuit
  rw [checkEntry] at hentry
  split at hentry
  · cases hentry
  next f hf =>
  split at hentry
  next hargs =>
    cases hid : o.entries.lookup entry with
    | none =>
      rw [h.function_of_no_entry hp hid] at hf
      cases hf
    | some id =>
      obtain ⟨_, items, -, -, hitems, -⟩ := h.function_of_entry hp hid
      obtain ⟨address, hentryAddress, hword⟩ := haddress id items hitems
      refine ⟨image, id, address, hload, hid, hentryAddress, fun σ host residue n => ?_⟩
      rw [hword]
      exact Machine.enters_callWithin hp h hloaded n entry id f [] hid hf (by rw [hargs]; rfl)
  · cases hentry

/-- Compiled code does what its source says: wherever its sections are loaded, whatever the host does
and leaves in registers, a run from an entry makes the calls that the evaluation makes, one after
another, and ends with its value if and only if the evaluation does. -/
theorem run_agrees [HostAddresses] (source : List Char) (hlen : source.length < sourceLimit)
    (o : Object)
    (hcompile : (Program.parse source).compile = .ok o) (entry : String)
    (hentry : (Program.parse source).checkEntry entry = .ok ()) (bases : Bases)
    (hsuit : bases.Suit o.sections) :
    ∃ image id address, Image.load bases o.sections o.links = .ok image ∧
      o.entry? entry = some id ∧ image.entryAddress id 0 = .ok address ∧
      ∀ (σ : Type) (host : Host σ) (residue : σ × Calls → Residue) (initial : Residue) (s : σ),
        (∀ calls, Machine.Makes host residue image (.enter address.toUInt64 initial) s calls ↔
          Evaluation.Makes host (Program.parse source) entry s calls) ∧
        (∀ value t calls,
          Machine.Finishes host residue image (.enter address.toUInt64 initial) s value t calls ↔
            Evaluation.Finishes host (Program.parse source) entry s value t calls) ∧
        (Machine.Faults host residue image (.enter address.toUInt64 initial) s ↔
          Evaluation.Sticks host (Program.parse source) entry s) := by
  have hanswers := answers_compile_parse hlen (errorCount_of_compile hcompile)
  rw [hcompile] at hanswers
  obtain ⟨pool, code, hlowered⟩ := hanswers
  obtain ⟨image, id, address, hload, hid, haddress, henters⟩ :=
    hlowered.enters (ordered_parse source) hentry hsuit
  refine ⟨image, id, address, hload, hid, haddress, fun σ host residue initial s => ?_⟩
  have h := fun n => henters (σ × Calls) host.recorded residue n
  exact ⟨Machine.makes_iff h s, Machine.finishes_iff h s, Machine.faults_iff h s⟩

theorem exists_compile [HostAddresses] {p : Program} (h : (p.compile.toOption.any fun o =>
    Rights.all.all fun r => (Image.layout o.sections).2 r ≤ 0x100000000) = true) :
    ∃ o, p.compile = .ok o ∧ ∀ r, (Image.layout o.sections).2 r ≤ 0x100000000 := by
  obtain ⟨o, hc, hsizes⟩ := exists_ok_of_any h
  refine ⟨o, hc, fun r => ?_⟩
  exact of_decide_eq_true (List.all_eq_true.1 hsizes r (by cases r <;> decide))

def printsTwo : List Char :=
  "use printDouble(x: Float64) -> Float64\nfunc f() -> Float64 \x7b\n printDouble(2)\n\x7d".toList

open scoped HostAddresses in
theorem compile_printsTwo : ∃ o, (Program.parse printsTwo).compile = .ok o ∧
    ∀ r, (Image.layout o.sections).2 r ≤ 0x100000000 :=
  exists_compile (by decide +kernel)

open scoped HostAddresses in
theorem run_agrees_printsTwo : ∃ o, (Program.parse printsTwo).compile = .ok o ∧
    ∃ image id address, Image.load .standard o.sections o.links = .ok image ∧
      o.entry? "f" = some id ∧ image.entryAddress id 0 = .ok address ∧
      ∀ (σ : Type) (host : Host σ) (residue : σ × Calls → Residue) (initial : Residue) (s : σ) calls,
        Machine.Makes host residue image (.enter address.toUInt64 initial) s calls ↔
          Evaluation.Makes host (Program.parse printsTwo) "f" s calls := by
  obtain ⟨o, hcompile, hsizes⟩ := compile_printsTwo
  have hentry : (Program.parse printsTwo).checkEntry "f" = .ok () := by
    have hsome : ((Program.parse printsTwo).checkEntry "f").toOption = some () := by decide +kernel
    exact eq_ok_of_toOption hsome
  obtain ⟨image, id, address, hload, hid, haddress, hagrees⟩ := run_agrees printsTwo
    (by decide +kernel) o hcompile "f" hentry .standard (Bases.suit_standard hsizes)
  exact ⟨o, hcompile, image, id, address, hload, hid, haddress,
    fun σ host residue initial s => (hagrees σ host residue initial s).1⟩

end Program
end ScalarJit
