import ScalarJit.Proofs.Machine.Stack

/-! # Calls

A call puts its arguments in place, enters its target, and takes the result. What the target does is
given as an evaluation: of a function of the program, which comes back through its return address, or
of the host, which may leave anything in the registers that a caller has to save. -/

namespace ScalarJit
namespace Machine

open X86 (Gpr Instr Xmm)
open Codegen (reg spillCell callArea Item Target)
open Evaluation (EvalM Exit Locals)

def resolved (address : SectionId → Nat → UInt64) (items : List Item) : List Instr :=
  items.map (·.resolve address)

theorem resolved_append (address : SectionId → Nat → UInt64) (items more : List Item) :
    resolved address (items ++ more) = resolved address items ++ resolved address more :=
  List.map_append

theorem codeSize_resolved (address : SectionId → Nat → UInt64) (items : List Item) :
    codeSize (resolved address items) = Codegen.sizeOf items := by
  induction items with
  | nil => rfl
  | cons i items ih =>
    have hcons : resolved address (i :: items) = i.resolve address :: resolved address items := rfl
    rw [hcons, codeSize_cons, Codegen.length_encode_resolve, Codegen.sizeOf_cons, ih]

/-- An evaluation of a function, as it acts on the host only. -/
abbrev Invocation (σ : Type) := σ → Except Exit Double × σ

def invoke {σ : Type} (f : Invocation σ) : EvalM σ Double := fun s =>
  match f s.host with
  | (.ok answer, next) => .ok answer { s with host := next }
  | (.error e, next) => .error e { s with host := next }

theorem functionCall_eq {σ : Type} (calls : Evaluation.CallEval σ) (callee : String)
    (args : List Double) : Evaluation.functionCall calls callee args = invoke (calls callee args) :=
  rfl

theorem ends_invoke {σ : Type} {f : Invocation σ} {t : Evaluation.State σ}
    {ok : Double → Evaluation.State σ → Prop} {err : Exit → Evaluation.State σ → Prop}
    (hok : ∀ x s, f t.host = (.ok x, s) → ok x { t with host := s })
    (herr : ∀ exit s, f t.host = (.error exit, s) → err exit { t with host := s }) :
    Ends (invoke f) t ok err := by
  rcases hf : f t.host with ⟨exit | x, s⟩
  · have hdo : invoke f t = .error exit { t with host := s } := by simp only [invoke, hf]
    exact (ends_of_error hdo).2 (herr exit s hf)
  · have hdo : invoke f t = .ok x { t with host := s } := by simp only [invoke, hf]
    exact (ends_of_ok hdo).2 (hok x s hf)

def hostInvocation {σ : Type} (host : Host σ) (f : HostFunction) (args : List Double) :
    Invocation σ := fun s => (.ok (host f args s).1, (host f args s).2)

def Passed (args : List Double) (m : Machine) : Prop :=
  ∀ i x, args[i]? = some x → m.xmm (reg i) = x

section
variable {σ : Type} (host : Host σ) (residue : σ → Residue) (image : Image) [HostAddresses]

/-- Where a run is when an invocation ends before its time. -/
def Broken (n : Nat) (steps : Nat) (m : Machine) : Exit → Prop
  | .returned _ => False
  | .outOfFuel => n ≤ steps
  | .stuck => ∃ fault, m.step image = .error fault

/-- Code at an address does what an invocation does, and gets to its return. -/
def Enters (n : Nat) (address : UInt64) (args : List Double)
    (f : Invocation σ) : Prop :=
  ∀ (m : Machine) (s : σ), m.pc = address → m.stack.size % 2 = 1 → Passed args m →
    match f s with
    | (.ok value, t) => ∃ j last, Reaches host residue image j m s last t ∧
        AtReturn image ⟨m.stack, m.gpr .rbp⟩ value last
    | (.error exit, t) => ∃ j last, Reaches host residue image j m s last t ∧
        Broken image n j last exit

/-- The code that enters a target does what an invocation does, and comes back. -/
def Serves (address : SectionId → Nat → UInt64) (n : Nat) (target : Target)
    (args : List Double)
    (f : Invocation σ) : Prop :=
  ∀ (m : Machine) (s : σ) (more : List Instr),
    image.At m.pc (resolved address (Codegen.targetItems target) ++ more) →
    m.stack.size % 2 = 0 → Passed args m →
    match f s with
    | (.ok value, t) => ∃ j last, Reaches host residue image j m s last t ∧
        last.pc = behind m.pc (Codegen.sizeOf (Codegen.targetItems target)) ∧
        last.stack = m.stack ∧ last.gpr .rbp = m.gpr .rbp ∧ last.xmm .result = value
    | (.error exit, t) => ∃ j last, Reaches host residue image j m s last t ∧
        Broken image n j last exit

variable {host residue image} {address : SectionId → Nat → UInt64} {n : Nat} {args : List Double}
  {f : Invocation σ}

theorem AtReturn.reaches {entry : Array (Option Word)} {w : UInt64} {frame : Word} {value : Double}
    {m : Machine} {s : σ} (h : AtReturn image ⟨entry.push (some (.bits w)), frame⟩ value m) :
    ∃ last, Reaches host residue image 1 m s last s ∧ last.pc = w ∧ last.stack = entry ∧
      last.gpr .rbp = frame ∧ last.xmm .result = value := by
  obtain ⟨rest, hat⟩ := h.code
  have hpop : (m.past .ret).pop = .ok (.bits w, { m.past .ret with stack := entry }) := by
    rw [pop, stack_past, h.stack]
    simp
  have hstep : m.step image = .ok (.running { m.past .ret with stack := entry, pc := w }) := by
    rw [step_of_at hat, execute, ret, hpop]
    rfl
  exact ⟨_, reaches_of_step hstep, rfl, rfl, h.frame, h.value⟩

theorem serves_code {id : SectionId} (hown : HostFunction.ofAddress? (address id 0) = none)
    (h : Enters host residue image n (address id 0) args f) :
    Serves host residue image address n (.code id) args f := by
  intro m s more hat heven hpassed
  have hat' : image.At m.pc ([Instr.moveImm .rax (address id 0)] ++ (Instr.call .rax :: more)) := hat
  obtain ⟨hfirst, hcall⟩ := Image.at_append.1 hat'
  obtain ⟨next, hnext, hstack, hframe, hxmm, hrax, -⟩ :=
    @straight_moveImm image m _ .rax (by decide) (by decide) (address id 0)
  rw [← hnext.pc_eq] at hcall
  have hstep : next.step image = .ok (.running { (next.past (.call .rax)).push
      (.bits (next.past (.call .rax)).pc) with pc := address id 0 }) := by
    rw [step_of_at hcall, execute, gpr_past, hrax, call]
    simp only [hown]
  have hto : Reaches host residue image 2 m s { (next.past (.call .rax)).push
      (.bits (next.past (.call .rax)).pc) with pc := address id 0 } s :=
    (hnext.reaches hfirst).trans (reaches_of_step hstep)
  have hodd : (next.stack.push (some (.bits (next.past (.call .rax)).pc))).size % 2 = 1 := by
    rw [Array.size_push, hstack]
    omega
  have hback : (next.past (.call .rax)).pc =
      behind m.pc (Codegen.sizeOf (Codegen.targetItems (.code id))) := by
    rw [← codeSize_resolved address]
    show behind next.pc (Instr.call .rax).encode.length =
      behind m.pc (codeSize ([Instr.moveImm .rax (address id 0)] ++ [Instr.call .rax]))
    rw [codeSize_append, ← behind_add, ← hnext.pc_eq]
    rfl
  have henters := h { (next.past (.call .rax)).push (.bits (next.past (.call .rax)).pc) with
    pc := address id 0 } s rfl hodd fun i x hx => (hxmm _).trans (hpassed i x hx)
  cases hf : f s with
  | mk result t =>
    rw [hf] at henters
    cases result with
    | ok value =>
      obtain ⟨j, last, hreach, hreturn⟩ := henters
      obtain ⟨final, hfinal, hpc, hst, hbp, hvalue⟩ := @AtReturn.reaches σ host residue image _
        _ _ _ _ _ t hreturn
      exact ⟨_, final, (hto.trans hreach).trans hfinal, hpc.trans hback, hst.trans hstack,
        hbp.trans hframe, hvalue⟩
    | error exit =>
      obtain ⟨j, last, hreach, hbroken⟩ := henters
      refine ⟨_, last, hto.trans hreach, ?_⟩
      cases exit with
      | returned value => exact hbroken
      | outOfFuel => exact Nat.le_trans hbroken (Nat.le_add_left j 2)
      | stuck => exact hbroken

omit [HostAddresses] in
theorem arguments_of_passed {m : Machine} (h : Passed args m) (hlen : args.length ≤ 16) :
    (Xmm.all.take args.length).map m.xmm = args := by
  apply List.ext_getElem?
  intro i
  rw [List.getElem?_map, List.getElem?_take]
  split
  · next hi =>
    rw [Codegen.getElem?_all (by omega), List.getElem?_eq_getElem hi]
    exact congrArg some (h i args[i] (List.getElem?_eq_getElem hi))
  · next hi => rw [List.getElem?_eq_none (Nat.le_of_not_lt hi), Option.map_none]

theorem straight_target {m : Machine} (hf : HostFunction) :
    ∃ last, Straight image m ((if hf.takesContext then
        [Instr.moveImm .rdi HostFunction.contextAddress] else []) ++
          [Instr.moveImm .rax hf.address]) last ∧
      last.stack = m.stack ∧ last.gpr .rbp = m.gpr .rbp ∧ (∀ r, last.xmm r = m.xmm r) ∧
      last.gpr .rax = .bits hf.address ∧
      (hf.takesContext = true → last.gpr .rdi = .bits HostFunction.contextAddress) := by
  by_cases hc : hf.takesContext = true
  · obtain ⟨next, hnext, hstack, hframe, hxmm, hrdi, -⟩ :=
      @straight_moveImm image m _ .rdi (by decide) (by decide) HostFunction.contextAddress
    obtain ⟨last, hlast, hstack', hframe', hxmm', hrax, hother⟩ :=
      @straight_moveImm image next _ .rax (by decide) (by decide) hf.address
    refine ⟨last, ?_, hstack'.trans hstack, hframe'.trans hframe,
      fun r => (hxmm' r).trans (hxmm r), hrax, fun _ => (hother _ (by decide)).trans hrdi⟩
    rw [if_pos hc]
    exact hnext.append hlast
  · obtain ⟨last, hlast, hstack, hframe, hxmm, hrax, -⟩ :=
      @straight_moveImm image m _ .rax (by decide) (by decide) hf.address
    refine ⟨last, ?_, hstack, hframe, hxmm, hrax, fun h => absurd h hc⟩
    rw [if_neg hc]
    exact hlast

theorem resolved_targetItems_host (hf : HostFunction) :
    resolved address (Codegen.targetItems (.host hf)) =
      ((if hf.takesContext then [Instr.moveImm .rdi HostFunction.contextAddress] else []) ++
        [Instr.moveImm .rax hf.address]) ++ [Instr.call .rax] := by
  rw [Codegen.targetItems]
  cases hf.takesContext <;> rfl

omit [HostAddresses] in
theorem rbp_resume (m : Machine) (residue : Residue) (answer : Double) :
    (m.resume residue answer).gpr .rbp = m.gpr .rbp := by
  have hsaved : (⟨⟨5, by decide⟩⟩ : Gpr) ∉ Gpr.callerSaved := by decide
  rw [gpr_rbp, gpr_rbp]
  simp only [resume, Vector.getElem_ofFn]
  rw [if_neg hsaved]
  rfl

theorem serves_host {hf : HostFunction} (harity : hf.arity = args.length) (hlen : args.length ≤ 16) :
    Serves host residue image address n (.host hf) args (hostInvocation host hf args) := by
  intro m s more hat heven hpassed
  rw [resolved_targetItems_host, List.append_assoc] at hat
  obtain ⟨hfirst, hcall⟩ := Image.at_append.1 hat
  obtain ⟨next, hnext, hstack, hframe, hxmm, hrax, hrdi⟩ := @straight_target image _ m hf
  rw [← hnext.pc_eq] at hcall
  have hcontext : ¬(hf.takesContext = true ∧
      (next.past (.call .rax)).gpr .rdi ≠ .bits HostFunction.contextAddress) := by
    rintro ⟨htakes, hne⟩
    exact hne (hrdi htakes)
  have haligned : (next.past (.call .rax)).isAligned = true := by
    rw [isAligned, depth_past, depth, hstack]
    simpa using heven
  have hargs : (Xmm.all.take hf.arity).map (next.past (.call .rax)).xmm = args := by
    rw [harity]
    exact arguments_of_passed (fun i x hx => (hxmm _).trans (hpassed i x hx)) hlen
  have hstep : next.step image = .ok (.calling hf args (next.past (.call .rax))) := by
    rw [step_of_at hcall, execute, gpr_past, hrax, call]
    simp only [HostFunction.ofAddress?_address, callHost]
    rw [if_neg hcontext, haligned, hargs]
    rfl
  refine ⟨_, _, (hnext.reaches hfirst).trans (reaches_of_call hstep), ?_, hstack, ?_, ?_⟩
  · rw [← codeSize_resolved address, resolved_targetItems_host, codeSize_append, ← behind_add,
      ← hnext.pc_eq]
    rfl
  · exact (rbp_resume _ _ _).trans hframe
  · simp [resume, xmm, Xmm.result]

/-! ### Around a call -/

def prepareCode (k count : Nat) : List Instr :=
  (if 0 < callArea (k + count) then [.reserve (Int32.ofNat (callArea (k + count)))] else []) ++
    (spillCode (k + count) ++ loadCode k count)

def finishCode (k count : Nat) (returns : Bool) : List Instr :=
  (if returns ∧ reg k ≠ Xmm.result then [.sse .movSd (reg k) .result] else []) ++
    (loadCode 0 k ++
      (if 0 < callArea (k + count) then [.free (Int32.ofNat (callArea (k + count)))] else []))

theorem resolved_callItems (target : Target) (k count : Nat) (returns : Bool) :
    resolved address (Codegen.callItems target k count returns) =
      prepareCode k count ++ (resolved address (Codegen.targetItems target) ++
        finishCode k count returns) := by
  have hspill : resolved address (Codegen.spillItems (k + count)) = spillCode (k + count) := by
    simp [resolved, Codegen.spillItems, spillCode, Item.resolve]
  have hload : resolved address (Codegen.argumentItems k count) = loadCode k count := by
    simp [resolved, Codegen.argumentItems, loadCode, Item.resolve]
  have hreload : resolved address (Codegen.reloadItems k) = loadCode 0 k := by
    simp [resolved, Codegen.reloadItems, loadCode, Item.resolve]
  have hresult : resolved address (Codegen.resultItems returns k) =
      if returns ∧ reg k ≠ Xmm.result then [.sse .movSd (reg k) .result] else [] := by
    unfold Codegen.resultItems
    split <;> rfl
  have hreserve : resolved address (if 0 < callArea (k + count) then
      [Item.plain (.reserve (Int32.ofNat (callArea (k + count))))] else []) =
      if 0 < callArea (k + count) then [.reserve (Int32.ofNat (callArea (k + count)))] else [] := by
    split <;> rfl
  have hfree : resolved address (if 0 < callArea (k + count) then
      [Item.plain (.free (Int32.ofNat (callArea (k + count))))] else []) =
      if 0 < callArea (k + count) then [.free (Int32.ofNat (callArea (k + count)))] else [] := by
    split <;> rfl
  simp only [Codegen.callItems, resolved_append, hspill, hload, hreload, hresult, hreserve, hfree,
    prepareCode, finishCode, List.append_assoc]

/-- The stack while a call is under way: what was there, and the registers that were held. -/
structure Saved (held : Nat) (m next : Machine) : Prop where
  size : next.stack.size = m.stack.size + callArea held / 8
  frame : next.gpr .rbp = m.gpr .rbp
  below : ∀ i < m.stack.size, next.stack[i]? = m.stack[i]?
  cells : ∀ i < held,
    next.stack[next.stack.size - 1 - i]? = some (some (.bits (m.xmm (reg i)).bits))

theorem straight_prepare {m : Machine} {k count : Nat} (hk : k + count ≤ 16) :
    ∃ next, Straight image m (prepareCode k count) next ∧ Saved (k + count) m next ∧
      ∀ i < count, next.xmm (reg i) = m.xmm (reg (k + i)) := by
  have harea := callArea_eq (k + count)
  obtain ⟨a, ha, hstack, hframe, hxmm⟩ : ∃ a, Straight image m
      (if 0 < callArea (k + count) then [.reserve (Int32.ofNat (callArea (k + count)))] else []) a ∧
      a.stack = m.stack ++ Array.replicate (callArea (k + count) / 8) none ∧
      a.gpr .rbp = m.gpr .rbp ∧ ∀ r, a.xmm r = m.xmm r := by
    by_cases hpos : 0 < callArea (k + count)
    · rw [if_pos hpos]
      exact straight_reserve (by omega) (by omega)
    · have hzero : callArea (k + count) / 8 = 0 := by omega
      rw [if_neg hpos]
      exact ⟨m, .nil, by rw [hzero]; simp, rfl, fun _ => rfl⟩
  have hsize : a.stack.size = m.stack.size + callArea (k + count) / 8 := by simp [hstack]
  obtain ⟨b, hb, hbsize, hbframe, hbxmm, hbcells, hbbelow⟩ :=
    @straight_spill image a _ (k + count) hk (by omega)
  have hcells : ∀ i < k + count,
      b.stack[b.stack.size - 1 - i]? = some (some (.bits (m.xmm (reg i)).bits)) := by
    intro i hi
    rw [hbsize, hbcells i hi, hxmm]
  obtain ⟨next, hnext, hcstack, hcframe, hclow, -⟩ := @straight_load image b _ k count hk (by omega)
    (fun i => m.xmm (reg (k + i))) fun i hi => hcells (k + i) (by omega)
  refine ⟨next, ha.append (hb.append hnext), ⟨?_, ?_, ?_, ?_⟩, hclow⟩
  · rw [hcstack, hbsize, hsize]
  · rw [hcframe, hbframe, hframe]
  · intro i hi
    rw [hcstack, hbbelow i (by omega), hstack, Array.getElem?_append_left hi]
  · rw [hcstack]
    exact hcells

theorem straight_finish {m next back : Machine} {k count : Nat} {returns : Bool} {value : Double}
    (hk : k + count ≤ 16) (hr : returns = true → k < 16) (hsaved : Saved (k + count) m next)
    (hstack : back.stack = next.stack) (hframe : back.gpr .rbp = next.gpr .rbp)
    (hvalue : back.xmm .result = value) :
    ∃ last, Straight image back (finishCode k count returns) last ∧ last.stack = m.stack ∧
      last.gpr .rbp = m.gpr .rbp ∧ (∀ i < k, last.xmm (reg i) = m.xmm (reg i)) ∧
      (returns = true → last.xmm (reg k) = value) := by
  have harea := callArea_eq (k + count)
  have hsize := hsaved.size
  obtain ⟨a, ha, hastack, haframe, havalue⟩ : ∃ a, Straight image back
      (if returns ∧ reg k ≠ Xmm.result then [.sse .movSd (reg k) .result] else []) a ∧
      a.stack = back.stack ∧ a.gpr .rbp = back.gpr .rbp ∧
      (returns = true → a.xmm (reg k) = value) := by
    split
    · obtain ⟨a, ha, hw⟩ := @straight_sse image back _ .movSd (by decide) (reg k) .result
      exact ⟨a, ha, hw.stack, hw.frame, fun _ => hw.self.trans hvalue⟩
    · next hne =>
      refine ⟨back, .nil, rfl, rfl, fun hret => ?_⟩
      have heq : reg k = Xmm.result := Decidable.not_not.1 fun h => hne ⟨hret, h⟩
      rw [heq, hvalue]
  have hanext : a.stack = next.stack := hastack.trans hstack
  obtain ⟨b, hb, hbstack, hbframe, hblow, hbhigh⟩ := @straight_load image a _ 0 k (by omega)
    (by rw [hanext]; omega) (fun i => m.xmm (reg i)) (by
      intro i hi
      rw [hanext, Nat.zero_add]
      exact hsaved.cells i (by omega))
  obtain ⟨last, hlast, hlstack, hlframe, hlxmm⟩ : ∃ last, Straight image b
      (if 0 < callArea (k + count) then [.free (Int32.ofNat (callArea (k + count)))] else []) last ∧
      last.stack = b.stack.shrink (b.stack.size - callArea (k + count) / 8) ∧
      last.gpr .rbp = b.gpr .rbp ∧ ∀ r, last.xmm r = b.xmm r := by
    have hb' : b.stack = next.stack := hbstack.trans hanext
    by_cases hpos : 0 < callArea (k + count)
    · rw [if_pos hpos]
      exact straight_free (by omega) (by omega) (by rw [hb']; omega)
    · have hzero : callArea (k + count) / 8 = 0 := by omega
      rw [if_neg hpos]
      exact ⟨b, .nil, by rw [hzero]; simp, rfl, fun _ => rfl⟩
  refine ⟨last, ha.append (hb.append hlast), ?_, ?_, ?_, ?_⟩
  · rw [hlstack, hbstack, hanext, hsize, Nat.add_sub_cancel]
    exact shrink_eq hsaved.below
  · rw [hlframe, hbframe, haframe, hframe, hsaved.frame]
  · intro i hi
    rw [hlxmm, hblow i hi]
  · intro hret
    rw [hlxmm, hbhigh k (Nat.le_refl k) (hr hret), havalue hret]

theorem simulates_invoke {act : Activation} {function : Function} {locals : Locals} {m : Machine}
    {s : σ} {target : Target} {k : Nat} {returns : Bool} {more : List Instr}
    (hserves : Serves host residue image address n target args f) (hk : k + args.length ≤ 16)
    (hr : returns = true → k < 16)
    (hat : image.At m.pc
      (resolved address (Codegen.callItems target k args.length returns) ++ more))
    (hin : InFrame act function locals m) (heven : m.stack.size % 2 = 0)
    (hargs : ∀ i x, args[i]? = some x → m.xmm (reg (k + i)) = x) :
    Simulates host residue image act n m locals s (invoke f) fun value locals' last =>
      locals' = locals ∧
      last.pc = behind m.pc (Codegen.sizeOf (Codegen.callItems target k args.length returns)) ∧
      InFrame act function locals last ∧ (∀ i < k, last.xmm (reg i) = m.xmm (reg i)) ∧
      (returns = true → last.xmm (reg k) = value) := by
  obtain ⟨next, hnext, hsaved, hloaded⟩ := @straight_prepare image _ m k args.length hk
  have hsize : Codegen.sizeOf (Codegen.callItems target k args.length returns) =
      codeSize (prepareCode k args.length) + (Codegen.sizeOf (Codegen.targetItems target) +
        codeSize (finishCode k args.length returns)) := by
    rw [← codeSize_resolved address, resolved_callItems, codeSize_append, codeSize_append,
      codeSize_resolved]
  rw [resolved_callItems, List.append_assoc, List.append_assoc] at hat
  refine .straight hat hnext fun hpc hat => ?_
  have hpassed : Passed args next := by
    intro i x hx
    have hi : i < args.length := (List.getElem?_eq_some_iff.1 hx).1
    exact (hloaded i hi).trans (hargs i x hx)
  have harea := callArea_eq (k + args.length)
  have hsaved' := hsaved.size
  have hserved := hserves next s _ hat (by omega) hpassed
  -- From here the call either comes back, with stack and frame as they were, or never does.
  cases hf : f s with
  | mk result t =>
    rw [hf] at hserved
    cases result with
    | ok value =>
      obtain ⟨j, back, hreach, hbackpc, hstack, hframe, hvalue⟩ := hserved
      obtain ⟨last, hlast, hlstack, hlframe, hlow, hresult⟩ :=
        @straight_finish image _ _ _ _ _ _ _ _ hk hr hsaved hstack hframe hvalue
      have hatback : image.At back.pc (finishCode k args.length returns) := by
        rw [hbackpc, ← codeSize_resolved address]
        exact (Image.at_append.1 (Image.at_append.1 hat).2).1
      have hinvoke : invoke f ⟨locals, s⟩ = .ok value ⟨locals, t⟩ := by
        simp only [invoke, hf]
      refine (ends_of_ok hinvoke).2
        ⟨_, last, hreach.trans (hlast.reaches hatback), rfl, ?_, ?_, hlow, hresult⟩
      · rw [hlast.pc_eq, hbackpc, hpc, behind_add, behind_add, hsize]
      · exact hin.of_eq hlstack hlframe
    | error exit =>
      obtain ⟨j, last, hreach, hbroken⟩ := hserved
      have hinvoke : invoke f ⟨locals, s⟩ = .error exit ⟨locals, t⟩ := by
        simp only [invoke, hf]
      refine (ends_of_error hinvoke).2 ⟨j, last, hreach, ?_⟩
      cases exit with
      | returned value => exact hbroken.elim
      | outOfFuel => exact hbroken
      | stuck => exact hbroken

end
end Machine
end ScalarJit
