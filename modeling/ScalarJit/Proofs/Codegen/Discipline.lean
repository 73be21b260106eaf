import ScalarJit.Proofs.Codegen.Program
import ScalarJit.Proofs.Grammar.WellFormed

/-! # The discipline of the register stack

Whatever else ends the generation of an expression, its value goes to the register on top of those
that were live, and all registers above it are free again. This is so from every state, whatever is in
the code buffer and however large the frame is. -/

namespace ScalarJit
namespace Codegen

open X86 (Xmm)

def Fault.misusesRegisters : Fault → Bool
  | .internal (.releasedOutOfOrder ..) => true
  | .internal .branchesDisagree => true
  | .internal (.registersHeld _) => true
  | _ => false

theorem Blames.misusesRegisters {L : Prop} {fault : Fault} (h : Blames L fault) :
    fault.misusesRegisters = false := by
  cases fault with
  | internal f => cases f <;> first | rfl | exact h.elim
  | _ => rfl

theorem Demand.Blames.misusesRegisters {D : Demand} {fault : Fault} (h : D.Blames fault) :
    fault.misusesRegisters = false := by
  cases fault with
  | internal f => cases f <;> first | rfl | exact h.elim
  | _ => rfl

theorem answers_compile_registers [HostAddresses] {p : Program} (hp : p.Ordered) :
    Answers p.compile (fun _ => True) fun fault => fault.misusesRegisters = false := by
  have hexterns : ∀ entry ∈ p.externs, Answers (checkExtern entry.1 entry.2) (fun _ => True)
      fun fault => fault.misusesRegisters = false := by
    intro entry _
    exact (answers_checkExtern False entry.1 entry.2).mono (fun _ _ => trivial)
      fun _ hfault => hfault.misusesRegisters
  have hfunctions : ∀ entry ∈ p.functions, Answers (checkFunction entry.1 entry.2)
      (fun _ => True ∧ ∀ ctx : Context, ctx.function = entry.2 → ∀ shared,
        Answers (generateFunction ctx shared) (fun _ => True)
          fun fault => fault.misusesRegisters = false)
      fun fault => fault.misusesRegisters = false := by
    intro entry hentry
    apply (answers_checkFunction False entry.1 entry.2).mono
    · rintro _ ⟨hargs, -, hdouble⟩
      refine ⟨trivial, fun ctx hctx shared => ?_⟩
      have hready : Ready p.Declares ctx.function := by
        rw [hctx]
        exact ⟨hp.functions entry hentry, hargs, hdouble⟩
      exact (answers_generateFunction hready shared).mono (fun _ _ => trivial)
        fun _ hfault => hfault.misusesRegisters
    · intro _ hfault
      exact hfault.misusesRegisters
  exact (answers_compile_checked hexterns hfunctions fun _ => rfl).mono (fun _ _ => trivial)
    fun _ h => h

theorem Sound.live [HostAddresses] {ctx : Context} {declares : String → Signature → Prop} {d : Nat}
    {e : Expr}
    {m : GenM (Option Xmm)} (h : Sound ctx declares d e m) {s t : State} {v : Option Xmm}
    (hrun : m s = .ok v t) :
    (e.ty ≠ .void → (∃ r, Xmm.all[s.registers.live.length]? = some r ∧ v = some r) ∧
      t.registers.live.length = s.registers.live.length + 1) ∧
    (e.ty = .void → v = none ∧ t.registers.live.length = s.registers.live.length) := by
  obtain ⟨_, -, hv, hused, -⟩ := (ends_of_ok hrun).1 (h s s.used rfl)
  rw [RegisterStack.length_live, RegisterStack.length_live]
  constructor
  · intro hty
    rw [Expr.hasValue_iff.2 hty] at hv hused
    have hle := t.used_le
    have hlt : s.used < 16 := by
      rw [hused] at hle
      exact hle
    exact ⟨⟨reg s.used, getElem?_all hlt, hv⟩, hused⟩
  · intro hty
    have hnone : e.hasValue = false := by
      rw [Expr.hasValue, hty]
      rfl
    rw [hnone] at hv hused
    exact ⟨hv, hused⟩

end Codegen

/-- Each expression of a function that passes its check, generated on top of `k` live registers,
leaves its value in the next register and that register live. One of type void leaves the stack as it
was. No fault of the register stack ends the compilation. -/
theorem Program.registers_parse [HostAddresses] (source : List Char) :
    (∀ entry ∈ (Program.parse source).functions, Codegen.checkFunction entry.1 entry.2 = .ok () →
      ∀ ctx : Codegen.Context, ctx.function = entry.2 → ∀ e ∈ entry.2.parts,
      ∀ (k : Nat) (s t : Codegen.State) (v : Option X86.Xmm), s.registers.live.length = k →
        Codegen.functionExpr ctx e s = .ok v t →
          (e.ty ≠ .void → (∃ r, X86.Xmm.all[k]? = some r ∧ v = some r) ∧
            t.registers.live.length = k + 1) ∧
          (e.ty = .void → v = none ∧ t.registers.live.length = k)) ∧
    ∀ fault, (Program.parse source).compile = .error fault → fault.misusesRegisters = false := by
  have hordered := Program.ordered_parse source
  constructor
  · intro entry hentry hcheck ctx hctx e he k s t v hk hrun
    subst hk
    have hchecked := Codegen.answers_checkFunction False entry.1 entry.2
    rw [hcheck] at hchecked
    have hf := hordered.functions entry hentry
    rw [← hctx] at hf hchecked he
    exact (Codegen.sound_functionExpr hf hchecked.2.2 he).live hrun
  · intro fault hfault
    have hanswers := Codegen.answers_compile_registers hordered
    rw [hfault] at hanswers
    exact hanswers

def raises : List Char := "func f(x: Float64) -> Float64 \x7b\n return 1 + x ** 2\n\x7d".toList

open scoped HostAddresses in
theorem Program.registers_parse_raises : (Program.parse raises).errorCount = 0 ∧
    ∃ (ctx : Codegen.Context) (e : Expr) (s t : Codegen.State) (v : Option X86.Xmm),
      e ∈ ctx.function.parts ∧ s.registers.live.length = 3 ∧ e.ty ≠ .void ∧
        Codegen.functionExpr ctx e s = .ok v t ∧ (∃ r, X86.Xmm.all[3]? = some r ∧ v = some r) ∧
        t.registers.live.length = 4 := by
  let s : Codegen.State := ⟨.empty X86.Assembler.defaultLimit, ⟨3, by decide⟩, #[], .empty⟩
  let context := fun f : Function => (⟨f, 0, 1, []⟩ : Codegen.Context)
  have hall : ((Program.parse raises).functions.any fun entry =>
      (Codegen.checkFunction entry.1 entry.2).isOk && entry.2.parts.any fun e =>
        e.hasValue && match Codegen.functionExpr (context entry.2) e s with
          | .ok .. => true
          | .error .. => false) = true := by decide +kernel
  obtain ⟨entry, hentry, hfound⟩ := List.any_eq_true.1 hall
  obtain ⟨hcheck, hparts⟩ := Bool.and_eq_true_iff.1 hfound
  obtain ⟨e, he, hrun⟩ := List.any_eq_true.1 hparts
  obtain ⟨hvalue, hrun⟩ := Bool.and_eq_true_iff.1 hrun
  have hchecked : Codegen.checkFunction entry.1 entry.2 = .ok () := by
    cases hc : Codegen.checkFunction entry.1 entry.2 with
    | ok _ => rfl
    | error fault =>
      rw [hc] at hcheck
      cases hcheck
  cases hr : Codegen.functionExpr (context entry.2) e s with
  | error fault t =>
    rw [hr] at hrun
    cases hrun
  | ok v t =>
    have hty := Expr.hasValue_iff.1 hvalue
    have hlive := ((Program.registers_parse raises).1 entry hentry hchecked (context entry.2) rfl e he
      3 s t v rfl hr).1 hty
    exact ⟨by decide +kernel, context entry.2, e, s, t, v, he, rfl, hty, hr, hlive.1, hlive.2⟩

end ScalarJit
