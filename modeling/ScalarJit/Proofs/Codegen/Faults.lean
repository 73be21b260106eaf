import ScalarJit.Proofs.Codegen.Program
import ScalarJit.Proofs.Grammar.Thrift

/-! # Which programs the generator can lower

The rules for types let a call of type void stand where a value is returned or passed, and let a call
pass more arguments than there are registers for them. Up to these, every program that was read
without errors is compiled or refused for a reason that its source shows. -/

namespace ScalarJit

/-- Faults that name something in the source. -/
def Codegen.Fault.userFacing : Codegen.Fault → Bool
  | .hasDiagnostics _ => false
  | .internal _ => false
  | .panic _ => false
  | _ => true

/-- No source is as long as this: a text in memory has fewer bytes. -/
def sourceLimit : Nat := 0x8000000000000000

/-- Slots of programs that fit into memory can be counted in bytes. -/
theorem Program.countable_parse {source : List Char} (hlen : source.length < sourceLimit) :
    ∀ entry ∈ (Program.parse source).functions,
      entry.2.signature.args.length ≤ Codegen.maxArguments →
        8 * entry.2.slots + 15 ≤ wordMax := by
  intro entry hentry hargs
  have hslots := Program.slots_parse_le source entry hentry
  rw [Codegen.maxArguments] at hargs
  rw [sourceLimit] at hlen
  rw [wordMax]
  omega

theorem Program.answers_compile_parse [HostAddresses] {source : List Char}
    (hlen : source.length < sourceLimit)
    (he : (Program.parse source).errorCount = 0) :
    Codegen.Answers (Program.parse source).compile
      (fun o => ∃ pool code, (Program.parse source).Lowered o pool code)
      (Codegen.Blames (Program.parse source).Lowerable) :=
  Codegen.answers_compile (Program.ordered_parse source) he (Program.countable_parse hlen)

theorem Codegen.Blames.cases {lowerable : Prop} {fault : Fault} (h : Blames lowerable fault) :
    fault.userFacing = true ∨ ¬lowerable ∧
      (fault = .internal .missingValue ∨ ∃ i, fault = .internal (.argumentWithoutRegister i)) := by
  cases fault with
  | hasDiagnostics errors => exact h.elim
  | internal f =>
    cases f with
    | missingValue => exact .inr ⟨h, .inl rfl⟩
    | argumentWithoutRegister i => exact .inr ⟨h, .inr ⟨i, rfl⟩⟩
    | _ => exact h.elim
  | panic p => exact h.elim
  | _ => exact .inl rfl

/-- A program that was read without errors and can be lowered is compiled, or refused for a reason
that its source shows. One that cannot be lowered is refused, if not for such a reason then because
a value or a register for an argument is missing. -/
theorem Program.compile_parse_faults [HostAddresses] (source : List Char)
    (hlen : source.length < sourceLimit)
    (he : (Program.parse source).errorCount = 0) :
    ((Program.parse source).Lowerable →
      (∃ o, (Program.parse source).compile = .ok o) ∨
        ∃ fault, (Program.parse source).compile = .error fault ∧ fault.userFacing = true) ∧
    (¬(Program.parse source).Lowerable →
      ∃ fault, (Program.parse source).compile = .error fault ∧
        (fault.userFacing = true ∨ fault = .internal .missingValue ∨
          ∃ i, fault = .internal (.argumentWithoutRegister i))) := by
  have hanswers := Program.answers_compile_parse hlen he
  cases hc : (Program.parse source).compile with
  | ok o =>
    rw [hc] at hanswers
    obtain ⟨pool, code, hlowered⟩ := hanswers
    exact ⟨fun _ => .inl ⟨o, rfl⟩, fun hnot => absurd hlowered.lowerable hnot⟩
  | error fault =>
    rw [hc] at hanswers
    constructor
    · intro hlowerable
      rcases hanswers.cases with huser | ⟨hnot, -⟩
      · exact .inr ⟨fault, rfl, huser⟩
      · exact absurd hlowerable hnot
    · intro _
      rcases hanswers.cases with huser | ⟨-, hinternal⟩
      · exact ⟨fault, rfl, .inl huser⟩
      · exact ⟨fault, rfl, .inr hinternal⟩

def returnsCall : List Char := "func g() \x7b\n\x7d\nfunc f() \x7b\n return g()\n\x7d".toList

open scoped HostAddresses in
theorem Program.compile_parse_returnsCall :
    (Program.parse returnsCall).compile = .error (.internal .missingValue) := by
  have hfault : Except.rec (motive := fun _ => Option Codegen.Fault) some (fun _ => none)
      (Program.parse returnsCall).compile = some (.internal .missingValue) := by decide +kernel
  cases hc : (Program.parse returnsCall).compile with
  | ok o =>
    rw [hc] at hfault
    cases hfault
  | error fault =>
    rw [hc] at hfault
    cases hfault
    rfl

open scoped HostAddresses in
/-- The call has no value that could be returned, and its source shows no reason to refuse it. -/
theorem Program.compile_parse_faults_returnsCall :
    returnsCall.length < sourceLimit ∧ (Program.parse returnsCall).errorCount = 0 ∧
      (Program.parse returnsCall).compile = .error (.internal .missingValue) ∧
      ¬(Program.parse returnsCall).Lowerable := by
  have hlen : returnsCall.length < sourceLimit := by decide +kernel
  have he : (Program.parse returnsCall).errorCount = 0 := by decide +kernel
  have hc := Program.compile_parse_returnsCall
  refine ⟨hlen, he, hc, fun hlowerable => ?_⟩
  rcases (Program.compile_parse_faults returnsCall hlen he).1 hlowerable with ⟨o, ho⟩ | ⟨fault, hf, hu⟩
  · rw [hc] at ho
    cases ho
  · rw [hc] at hf
    cases hf
    cases hu

end ScalarJit
