import ScalarJit.Proofs.Codegen.Discipline
import ScalarJit.Proofs.Codegen.Faults
import ScalarJit.Proofs.Machine.Program

/-! # When registers are exhausted

There are sixteen registers, so code is refused for want of registers exactly if the body of a function
needs more. That code is refused only then is what each step is blamed for. That there is no code then
is read off the items, which name the registers that they use. -/

namespace ScalarJit

open X86 (Assembler)

namespace Codegen

/-! ### Needs of code that is there -/

theorem argumentsNeed_succ_le (blocks : BlockId → Nat) (index : Nat) (args : List Expr) :
    argumentsNeed blocks (index + 1) args ≤ 1 + argumentsNeed blocks index args := by
  induction args generalizing index with
  | nil => exact Nat.zero_le _
  | cons e rest ih =>
    have hrest := ih (index + 1)
    rw [argumentsNeed, argumentsNeed]
    omega

def Phrase.need (blocks : BlockId → Nat) : Phrase → Nat
  | .expr e => Codegen.need blocks e
  | .arguments args => argumentsNeed blocks 0 args
  | .statements _ list => statementsNeed blocks list

variable [HostAddresses]

theorem Lowers.need_le {ctx : Context} {pool : Pool} {d k : Nat} {phrase : Phrase} {is : List Item}
    (h : Lowers ctx pool d k phrase is) (hk : k ≤ 16) :
    k + phrase.need (blockNeed ctx.function d) ≤ 16 := by
  have operands : ∀ {d k : Nat} {lhs rhs : Expr},
      k + argumentsNeed (blockNeed ctx.function d) 0 [lhs, rhs] ≤ 16 →
      k + max (need (blockNeed ctx.function d) lhs) (1 + need (blockNeed ctx.function d) rhs) ≤ 16 := by
    intro d k lhs rhs h
    rw [argumentsNeed, argumentsNeed, argumentsNeed] at h
    omega
  induction h with
  | literal hlt _ | read hlt _ =>
    rw [Phrase.need, need]
    omega
  | write _ _ _ _ ih | bind _ _ _ _ ih | plus _ ih | leaveWith _ _ _ ih =>
    rw [Phrase.need, need]
    exact ih hk
  | arithmetic _ _ _ ih | comparison _ _ _ _ ih | power _ _ _ ih =>
    rw [Phrase.need, need]
    exact operands (ih hk)
  | minus hlt _ _ _ ih =>
    have hoperand := ih hk
    simp only [Phrase.need] at hoperand ⊢
    rw [need]
    omega
  | @call _ _ _ args ty _ _ _ _ _ hr _ ih =>
    have hargs := ih hk
    simp only [Phrase.need] at hargs ⊢
    rw [need]
    cases hvoid : ty.isVoid with
    | true =>
      rw [Bool.not_true, Bool.toNat_false]
      omega
    | false =>
      have hlt := hr (by rw [Ne, ← Ty.isVoid_iff, hvoid]; decide)
      rw [Bool.not_false, Bool.toNat_true]
      omega
  | leave =>
    rw [Phrase.need, need]
    exact hk
  | @ifThen _ _ _ onTrue _ _ hlt _ _ _ _ ihc iht =>
    have hc := ihc hk
    have ht := iht hk
    have hone := Bool.toNat_le onTrue.hasValue
    simp only [Phrase.need] at hc ht ⊢
    rw [need]
    omega
  | ifThenElse hlt _ _ _ _ _ _ _ ihc iht ihf =>
    have hc := ihc hk
    have ht := iht hk
    have hf := ihf hk
    simp only [Phrase.need] at hc ht hf ⊢
    rw [need]
    omega
  | block hb _ ih =>
    rw [Phrase.need, need, blockNeed, hb]
    exact ih hk
  | noArguments | noStatements => exact hk
  | @argument d k e rest _ _ hlt _ _ _ ih ihrest =>
    have he := ih hk
    have hrest := ihrest hlt
    have hle := argumentsNeed_succ_le (blockNeed ctx.function d) 0 rest
    simp only [Phrase.need] at he hrest ⊢
    rw [argumentsNeed]
    omega
  | lastStatement _ _ ih =>
    have he := ih hk
    simp only [Phrase.need] at he ⊢
    rw [statementsNeed, statementsNeed, Nat.max_zero]
    exact he
  | statement _ _ ih ihrest =>
    have he := ih hk
    have hrest := ihrest hk
    simp only [Phrase.need] at he hrest ⊢
    rw [statementsNeed]
    omega

theorem LowersFunction.need_le {ctx : Context} {pool : Pool} {items : List Item}
    (h : LowersFunction ctx pool items) : ctx.function.need ≤ 16 := by
  obtain ⟨is, hlower, -⟩ := h.body
  have hle := hlower.need_le (Nat.zero_le 16)
  rwa [Nat.zero_add] at hle

theorem answers_generateFunction_need {ctx : Context} {declares : String → Signature → Prop}
    (h : Ready declares ctx.function) (hcountable : 8 * ctx.function.slots + 15 ≤ wordMax)
    (hresolve : Resolvable ctx declares)
    (hlowerable : ctx.function.body.Lowerable ctx.function.blocks) (shared : Shared) :
    Answers (generateFunction ctx shared) (fun _ => ctx.function.need ≤ 16)
      fun fault => (∃ f, fault = .encode f) ∨ fault = .registersExhausted ∧ 16 < ctx.function.need := by
  apply (answers_generateFunction h shared).mono
  · rintro r ⟨items, -, -, -, -, hlower⟩
    exact (hlower r.2.pool (.refl _)).need_le
  · intro fault hfault
    cases fault with
    | registersExhausted => exact .inr ⟨rfl, hfault⟩
    | encode f => exact .inl ⟨f, rfl⟩
    | unknownExtern _ => exact absurd hresolve hfault
    | panic _ => exact absurd hcountable hfault
    | internal f =>
      cases f with
      | missingValue => exact absurd hlowerable hfault
      | argumentWithoutRegister _ => exact absurd hlowerable hfault
      | slotOutOfRange _ => exact absurd hcountable hfault
      | _ => exact hfault.elim
    | _ => exact hfault.elim

end Codegen

/-! ### Programs -/

theorem Codegen.resolvable_of_checked {p : Program} (hp : p.Ordered)
    (hexterns : ∀ entry ∈ p.externs, checkExtern entry.1 entry.2 = .ok ()) {ctx : Context}
    (hsections : ctx.sections = numbered (Named.sort p.functions) 0) :
    Resolvable ctx p.Declares := by
  intro callee signature h
  cases hid : ctx.sections.lookup callee with
  | some id => exact ⟨.code id, .code hid⟩
  | none =>
    have hsection := hid
    rw [hsections] at hid
    have hfunction : p.function? callee = none := by
      rw [← Program.Lowered.lookup_sort hp]
      exact lookup_numbered_none hid
    rw [Program.Declares, Program.signature?, hfunction] at h
    have hchecked := answers_checkExtern False callee signature
    rw [hexterns _ (mem_of_lookup h)] at hchecked
    obtain ⟨i, hi, -⟩ := hchecked
    exact ⟨.host (.intrinsic i), .host hsection hi⟩

/-- Of the functions of a source that pass their checks and can be lowered, those that the encoder does
not refuse run out of registers exactly if their bodies need more than sixteen. All others have code. A
block needs what the neediest of its statements needs. -/
theorem Program.exhausted_iff_need [HostAddresses] (source : List Char)
    (hlen : source.length < sourceLimit)
    (hexterns : ∀ entry ∈ (Program.parse source).externs,
      Codegen.checkExtern entry.1 entry.2 = .ok ()) :
    ∀ entry ∈ (Program.parse source).functions, Codegen.checkFunction entry.1 entry.2 = .ok () →
      (∀ id b, entry.2.blocks[id]? = some b →
        entry.2.blockNeed id = Codegen.statementsNeed entry.2.blockNeed b.statements) ∧
      (entry.2.body.Lowerable entry.2.blocks →
        ∀ (home poolSection : SectionId) (shared : Codegen.Shared)
          (result : Except Codegen.Fault (Array UInt8 × Codegen.Shared)),
          Codegen.generateFunction ⟨entry.2, home, poolSection,
            numbered (Named.sort (Program.parse source).functions) 0⟩ shared = result →
          (∀ f, result ≠ .error (.encode f)) →
            (result = .error .registersExhausted ↔ 16 < entry.2.need) ∧
            (entry.2.need ≤ 16 → ∃ r, result = .ok r)) := by
  intro entry hentry hcheck
  have hordered := Program.ordered_parse source
  have hf := hordered.functions entry hentry
  refine ⟨fun id b hb => Function.blockNeed_eq hf hb, ?_⟩
  intro hlowerable home poolSection shared result hresult hencoded
  have hchecked := Codegen.answers_checkFunction False entry.1 entry.2
  rw [hcheck] at hchecked
  obtain ⟨hargs, -, hdouble⟩ := hchecked
  have hready : Codegen.Ready (Program.parse source).Declares entry.2 :=
    ⟨hf, hargs, hdouble⟩
  have hanswers := @Codegen.answers_generateFunction_need _ ⟨entry.2, home, poolSection,
    numbered (Named.sort (Program.parse source).functions) 0⟩ _ hready
    (Program.countable_parse hlen entry hentry hargs)
    (Codegen.resolvable_of_checked hordered hexterns rfl) hlowerable shared
  rw [hresult] at hanswers
  cases result with
  | ok r =>
    have hneed : entry.2.need ≤ 16 := hanswers
    refine ⟨⟨fun h => (by cases h), fun h => absurd hneed (Nat.not_le_of_lt h)⟩, fun _ => ⟨r, rfl⟩⟩
  | error fault =>
    rcases hanswers with ⟨f, rfl⟩ | ⟨rfl, hneed⟩
    · exact absurd rfl (hencoded f)
    · exact ⟨⟨fun _ => hneed, fun _ => rfl⟩, fun h => absurd h (Nat.not_le_of_lt hneed)⟩

/-! ### Functions that can be lowered -/

theorem Expr.WellFormed.lowerable {Γ : Surroundings} {here : Nat} {e : Expr} (he : e.WellFormed Γ here)
    (hresult : Γ.result ≠ .void)
    (hcalls : ∀ callee signature, Γ.declares callee signature →
      signature.args.length ≤ Codegen.maxArguments ∧ ∀ arg ∈ signature.args, arg.2 ≠ .void)
    (hblocks : ∀ id : Nat, here < id → ∀ b, Γ.blocks[id]? = some b → ∀ e ∈ b.statements,
      e.Lowerable Γ.blocks) : e.Lowerable Γ.blocks := by
  induction he with
  | literal value => exact .literal value
  | read _ _ _ => exact .read ..
  | binary _ _ _ _ ihl ihr => exact .binary ihl ihr
  | unary _ _ ih => exact .unary ih
  | write _ _ _ _ _ _ ih => exact .write ih
  | bind _ _ _ _ _ _ ih => exact .bind ih
  | @call _ args signature hs hty _ ih =>
    obtain ⟨hlength, hvoid⟩ := hcalls _ _ hs
    have hlen := congrArg List.length hty
    rw [List.length_map, List.length_map] at hlen
    refine .call (hlen ▸ hlength) (fun arg harg => ?_) ih
    have hmem : arg.ty ∈ signature.args.map (·.2) := by
      rw [hty]
      exact List.mem_map_of_mem harg
    obtain ⟨declared, hdeclared, heq⟩ := List.mem_map.1 hmem
    rw [← heq]
    exact hvoid declared hdeclared
  | leave _ => exact .leave
  | leaveWith _ hr ih => exact .leaveWith (hr ▸ hresult) ih
  | ifThen _ _ _ ihc iht => exact .ifThen ihc iht
  | ifThenElse _ _ _ _ _ _ ihc iht ihf => exact .ifThenElse ihc iht ihf
  | block _ _ hlt => exact .block (hblocks _ hlt)

theorem Function.WellFormed.lowerable {f : Function} {declares : String → Signature → Prop}
    (hf : f.WellFormed declares) (hresult : f.signature.result ≠ .void)
    (hcalls : ∀ callee signature, declares callee signature →
      signature.args.length ≤ Codegen.maxArguments ∧ ∀ arg ∈ signature.args, arg.2 ≠ .void) :
    f.body.Lowerable f.blocks := by
  have hblocks : ∀ depth id : Nat, f.blocks.length ≤ id + depth → ∀ b, f.blocks[id]? = some b →
      ∀ e ∈ b.statements, e.Lowerable f.blocks := by
    intro depth
    induction depth with
    | zero =>
      intro id hle b hb
      rw [Nat.add_zero] at hle
      rw [List.getElem?_eq_none hle] at hb
      cases hb
    | succ depth ih =>
      intro id hle b hb e he
      refine (hf.statements id b hb e he).2.lowerable hresult hcalls fun inner hlt => ?_
      exact ih inner (by omega)
  obtain ⟨b, -, -, -, hbody⟩ := hf.root
  rw [hbody]
  exact .block (hblocks f.blocks.length rootBlock (by omega))

/-- Fifteen values are held while the sign of `x` is changed, which takes two registers. -/
def nestedSums : List Char :=
  ("func f(x: Float64) -> Float64 \x7b\n return 1+(1+(1+(1+(1+(1+(1+(1+(1+(1+(1+(1+(1+(1+(1+-x" ++
    "))))))))))))))\n\x7d").toList

open scoped HostAddresses in
theorem Program.exhausted_iff_need_sums : nestedSums.length < sourceLimit ∧
    (Program.parse nestedSums).errorCount = 0 ∧ ∃ f, (Program.parse nestedSums).function? "f" = some f ∧
      f.need = 17 ∧ Codegen.generateFunction
        ⟨f, 0, 1, numbered (Named.sort (Program.parse nestedSums).functions) 0⟩ ⟨#[], .empty⟩ =
          .error .registersExhausted := by
  have hlen : nestedSums.length < sourceLimit := by decide +kernel
  have hall : (fun p : Program => p.errorCount == 0 && p.externs.isEmpty &&
      (p.functions.all fun entry => decide (entry.2.signature.args.length ≤ Codegen.maxArguments) &&
        entry.2.signature.args.all fun arg => arg.2 != .void) &&
      (p.function? "f").any fun f => f.need == 17 && f.signature.result != .void &&
        (Codegen.checkFunction "f" f).isOk &&
        match Codegen.generateFunction ⟨f, 0, 1, numbered (Named.sort p.functions) 0⟩ ⟨#[], .empty⟩ with
          | .error (.encode _) => false
          | _ => true) (Program.parse nestedSums) = true := by decide +kernel
  -- One evaluation checks all that is asked of the program; the rest takes its parts apart.
  simp only [Bool.and_eq_true, beq_iff_eq, List.isEmpty_iff, List.all_eq_true, decide_eq_true_eq,
    bne_iff_ne, Option.any_eq_true] at hall
  obtain ⟨⟨⟨herrors, hexterns⟩, hsignatures⟩, f, hf, ⟨⟨hneed, hresult⟩, hcheck⟩, hencoded⟩ := hall
  have hcalls : ∀ callee signature, (Program.parse nestedSums).Declares callee signature →
      signature.args.length ≤ Codegen.maxArguments ∧ ∀ arg ∈ signature.args, arg.2 ≠ .void := by
    intro callee signature hdeclares
    rw [Program.Declares, Program.signature?, hexterns] at hdeclares
    split at hdeclares
    · next g hg =>
      cases hdeclares
      exact hsignatures _ (mem_of_lookup hg)
    · cases hdeclares
  have hchecked : Codegen.checkFunction "f" f = .ok () := by
    cases hc : Codegen.checkFunction "f" f with
    | ok _ => rfl
    | error fault =>
      rw [hc] at hcheck
      cases hcheck
  have hmem := mem_of_lookup hf
  have hlowerable := ((Program.ordered_parse nestedSums).functions _ hmem).lowerable hresult hcalls
  have hiff := ((Program.exhausted_iff_need nestedSums hlen (by rw [hexterns]; exact fun _ h => (by cases h))
    _ hmem hchecked).2 hlowerable 0 1 ⟨#[], .empty⟩ _ rfl (fun fault heq => by
      rw [heq] at hencoded
      cases hencoded)).1
  exact ⟨hlen, herrors, f, hf, hneed, hiff.2 (by rw [hneed]; decide)⟩

end ScalarJit
