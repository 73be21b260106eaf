import ScalarJit.Proofs.Codegen.Program
import ScalarJit.Proofs.Grammar.WellFormed
import ScalarJit.Proofs.Tree.Parts

/-! # Compiled programs know doubles only

The generator looks at types only to see whether there is a value. What it checks before are the
signatures and the variables; that every other type is then that of a double, or void, follows from
the rules that expressions are built by. -/

namespace ScalarJit

structure Signature.OfDoubles (s : Signature) : Prop where
  args : ∀ arg ∈ s.args, arg.2 = .float64
  result : s.result = .float64 ∨ s.result = .void

/-- Operations with their operands, conditions, arguments and values that are stored: what code
treats as doubles without asking. -/
def Expr.scalars : Expr → List Expr
  | .binary op lhs rhs => [.binary op lhs rhs, lhs, rhs]
  | .unary op operand => [.unary op operand, operand]
  | .write _ _ value => [value]
  | .bind _ _ value => [value]
  | .call _ args _ => args
  | .ifThen condition _ => [condition]
  | .ifThenElse condition _ _ => [condition]
  | .literal _ | .read .. | .leave | .leaveWith _ | .block .. => []

/-- A call with `count` arguments reaches a function that takes so many, or an intrinsic. -/
def Program.Reaches (p : Program) (callee : String) (count : Nat) : Prop :=
  (∃ f, (callee, f) ∈ p.functions ∧ f.signature.args.length = count ∧ count ≤ Codegen.maxArguments) ∨
    ∃ signature i, (callee, signature) ∈ p.externs ∧ Intrinsic.ofName? callee = some i ∧ i.arity = count

/-- Every variable, every value and everything that is passed or returned is a double. -/
structure Program.OfDoubles (p : Program) : Prop where
  externs : ∀ entry ∈ p.externs, entry.2.OfDoubles
  signatures : ∀ entry ∈ p.functions, entry.2.signature.OfDoubles
  locals : ∀ entry ∈ p.functions, ∀ b ∈ entry.2.blocks, ∀ v ∈ b.locals, v.ty = .float64
  expressions : ∀ entry ∈ p.functions, ∀ e ∈ entry.2.parts, e.ty = .float64 ∨ e.ty = .void
  scalars : ∀ entry ∈ p.functions, ∀ e ∈ entry.2.parts, ∀ x ∈ e.scalars, x.ty = .float64
  calls : ∀ entry ∈ p.functions, ∀ (callee : String) (args : List Expr) (ty : Ty),
    .call callee args ty ∈ entry.2.parts → p.Reaches callee args.length

/-! ### What the checks say -/

namespace Codegen

theorem ofDoubles_of_checkSignature {name : String} {s : Signature}
    (h : checkSignature name s = .ok ()) : s.OfDoubles ∧ s.args.length ≤ maxArguments := by
  have hanswers := answers_checkSignature False name s
  rw [h] at hanswers
  obtain ⟨hlen, hargs, hresult⟩ := hanswers
  exact ⟨⟨hargs, hresult.symm⟩, hlen⟩

theorem eq_ok_of_bind {ε : Type} {m : Except ε Unit} {f : Unit → Except ε Unit}
    (h : (m >>= f) = .ok ()) : m = .ok () := by
  cases m with
  | ok _ => rfl
  | error _ => cases h

theorem ofDoubles_of_checkFunction {name : String} {f : Function}
    (h : checkFunction name f = .ok ()) : f.signature.OfDoubles ∧
      f.signature.args.length ≤ maxArguments ∧
      ∀ var v, declaration? f.blocks var = some v → v.ty = .float64 := by
  obtain ⟨hsignature, hlen⟩ := ofDoubles_of_checkSignature (eq_ok_of_bind h)
  have hanswers := answers_checkFunction False name f
  rw [h] at hanswers
  exact ⟨hsignature, hlen, hanswers.2.2⟩

theorem ofDoubles_of_checkExtern {name : String} {s : Signature}
    (h : checkExtern name s = .ok ()) : s.OfDoubles ∧
      ∃ i, Intrinsic.ofName? name = some i ∧ i.arity = s.args.length := by
  have hanswers := answers_checkExtern False name s
  rw [h] at hanswers
  exact ⟨(ofDoubles_of_checkSignature (eq_ok_of_bind h)).1, hanswers⟩

theorem answers_self {ε : Type} (m : Except ε Unit) :
    Answers m (fun _ => m = .ok ()) fun _ => True := by
  cases m <;> trivial

theorem answers_trivial {ε α : Type} (m : Except ε α) :
    Answers m (fun _ => True) fun _ => True := by
  cases m <;> trivial

theorem checked_of_compile [HostAddresses] {p : Program} {o : Object} (h : p.compile = .ok o) :
    (∀ entry ∈ p.externs, checkExtern entry.1 entry.2 = .ok ()) ∧
      ∀ entry ∈ p.functions, checkFunction entry.1 entry.2 = .ok () := by
  have hfunctions : ∀ entry ∈ p.functions, Answers (checkFunction entry.1 entry.2)
      (fun _ => checkFunction entry.1 entry.2 = .ok () ∧ ∀ ctx : Context, ctx.function = entry.2 →
        ∀ shared, Answers (generateFunction ctx shared) (fun _ => True) fun _ => True)
      fun _ => True := by
    intro entry _
    apply (answers_self (checkFunction entry.1 entry.2)).mono _ fun _ _ => trivial
    intro _ hok
    exact ⟨hok, fun _ _ _ => answers_trivial _⟩
  have hanswers := answers_compile_checked
    (fun entry _ => answers_self (checkExtern entry.1 entry.2)) hfunctions fun _ => trivial
  rw [h] at hanswers
  exact hanswers.2

end Codegen

/-! ### Types of expressions -/

structure Surroundings.OfDoubles (Γ : Surroundings) : Prop where
  locals : ∀ var v, declaration? Γ.blocks var = some v → v.ty = .float64
  declared : ∀ callee signature, Γ.declares callee signature → signature.OfDoubles

section
variable {Γ : Surroundings} {here : BlockId} {e : Expr}

theorem Expr.WellFormed.ty_cases (h : e.WellFormed Γ here) (hΓ : Γ.OfDoubles)
    (hblocks : ∀ id b, here < id → Γ.blocks[id]? = some b → b.ty = .float64 ∨ b.ty = .void) :
    e.ty = .float64 ∨ e.ty = .void := by
  induction h with
  | literal _ => exact .inl rfl
  | binary _ _ _ _ ihl _ => exact ihl
  | unary _ _ ih => exact ih
  | read hd _ _ => exact .inl (hΓ.locals _ _ hd)
  | write _ _ _ _ _ _ _ | bind _ _ _ _ _ _ _ | leave _ | leaveWith _ _ _ => exact .inr rfl
  | call hs _ _ _ => exact (hΓ.declared _ _ hs).result
  | ifThen _ _ _ _ iht => exact iht
  | ifThenElse _ _ _ _ _ _ _ iht _ => exact iht
  | block hb _ hlt => exact hblocks _ _ hlt hb

theorem Expr.WellFormed.scalars_ty (h : e.WellFormed Γ here) (hΓ : Γ.OfDoubles)
    (hblocks : ∀ id b, here < id → Γ.blocks[id]? = some b → b.ty = .float64 ∨ b.ty = .void) :
    ∀ x ∈ e.scalars, x.ty = .float64 := by
  have valued : ∀ {x : Expr}, x.WellFormed Γ here → x.ty ≠ .void → x.ty = .float64 :=
    fun hx hne => (hx.ty_cases hΓ hblocks).resolve_right hne
  cases h with
  | literal _ | read _ _ _ | leave _ | leaveWith _ _ | block _ _ _ => simp [scalars]
  | binary hl _ hv hty =>
    have hlhs := valued hl hv
    simp [scalars, Expr.ty, hlhs, ← hty]
  | unary h hv =>
    have hoperand := valued h hv
    simp [scalars, Expr.ty, hoperand]
  | write hd _ _ _ hty _ | bind hd _ _ hty _ _ =>
    have hvalue := hty.trans (hΓ.locals _ _ hd)
    simp [scalars, hvalue]
  | @call callee args signature hs hty _ =>
    intro arg harg
    have hmem : arg.ty ∈ signature.args.map (·.2) := by
      rw [hty]
      exact List.mem_map_of_mem harg
    obtain ⟨declared, hdeclared, heq⟩ := List.mem_map.1 hmem
    rw [← heq]
    exact (hΓ.declared _ _ hs).args declared hdeclared
  | ifThen hc _ hv | ifThenElse hc _ _ hv _ _ =>
    have hcondition := valued hc hv
    simp [scalars, hcondition]

end

section
variable {declares : String → Signature → Prop} {f : Function}

theorem Function.WellFormed.block_ty_cases (hf : f.WellFormed declares)
    (hΓ : (f.surroundings declares).OfDoubles) {id : BlockId} {b : Block}
    (hb : f.blocks[id]? = some b) : b.ty = .float64 ∨ b.ty = .void := by
  -- the induction is on the number of blocks behind this one
  generalize hn : f.blocks.length - id = n
  induction n using Nat.strongRecOn generalizing id b with
  | ind n ih =>
    have hid := (List.getElem?_eq_some_iff.1 hb).1
    unfold Block.ty
    cases hlast : b.statements.getLast? with
    | none => exact .inr rfl
    | some e =>
      have hwell := (hf.statements id b hb e (List.mem_of_getLast? hlast)).2
      apply hwell.ty_cases hΓ
      intro id' b' hlt hb'
      have hfewer : f.blocks.length - id' < n := hn ▸ Nat.sub_lt_sub_left hid hlt
      exact ih _ hfewer hb' rfl

theorem Function.WellFormed.part_ty_cases (hf : f.WellFormed declares)
    (hΓ : (f.surroundings declares).OfDoubles) {e : Expr} (he : e ∈ f.parts) :
    e.ty = .float64 ∨ e.ty = .void := by
  rcases hf.part he with rfl | ⟨here, hwell⟩
  · obtain ⟨b, hb, -, -, hbody⟩ := hf.root
    rw [hbody]
    exact hf.block_ty_cases hΓ hb
  · exact hwell.ty_cases hΓ fun _ _ _ hb => hf.block_ty_cases hΓ hb

theorem Function.WellFormed.part_scalars_ty (hf : f.WellFormed declares)
    (hΓ : (f.surroundings declares).OfDoubles) {e : Expr} (he : e ∈ f.parts) :
    ∀ x ∈ e.scalars, x.ty = .float64 := by
  rcases hf.part he with rfl | ⟨here, hwell⟩
  · obtain ⟨b, hb, -, -, hbody⟩ := hf.root
    rw [hbody]
    simp [Expr.scalars]
  · exact hwell.scalars_ty hΓ fun _ _ _ hb => hf.block_ty_cases hΓ hb

end

/-! ### Programs -/

section
variable {p : Program} (hp : p.Ordered)
  (hexterns : ∀ entry ∈ p.externs, Codegen.checkExtern entry.1 entry.2 = .ok ())
  (hfunctions : ∀ entry ∈ p.functions, Codegen.checkFunction entry.1 entry.2 = .ok ())
include hexterns hfunctions

theorem Program.Declares.reaches {callee : String} {signature : Signature}
    (h : p.Declares callee signature) :
    signature.OfDoubles ∧ p.Reaches callee signature.args.length := by
  unfold Declares signature? at h
  cases hf : p.function? callee with
  | some f =>
    rw [hf] at h
    cases h
    have hmem := mem_of_lookup hf
    obtain ⟨hdoubles, hlen, -⟩ := Codegen.ofDoubles_of_checkFunction (hfunctions _ hmem)
    exact ⟨hdoubles, .inl ⟨f, hmem, rfl, hlen⟩⟩
  | none =>
    rw [hf] at h
    have hmem := mem_of_lookup h
    obtain ⟨hdoubles, i, hi, harity⟩ := Codegen.ofDoubles_of_checkExtern (hexterns _ hmem)
    exact ⟨hdoubles, .inr ⟨signature, i, hmem, hi, harity⟩⟩

include hp

theorem Program.ofDoubles_of_checked : p.OfDoubles := by
  have hΓ : ∀ entry ∈ p.functions, (entry.2.surroundings p.Declares).OfDoubles := by
    intro entry hentry
    exact ⟨(Codegen.ofDoubles_of_checkFunction (hfunctions entry hentry)).2.2,
      fun _ _ hd => (hd.reaches hexterns hfunctions).1⟩
  exact {
    externs := fun entry hentry => (Codegen.ofDoubles_of_checkExtern (hexterns entry hentry)).1
    signatures := fun entry hentry =>
      (Codegen.ofDoubles_of_checkFunction (hfunctions entry hentry)).1
    locals := by
      intro entry hentry b hb v hv
      obtain ⟨id, hid⟩ := List.mem_iff_getElem?.1 hb
      obtain ⟨index, hindex⟩ := List.mem_iff_getElem?.1 hv
      apply (hΓ entry hentry).locals ⟨id, index⟩
      show entry.2.blocks[id]?.bind (·.locals[index]?) = some v
      rw [hid, Option.bind_some, hindex]
    expressions := fun entry hentry _ he =>
      (hp.functions entry hentry).part_ty_cases (hΓ entry hentry) he
    scalars := fun entry hentry _ he =>
      (hp.functions entry hentry).part_scalars_ty (hΓ entry hentry) he
    calls := by
      intro entry hentry callee args ty he
      have hf := hp.functions entry hentry
      rcases hf.part he with hbody | ⟨here, hwell⟩
      · obtain ⟨b, -, -, -, heq⟩ := hf.root
        rw [heq] at hbody
        cases hbody
      · cases hwell with
        | call hs hty _ =>
          have hlen := congrArg List.length hty
          rw [List.length_map, List.length_map] at hlen
          rw [← hlen]
          exact (hs.reaches hexterns hfunctions).2 }

end

/-- A source that was compiled has doubles only. -/
theorem Program.ofDoubles_of_compile [HostAddresses] (source : List Char) (o : Object)
    (h : (Program.parse source).compile = .ok o) : (Program.parse source).OfDoubles := by
  obtain ⟨hexterns, hfunctions⟩ := Codegen.checked_of_compile h
  exact Program.ofDoubles_of_checked (Program.ordered_parse source) hexterns hfunctions

def countsDown : List Char :=
  ("use printDouble(x: Float64) -> Float64\nfunc down(n: Float64) \x7b\n var m = n\n" ++
    " if m > 0 \x7b\n  printDouble(-m)\n  m = m - 1\n  down(m)\n \x7d\n\x7d").toList

open scoped HostAddresses in
theorem Program.ofDoubles_of_compile_countsDown :
    ∃ o, (Program.parse countsDown).compile = .ok o ∧ (Program.parse countsDown).OfDoubles := by
  have hany : ((Program.parse countsDown).compile.toOption.any fun _ => true) = true := by
    decide +kernel
  obtain ⟨o, hc, -⟩ := exists_ok_of_any hany
  exact ⟨o, hc, Program.ofDoubles_of_compile countsDown o hc⟩

end ScalarJit
