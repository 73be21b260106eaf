import ScalarJit.Proofs.Tree.WellFormed

/-! # Parts of expressions

An expression and everything inside it, from the outside in and from left to right, which is the
order of evaluation. A block is a part that holds nothing: its statements are parts of the function
and not of the expression that names it. -/

namespace ScalarJit

namespace Expr

mutual

def inner : Expr → List Expr
  | .literal _ => []
  | .binary _ lhs rhs => (lhs :: lhs.inner) ++ (rhs :: rhs.inner)
  | .unary _ operand => operand :: operand.inner
  | .read .. => []
  | .write _ _ value => value :: value.inner
  | .bind _ _ value => value :: value.inner
  | .call _ args _ => innerAll args
  | .leave => []
  | .leaveWith value => value :: value.inner
  | .ifThen condition onTrue => (condition :: condition.inner) ++ (onTrue :: onTrue.inner)
  | .ifThenElse condition onTrue onFalse =>
    (condition :: condition.inner) ++ ((onTrue :: onTrue.inner) ++ (onFalse :: onFalse.inner))
  | .block .. => []

def innerAll : List Expr → List Expr
  | [] => []
  | e :: rest => (e :: e.inner) ++ innerAll rest

end

def parts (e : Expr) : List Expr := e :: e.inner

theorem innerAll_eq (es : List Expr) : innerAll es = es.flatMap parts := by
  induction es with
  | nil => rfl
  | cons e rest ih => rw [innerAll, ih, List.flatMap_cons, parts]

section
variable (op : BinaryOp) (sign : UnaryOp) (name : String) (var : VarRef) (x : Double) (ty : Ty)
  (mutable : Bool) (id : BlockId) (e lhs rhs condition onTrue onFalse : Expr) (args : List Expr)

@[simp] theorem inner_literal : (literal x).inner = [] := rfl

@[simp] theorem inner_read : (read name var ty mutable).inner = [] := rfl

@[simp] theorem inner_leave : leave.inner = [] := rfl

@[simp] theorem inner_block : (block id ty).inner = [] := rfl

@[simp] theorem inner_binary : (binary op lhs rhs).inner = lhs.parts ++ rhs.parts := rfl

@[simp] theorem inner_unary : (unary sign e).inner = e.parts := rfl

@[simp] theorem inner_write : (write name var e).inner = e.parts := rfl

@[simp] theorem inner_bind : (bind name var e).inner = e.parts := rfl

@[simp] theorem inner_call : (call name args ty).inner = args.flatMap parts :=
  innerAll_eq args

@[simp] theorem inner_leaveWith : (leaveWith e).inner = e.parts := rfl

@[simp] theorem inner_ifThen :
    (ifThen condition onTrue).inner = condition.parts ++ onTrue.parts := rfl

@[simp] theorem inner_ifThenElse : (ifThenElse condition onTrue onFalse).inner =
    condition.parts ++ (onTrue.parts ++ onFalse.parts) := rfl

theorem mem_parts {part : Expr} : part ∈ e.parts ↔ part = e ∨ part ∈ e.inner := by
  rw [parts, List.mem_cons]

end

theorem self_mem_parts (e : Expr) : e ∈ e.parts := List.mem_cons_self

theorem WellFormed.inner {Γ : Surroundings} {here : BlockId} {e : Expr} (h : e.WellFormed Γ here) :
    ∀ part ∈ e.inner, part.WellFormed Γ here := by
  have whole : ∀ {x : Expr}, x.WellFormed Γ here → (∀ part ∈ x.inner, part.WellFormed Γ here) →
      ∀ part ∈ x.parts, part.WellFormed Γ here := by
    intro x hx hinner part hp
    rcases (mem_parts x).1 hp with rfl | hp
    · exact hx
    · exact hinner part hp
  induction h with
  | literal _ | read _ _ _ | leave _ | block _ _ _ => simp
  | unary h _ ih | write _ _ _ _ _ h ih | bind _ _ _ _ _ h ih | leaveWith h _ ih =>
    simpa using whole h ih
  | binary hl hr _ _ ihl ihr =>
    simp only [inner_binary, List.forall_mem_append]
    exact ⟨whole hl ihl, whole hr ihr⟩
  | call _ _ h ih =>
    simp only [inner_call, List.forall_mem_flatMap]
    exact fun arg harg => whole (h arg harg) (ih arg harg)
  | ifThen hc ht _ ihc iht =>
    simp only [inner_ifThen, List.forall_mem_append]
    exact ⟨whole hc ihc, whole ht iht⟩
  | ifThenElse hc ht hf _ _ _ ihc iht ihf =>
    simp only [inner_ifThenElse, List.forall_mem_append]
    exact ⟨whole hc ihc, whole ht iht, whole hf ihf⟩

theorem WellFormed.part {Γ : Surroundings} {here : BlockId} {e part : Expr}
    (h : e.WellFormed Γ here) (hp : part ∈ e.parts) : part.WellFormed Γ here := by
  rcases (mem_parts e).1 hp with rfl | hp
  · exact h
  · exact h.inner part hp

end Expr

def Function.parts (f : Function) : List Expr :=
  f.body.parts ++ f.blocks.flatMap fun b => b.statements.flatMap Expr.parts

theorem Function.mem_parts {f : Function} {part : Expr} : part ∈ f.parts ↔
    part ∈ f.body.parts ∨
      ∃ (id : Nat) (b : Block) (e : Expr),
        f.blocks[id]? = some b ∧ e ∈ b.statements ∧ part ∈ e.parts := by
  simp only [Function.parts, List.mem_append, List.mem_flatMap]
  constructor
  · rintro (hbody | ⟨b, hb, e, he, hp⟩)
    · exact .inl hbody
    · obtain ⟨id, hid⟩ := List.mem_iff_getElem?.1 hb
      exact .inr ⟨id, b, e, hid, he, hp⟩
  · rintro (hbody | ⟨id, b, e, hid, he, hp⟩)
    · exact .inl hbody
    · exact .inr ⟨b, List.mem_of_getElem? hid, e, he, hp⟩

theorem Function.WellFormed.part {declares : String → Signature → Prop} {f : Function} {part : Expr}
    (h : f.WellFormed declares) (hp : part ∈ f.parts) :
    part = f.body ∨ ∃ id, part.WellFormed (f.surroundings declares) id := by
  rcases Function.mem_parts.1 hp with hbody | ⟨id, b, e, hid, he, hp⟩
  · obtain ⟨b, -, -, -, heq⟩ := h.root
    rw [heq] at hbody ⊢
    exact .inl (by simpa [Expr.parts] using hbody)
  · exact .inr ⟨id, (h.statements id b hid e he).2.part hp⟩

end ScalarJit
