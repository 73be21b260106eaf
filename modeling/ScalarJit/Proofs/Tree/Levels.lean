import ScalarJit.Proofs.Tree.Traversal

/-! # Heights of trees

The height of a tree, with the statements of a block under each place that names it, has two sources.
Operands stand inside operands, and between two such levels operators, statements and branches follow
each other in chains. A bound on both is a bound on the height. -/

namespace ScalarJit
namespace Expr

/-- A tree has so many levels at most. The statements of a block are under the expression that names
it. -/
inductive HeightAtMost (blocks : List Block) : Nat → Expr → Prop
  | node {n : Nat} {e : Expr} (he : e.named = [])
      (h : ∀ c ∈ e.children, HeightAtMost blocks n c) : HeightAtMost blocks (n + 1) e
  | block {n : Nat} {id : BlockId} {ty : Ty}
      (h : ∀ b, blocks[id]? = some b → ∀ e ∈ b.statements, HeightAtMost blocks n e) :
      HeightAtMost blocks (n + 1) (.block id ty)

/-- How many operators, statements and branches follow each other from an expression down, up to the
next operand. -/
def joints : Expr → Nat
  | .binary _ lhs rhs => max lhs.joints rhs.joints + 1
  | .write _ _ value => value.joints + 1
  | .bind _ _ value => value.joints + 1
  | .leave => 1
  | .leaveWith value => value.joints + 1
  | .ifThen _ onTrue => onTrue.joints + 1
  | .ifThenElse _ onTrue onFalse => max onTrue.joints onFalse.joints + 1
  | .literal _ | .read .. | .unary .. | .call .. | .block .. => 0

mutual

/-- How often an operand stands inside an operand, when `room` says it of the statements of each
block. -/
def nesting (room : BlockId → Nat) : Expr → Nat
  | .literal _ => 1
  | .read .. => 1
  | .unary _ operand => operand.nesting room + 1
  | .call _ args _ => nestingAll room args + 1
  | .block id _ => room id + 1
  | .ifThen condition onTrue => max (condition.nesting room + 1) (onTrue.nesting room)
  | .ifThenElse condition onTrue onFalse =>
    max (condition.nesting room + 1) (max (onTrue.nesting room) (onFalse.nesting room))
  | .binary _ lhs rhs => max (lhs.nesting room) (rhs.nesting room)
  | .write _ _ value => value.nesting room
  | .bind _ _ value => value.nesting room
  | .leave => 0
  | .leaveWith value => value.nesting room

def nestingAll (room : BlockId → Nat) : List Expr → Nat
  | [] => 0
  | e :: rest => max (e.nesting room) (nestingAll room rest)

end

theorem nestingAll_le_iff {n : Nat} {room : BlockId → Nat} {args : List Expr} :
    nestingAll room args ≤ n ↔ ∀ arg ∈ args, arg.nesting room ≤ n := by
  induction args with
  | nil => simp [nestingAll]
  | cons e rest ih => rw [nestingAll, Nat.max_le, ih, List.forall_mem_cons]

/-- What stands right inside an expression nests less, or as much at most and has fewer joints. -/
theorem nesting_or_joints_lt {e c : Expr} (h : c ∈ e.children) (room : BlockId → Nat) :
    c.nesting room < e.nesting room ∨ c.nesting room ≤ e.nesting room ∧ c.joints < e.joints := by
  cases e with
  | literal | read | leave | block => cases h
  | call callee args ty =>
    have hle := nestingAll_le_iff.1 (Nat.le_refl (nestingAll room args)) c h
    rw [nesting]
    omega
  | unary op operand =>
    cases List.mem_singleton.1 h
    rw [nesting]
    omega
  | write name var value | bind name var value | leaveWith value =>
    cases List.mem_singleton.1 h
    rw [nesting, joints]
    omega
  | binary op lhs rhs =>
    simp only [children, List.mem_cons, List.not_mem_nil, or_false] at h
    rw [nesting, joints]
    rcases h with rfl | rfl <;> omega
  | ifThen condition onTrue =>
    simp only [children, List.mem_cons, List.not_mem_nil, or_false] at h
    rw [nesting, joints]
    rcases h with rfl | rfl <;> omega
  | ifThenElse condition onTrue onFalse =>
    simp only [children, List.mem_cons, List.not_mem_nil, or_false] at h
    rw [nesting, joints]
    rcases h with rfl | rfl | rfl <;> omega

theorem nesting_le_of_mem_children {e c : Expr} (h : c ∈ e.children) (room : BlockId → Nat) :
    c.nesting room ≤ e.nesting room := by
  have hlt := nesting_or_joints_lt h room
  omega

/-! ### Expressions from the inside out -/

theorem sizeOf_lt_of_mem_children {e c : Expr} (h : c ∈ e.children) : sizeOf c < sizeOf e := by
  cases e with
  | literal | read | leave | block => cases h
  | call callee args ty =>
    have hlt := List.sizeOf_lt_of_mem (show c ∈ args from h)
    simp only [call.sizeOf_spec]
    omega
  | unary | write | bind | leaveWith | binary | ifThen | ifThenElse =>
    simp only [children, List.mem_cons, List.not_mem_nil, or_false] at h
    grind

@[elab_as_elim]
theorem children_induction {motive : Expr → Prop}
    (step : ∀ e : Expr, (∀ c ∈ e.children, motive c) → motive e) (e : Expr) : motive e :=
  step e fun c _ => children_induction step c
termination_by sizeOf e
decreasing_by exact sizeOf_lt_of_mem_children ‹_›

theorem mem_parts_iff_children {e part : Expr} :
    part ∈ e.parts ↔ part = e ∨ ∃ c ∈ e.children, part ∈ c.parts := by
  rw [parts_eq_children, List.mem_cons, List.mem_flatMap]

theorem mem_parts_trans {e middle part : Expr} (h : middle ∈ e.parts) (hpart : part ∈ middle.parts) :
    part ∈ e.parts := by
  induction e using children_induction with
  | step e ih =>
    rcases mem_parts_iff_children.1 h with rfl | ⟨c, hc, hmiddle⟩
    · exact hpart
    · exact mem_parts_iff_children.2 (.inr ⟨c, hc, ih c hc hmiddle⟩)

theorem nesting_le_of_mem_parts {e part : Expr} (h : part ∈ e.parts) (room : BlockId → Nat) :
    part.nesting room ≤ e.nesting room := by
  induction e using children_induction with
  | step e ih =>
    rcases mem_parts_iff_children.1 h with rfl | ⟨c, hc, hpart⟩
    · exact Nat.le_refl _
    · exact Nat.le_trans (ih c hc hpart) (nesting_le_of_mem_children hc room)

theorem nesting_mono {room smaller : BlockId → Nat} (hle : ∀ id, smaller id ≤ room id) (e : Expr) :
    e.nesting smaller ≤ e.nesting room := by
  induction e using children_induction with
  | step e ih =>
    cases e with
    | literal | read | leave => exact Nat.le_refl _
    | block id ty => exact Nat.succ_le_succ (hle id)
    | call callee args ty =>
      apply Nat.succ_le_succ
      apply nestingAll_le_iff.2
      intro arg harg
      exact Nat.le_trans (ih arg harg) (nestingAll_le_iff.1 (Nat.le_refl _) arg harg)
    | unary | write | bind | leaveWith | binary | ifThen | ifThenElse =>
      simp only [children, List.forall_mem_cons] at ih
      simp only [nesting]
      omega

/-! ### Both bounds together -/

theorem nesting_add_joints_pos (e : Expr) (room : BlockId → Nat) : 0 < e.nesting room + e.joints := by
  cases e <;> simp only [nesting, joints] <;> omega

/-- A step down uses up nesting, or one of the joints that a level has. -/
theorem height_bound_lt {e c : Expr} {k : Nat} (h : c ∈ e.children) (room : BlockId → Nat)
    (hk : c.joints ≤ k) :
    c.nesting room * (k + 1) + c.joints < e.nesting room * (k + 1) + e.joints := by
  rcases nesting_or_joints_lt h room with hlt | ⟨hle, hlt⟩
  · have hmul := Nat.mul_le_mul_right (k + 1) (Nat.succ_le_of_lt hlt)
    rw [Nat.succ_mul] at hmul
    omega
  · have hmul := Nat.mul_le_mul_right (k + 1) hle
    omega

theorem heightAtMost_of_nesting {blocks : List Block} {room : BlockId → Nat} {k : Nat}
    (hblocks : ∀ (i : Nat) (b : Block), blocks[i]? = some b → ∀ e ∈ b.statements,
      e.nesting room ≤ room i ∧ ∀ part ∈ e.parts, part.joints ≤ k)
    (n : Nat) (e : Expr) (hjoints : ∀ part ∈ e.parts, part.joints ≤ k)
    (hn : e.nesting room * (k + 1) + e.joints ≤ n) : e.HeightAtMost blocks n := by
  induction n generalizing e with
  | zero =>
    have hpos := nesting_add_joints_pos e room
    have hle : e.nesting room ≤ e.nesting room * (k + 1) :=
      Nat.le_mul_of_pos_right _ (Nat.succ_pos k)
    omega
  | succ n ih =>
    cases hnamed : e.named with
    | nil =>
      refine .node hnamed fun c hc => ?_
      have hparts : ∀ part ∈ c.parts, part.joints ≤ k :=
        fun part hpart => hjoints part (mem_parts_iff_children.2 (.inr ⟨c, hc, hpart⟩))
      have hlt := height_bound_lt hc room (hparts c (self_mem_parts c))
      exact ih c hparts (by omega)
    | cons id rest =>
      obtain ⟨ty, rfl⟩ := eq_block_of_named (hnamed ▸ List.mem_cons_self)
      refine .block fun b hb s hs => ?_
      obtain ⟨hle, hparts⟩ := hblocks id b hb s hs
      have hs := hparts s (self_mem_parts s)
      have hmul := Nat.mul_le_mul_right (k + 1) hle
      rw [nesting, joints, Nat.succ_mul] at hn
      exact ih s hparts (by omega)

theorem HeightAtMost.joints_le {blocks : List Block} {n : Nat} {e : Expr}
    (h : e.HeightAtMost blocks n) : e.joints ≤ n := by
  induction h with
  | block _ _ => exact Nat.zero_le _
  | @node n e _ _ ih =>
    cases e with
    | literal | read | unary | call | block => exact Nat.zero_le _
    | leave => exact Nat.succ_le_succ (Nat.zero_le n)
    | write | bind | leaveWith | binary | ifThen | ifThenElse =>
      simp only [children, List.forall_mem_cons] at ih
      simp only [joints]
      omega

end Expr

namespace Function

/-- In a function operands stand inside each other so often at most, those of the body once more. -/
def NestsWithin (f : Function) (limit : Nat) : Prop :=
  ∃ room : BlockId → Nat, (∀ i, room i ≤ limit) ∧ f.body.nesting room ≤ limit + 1 ∧
    ∀ (i : Nat) (b : Block), f.blocks[i]? = some b → ∀ e ∈ b.statements, e.nesting room ≤ room i

/-- With a bound on the joints, a bound on the nesting is one on the height. -/
theorem NestsWithin.heightAtMost {f : Function} {limit k : Nat} (h : f.NestsWithin limit)
    (hjoints : ∀ e ∈ f.parts, e.joints ≤ k) :
    ∀ e ∈ f.parts, e.HeightAtMost f.blocks ((limit + 1) * (k + 1) + k) := by
  obtain ⟨room, hlimit, hbody, hblocks⟩ := h
  have hnesting : ∀ e ∈ f.parts, e.nesting room ≤ limit + 1 := by
    intro e he
    rcases Function.mem_parts.1 he with hpart | ⟨i, b, s, hb, hs, hpart⟩
    · exact Nat.le_trans (Expr.nesting_le_of_mem_parts hpart room) hbody
    · have hle := Expr.nesting_le_of_mem_parts hpart room
      have hle' := hblocks i b hb s hs
      have hroom := hlimit i
      omega
  have hparts : ∀ e ∈ f.parts, ∀ part ∈ e.parts, part.joints ≤ k := by
    intro e he part hpart
    apply hjoints part
    rcases Function.mem_parts.1 he with hin | ⟨i, b, s, hb, hs, hin⟩
    · exact Function.mem_parts.2 (.inl (Expr.mem_parts_trans hin hpart))
    · exact Function.mem_parts.2 (.inr ⟨i, b, s, hb, hs, Expr.mem_parts_trans hin hpart⟩)
  intro e he
  have hmul := Nat.mul_le_mul_right (k + 1) (hnesting e he)
  have hk := hjoints e he
  refine Expr.heightAtMost_of_nesting (fun i b hb s hs => ⟨hblocks i b hb s hs, ?_⟩) _ e
    (hparts e he) (by omega)
  exact hparts s (Function.mem_parts.2 (.inr ⟨i, b, s, hb, hs, Expr.self_mem_parts s⟩))

end Function
end ScalarJit
