import ScalarJit.Proofs.Tree.WellFormed

/-! # Needs for registers

How many registers an expression needs is known from its tree: its operands wait in registers while
others are evaluated, and some steps take one more for a moment. -/

namespace ScalarJit
namespace Codegen

mutual

def need (blocks : BlockId → Nat) : Expr → Nat
  | .literal _ => 1
  | .read .. => 1
  | .write _ _ value => need blocks value
  | .bind _ _ value => need blocks value
  | .binary _ lhs rhs => max (need blocks lhs) (1 + need blocks rhs)
  | .unary .plus operand => need blocks operand
  | .unary .minus operand => max (need blocks operand) 2
  | .call _ args ty => max (argumentsNeed blocks 0 args) (!ty.isVoid).toNat
  | .leave => 0
  | .leaveWith value => need blocks value
  | .ifThen condition onTrue =>
    max (max (need blocks condition) 2) (max (need blocks onTrue) onTrue.hasValue.toNat)
  | .ifThenElse condition onTrue onFalse =>
    max (max (need blocks condition) 2) (max (need blocks onTrue) (need blocks onFalse))
  | .block id _ => blocks id

/-- Arguments wait for those behind them, `index` of them for the first one here. -/
def argumentsNeed (blocks : BlockId → Nat) (index : Nat) : List Expr → Nat
  | [] => 0
  | e :: rest => max (index + need blocks e) (argumentsNeed blocks (index + 1) rest)

end

def statementsNeed (blocks : BlockId → Nat) : List Expr → Nat
  | [] => 0
  | e :: rest => max (need blocks e) (statementsNeed blocks rest)

def blockNeed (f : Function) : Nat → BlockId → Nat
  | 0, _ => 0
  | depth + 1, id =>
    match f.blocks[id]? with
    | some b => statementsNeed (blockNeed f depth) b.statements
    | none => 0

end Codegen

def Function.blockNeed (f : Function) : BlockId → Nat := Codegen.blockNeed f f.blocks.length

def Function.need (f : Function) : Nat := Codegen.need f.blockNeed f.body

namespace Codegen

theorem need_le_argumentsNeed (blocks : BlockId → Nat) {args : List Expr} {arg : Expr} {place : Nat}
    (index : Nat) (h : args[place]? = some arg) :
    index + place + need blocks arg ≤ argumentsNeed blocks index args := by
  induction args generalizing index place with
  | nil => cases h
  | cons e rest ih =>
    rw [argumentsNeed]
    cases place with
    | zero =>
      cases h
      exact Nat.le_max_left ..
    | succ place =>
      have hrest := ih (index + 1) h
      omega

theorem need_le_statementsNeed (blocks : BlockId → Nat) {list : List Expr} {e : Expr} (h : e ∈ list) :
    need blocks e ≤ statementsNeed blocks list := by
  induction h with
  | head _ =>
    rw [statementsNeed]
    exact Nat.le_max_left ..
  | tail _ _ ih =>
    rw [statementsNeed]
    exact Nat.le_trans ih (Nat.le_max_right ..)

/-! ### Blocks need what their statements need -/

section
variable {f : Function} {declares : String → Signature → Prop}

theorem argumentsNeed_congr {needs needs' : BlockId → Nat} (index : Nat) (list : List Expr)
    (h : ∀ e ∈ list, need needs e = need needs' e) :
    argumentsNeed needs index list = argumentsNeed needs' index list := by
  induction list generalizing index with
  | nil => rfl
  | cons e rest ih =>
    rw [argumentsNeed, argumentsNeed, h e (.head _), ih (index + 1) fun e he => h e (.tail _ he)]

theorem need_congr {Γ : Surroundings} {here : Nat} {e : Expr} {needs needs' : BlockId → Nat}
    (h : ∀ id : Nat, here < id → needs id = needs' id) (he : e.WellFormed Γ here) :
    need needs e = need needs' e := by
  induction he with
  | literal _ => rw [need, need]
  | read _ _ _ => rw [need, need]
  | binary _ _ _ _ ihl ihr => rw [need, need, ihl, ihr]
  | @unary op _ _ _ ih =>
    cases op with
    | plus => rw [need, need, ih]
    | minus => rw [need, need, ih]
  | write _ _ _ _ _ _ ih | bind _ _ _ _ _ _ ih => rw [need, need, ih]
  | @call _ args _ _ _ _ ih =>
    rw [need, need, argumentsNeed_congr 0 args ih]
  | leave _ => rw [need, need]
  | leaveWith _ _ ih => rw [need, need, ih]
  | ifThen _ _ _ ihc iht => rw [need, need, ihc, iht]
  | ifThenElse _ _ _ _ _ _ ihc iht ihf => rw [need, need, ihc, iht, ihf]
  | block _ _ hlt =>
    rw [need, need]
    exact h _ hlt

theorem statementsNeed_congr {needs needs' : BlockId → Nat} (list : List Expr)
    (h : ∀ e ∈ list, need needs e = need needs' e) :
    statementsNeed needs list = statementsNeed needs' list := by
  induction list with
  | nil => rfl
  | cons e rest ih =>
    rw [statementsNeed, statementsNeed, h e (.head _), ih fun e he => h e (.tail _ he)]

/-- Blocks nest no deeper than there are blocks behind them. -/
theorem blockNeed_eq (hf : f.WellFormed declares) {depth depth' id : Nat}
    (h : f.blocks.length ≤ id + depth) (h' : f.blocks.length ≤ id + depth') :
    blockNeed f depth id = blockNeed f depth' id := by
  have hnone : ∀ (depth id : Nat), f.blocks.length ≤ id → blockNeed f depth id = 0 := by
    intro depth id hle
    cases depth with
    | zero => rfl
    | succ depth => rw [blockNeed, List.getElem?_eq_none hle]
  induction depth generalizing depth' id with
  | zero => rw [hnone _ id h, hnone _ id h]
  | succ depth ih =>
    cases depth' with
    | zero => rw [hnone _ id h', hnone _ id h']
    | succ depth' =>
      rw [blockNeed, blockNeed]
      split
      · next b hb =>
        apply statementsNeed_congr
        intro e he
        refine need_congr (fun inner hlt => ?_) (hf.statements id b hb e he).2
        exact ih (by omega) (by omega)
      · rfl

end
end Codegen

theorem Function.blockNeed_eq {f : Function} {declares : String → Signature → Prop}
    (hf : f.WellFormed declares) {id : Nat} {b : Block} (hb : f.blocks[id]? = some b) :
    f.blockNeed id = Codegen.statementsNeed f.blockNeed b.statements := by
  have hid : id < f.blocks.length := (List.getElem?_eq_some_iff.1 hb).1
  obtain ⟨depth, hdepth⟩ : ∃ depth, f.blocks.length = depth + 1 := ⟨f.blocks.length - 1, by omega⟩
  rw [Function.blockNeed, hdepth, Codegen.blockNeed, hb]
  apply Codegen.statementsNeed_congr
  intro e he
  refine Codegen.need_congr (fun inner hlt => ?_) (hf.statements id b hb e he).2
  exact Codegen.blockNeed_eq hf (by omega) (by omega)

end ScalarJit
