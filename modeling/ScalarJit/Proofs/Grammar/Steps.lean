import ScalarJit.Grammar.Declaration
import ScalarJit.Proofs.Outcome

/-! # Steps of reading

How each of the small steps of reading ends. What is read further up is put together from these. -/

namespace ScalarJit.Grammar

@[simp]
theorem State.token_descend (s : State) : s.descend.token = s.token := rfl

@[simp]
theorem State.bump_descend (s : State) : s.descend.bump = s.bump.descend := rfl

variable {s : State} {err : Problem → State → Prop}

@[simp]
theorem ends_token {ok : Token → State → Prop} : Ends token s ok err ↔ ok s.token s := Iff.rfl

@[simp]
theorem ends_kind {ok : TokenKind → State → Prop} : Ends kind s ok err ↔ ok s.token.kind s := Iff.rfl

@[simp]
theorem ends_operator? {ok : Option Operator → State → Prop} :
    Ends operator? s ok err ↔ ok (Operator.ofToken? s.token.kind) s := Iff.rfl

@[simp]
theorem ends_bump {ok : Unit → State → Prop} : Ends bump s ok err ↔ ok () s.bump := Iff.rfl

@[simp]
theorem ends_openBracket {ok : Unit → State → Prop} :
    Ends openBracket s ok err ↔ ok () { s with brackets := s.brackets + 1 }.bump := Iff.rfl

@[simp]
theorem ends_closeBracket {ok : Unit → State → Prop} :
    Ends closeBracket s ok err ↔ ok () { s with brackets := s.brackets - 1 }.bump := Iff.rfl

@[simp]
theorem ends_failAt {α : Type} {ok : α → State → Prop} (t : Token) (c : Complaint) :
    Ends (failAt t c) s ok err ↔ err ⟨c, t.position⟩ s := Iff.rfl

@[simp]
theorem ends_failHere {α : Type} {ok : α → State → Prop} (c : Complaint) :
    Ends (failHere c) s ok err ↔ err ⟨c, s.token.position⟩ s := Iff.rfl

theorem ends_expectSymbol {ok : Unit → State → Prop} (symbol : Symbol) (c : Complaint) :
    Ends (expectSymbol symbol c) s ok err ↔
      (s.token.kind = .symbol symbol → ok () s.bump) ∧
        (s.token.kind ≠ .symbol symbol → err ⟨c, s.token.position⟩ s) := by
  simp only [expectSymbol, ends_bind, ends_kind]
  by_cases hk : s.token.kind = .symbol symbol <;> simp [hk]

theorem ends_identifier {ok : String → State → Prop} (c : Complaint) :
    Ends (identifier c) s ok err ↔
      (∀ name, s.token.kind = .identifier name → ok name s.bump) ∧
        ((∀ name, s.token.kind ≠ .identifier name) → err ⟨c, s.token.position⟩ s) := by
  simp only [identifier, ends_bind, ends_kind]
  cases hk : s.token.kind <;> simp

theorem ends_typeName {ok : Ty → State → Prop} :
    Ends typeName s ok err ↔
      (∀ name, s.token.kind = .identifier name → ∀ ty, Ty.ofName? name = some ty → ok ty s.bump) ∧
        (∀ name, s.token.kind = .identifier name → Ty.ofName? name = none →
          err ⟨.unknownType name, s.token.position⟩ s.bump) ∧
        ((∀ name, s.token.kind ≠ .identifier name) →
          err ⟨.expectedTypeName, s.token.position⟩ s) := by
  simp only [typeName, ends_bind, ends_token, ends_identifier]
  cases hk : s.token.kind with
  | identifier name => cases ht : Ty.ofName? name <;> simp [ht]
  | _ => simp

theorem ends_typed {ok : Expr → State → Prop} (start : Token) (result : Except TypeFault Expr) :
    Ends (typed start result) s ok err ↔
      (∀ e, result = .ok e → ok e s) ∧
        (∀ fault, result = .error fault → err ⟨.typing fault, start.position⟩ s) := by
  cases result <;> simp [typed]

theorem ends_combineAt {ok : Expr → State → Prop} (start : Token) (op : Operator) (lhs rhs : Expr) :
    Ends (combineAt start op lhs rhs) s ok err ↔
      (∀ e, op.combine lhs rhs = .ok e → ok e s) ∧
        (∀ c, op.combine lhs rhs = .error c → err ⟨c, start.position⟩ s) := by
  cases hc : op.combine lhs rhs <;> simp [combineAt, hc]

def bindValue (operand : ParseM Expr) (mutable : Bool) (start : Token) (name : String)
    (given : Option Ty) : ParseM Expr := do
  expectSymbol .assign .expectedInitialValue
  let value ← expression operand
  if value.ty = .void then failAt start (.boundToNothing name)
  match given with
  | some ty =>
    if ty ≠ value.ty then failAt start (.annotationMismatch name ty value.ty)
  | none => pure ()
  let var ← modifyGet fun s => s.declare name value.ty mutable
  return .bind name var value

def finishCall (callee : String) (start : Token) (args : List Expr) : ParseM Expr := do
  closeBracket
  match (← get).signature? callee with
  | some signature => typed start (Typing.call callee signature args)
  | none => failAt start (.undefinedFunction callee)

theorem ends_nested {operand : ParseM Expr} {ok : Expr → State → Prop} :
    Ends (nested operand) s ok err ↔
      (nestingLimit ≤ s.nesting → err ⟨.nestedTooDeeply, s.token.position⟩ s) ∧
        (s.nesting < nestingLimit →
          Ends operand s.descend (fun e t => ok e t.ascend) fun p t => err p t.ascend) := by
  by_cases hfull : nestingLimit ≤ s.nesting
  · have hfails : nested operand s = .error ⟨.nestedTooDeeply, s.token.position⟩ s := if_pos hfull
    have hroom : ¬ s.nesting < nestingLimit := by omega
    simp [Ends, hfails, hfull, hroom]
  · have hroom : s.nesting < nestingLimit := by omega
    cases hrun : operand s.descend <;> simp [Ends, nested, hfull, hroom, hrun]

theorem nested_of_ok {operand : ParseM Expr} {e : Expr} {t : State} (hroom : s.nesting < nestingLimit)
    (hrun : operand s.descend = .ok e t) : nested operand s = .ok e t.ascend := by
  rw [nested, if_neg (Nat.not_le.2 hroom), hrun]

theorem nested_of_error {operand : ParseM Expr} {p : Problem} {t : State}
    (hroom : s.nesting < nestingLimit) (hrun : operand s.descend = .error p t) :
    nested operand s = .error p t.ascend := by
  rw [nested, if_neg (Nat.not_le.2 hroom), hrun]

theorem ends_block {operand : ParseM Expr} {ok : Expr → State → Prop} :
    Ends (block operand) s ok err ↔
      ok (blockBody operand s.openBlock.1 s.openBlock.2).1
        (blockBody operand s.openBlock.1 s.openBlock.2).2 := Iff.rfl

end ScalarJit.Grammar
