import ScalarJit.Proofs.Grammar.Advance
import ScalarJit.Proofs.Tree.Typing

/-! # Reading keeps the arena in order

Every reader of statements and operands advances the function that is being read, whether it succeeds
or fails, and what it answers is well-formed where it stands. -/

namespace ScalarJit.Grammar

def Reading (id : BlockId) {α : Type} (m : ParseM α) (s : State) (Q : α → State → Prop) : Prop :=
  Ends m s (fun a t => Advance id s t ∧ Q a t) (fun _ t => Advance id s t)

abbrev Fits (id : BlockId) (e : Expr) (s : State) : Prop := e.WellFormed s.surroundings id

namespace Reading

variable {id : BlockId} {α β : Type} {m : ParseM α} {s : State} {Q : α → State → Prop}

theorem bind {f : α → ParseM β} {last : β → State → Prop} (hs : s.Inside id)
    (h : Reading id m s Q)
    (next : ∀ a t, Advance id s t → t.Inside id → Q a t → Reading id (f a) t last) :
    Reading id (m >>= f) s last := by
  refine (ends_bind m f).2 (Ends.mono h ?_ fun _ _ he => he)
  rintro a t ⟨hst, hpost⟩
  refine (next a t hst (hst.inside hs) hpost).mono ?_ ?_
  · rintro b u ⟨htu, hlast⟩
    exact ⟨hst.trans hs htu, hlast⟩
  · intro _ u htu
    exact hst.trans hs htu

theorem mono {Q' : α → State → Prop} (h : Reading id m s Q)
    (imp : ∀ a t, Advance id s t → Q a t → Q' a t) : Reading id m s Q' :=
  Ends.mono h (fun a t hp => ⟨hp.1, imp a t hp.1 hp.2⟩) fun _ _ he => he

theorem map {f : α → β} {Q : β → State → Prop} (h : Reading id m s fun a t => Q (f a) t) :
    Reading id (f <$> m) s Q :=
  (ends_map f m).2 h

theorem pure {a : α} (h : Q a s) : Reading id (pure a : ParseM α) s Q :=
  (ends_pure a).2 ⟨.refl id s, h⟩

theorem get {Q : State → State → Prop} (h : Q s s) : Reading id (get : ParseM State) s Q :=
  ends_get.2 ⟨.refl id s, h⟩

theorem token : Reading id token s fun _ _ => True := ends_token.2 ⟨.refl id s, trivial⟩

theorem kind : Reading id kind s fun _ _ => True := ends_kind.2 ⟨.refl id s, trivial⟩

theorem operator? : Reading id operator? s fun _ _ => True :=
  ends_operator?.2 ⟨.refl id s, trivial⟩

theorem bump : Reading id bump s fun _ _ => True := ends_bump.2 ⟨advance_bump id s, trivial⟩

theorem openBracket : Reading id openBracket s fun _ _ => True :=
  ends_openBracket.2 ⟨advance_bump_brackets id s _, trivial⟩

theorem closeBracket : Reading id closeBracket s fun _ _ => True :=
  ends_closeBracket.2 ⟨advance_bump_brackets id s _, trivial⟩

theorem failAt (t : Token) (c : Complaint) : Reading id (failAt t c) s Q :=
  (ends_failAt t c).2 (.refl id s)

theorem failHere (c : Complaint) : Reading id (failHere c) s Q :=
  (ends_failHere c).2 (.refl id s)

theorem expectSymbol (symbol : Symbol) (c : Complaint) :
    Reading id (expectSymbol symbol c) s fun _ _ => True :=
  (ends_expectSymbol symbol c).2
    ⟨fun _ => ⟨advance_bump id s, trivial⟩, fun _ => .refl id s⟩

theorem identifier (c : Complaint) : Reading id (identifier c) s fun _ _ => True :=
  (ends_identifier c).2 ⟨fun _ _ => ⟨advance_bump id s, trivial⟩, fun _ => .refl id s⟩

theorem typeName : Reading id typeName s fun _ _ => True :=
  ends_typeName.2 ⟨fun _ _ _ _ => ⟨advance_bump id s, trivial⟩,
    fun _ _ _ => advance_bump id s, fun _ => .refl id s⟩

theorem typed (start : Token) {result : Except TypeFault Expr}
    (h : ∀ e, result = .ok e → Fits id e s) : Reading id (typed start result) s (Fits id) :=
  (ends_typed start result).2 ⟨fun e he => ⟨.refl id s, h e he⟩, fun _ _ => .refl id s⟩

end Reading

/-! ### Typed construction -/

section
variable {Γ : Surroundings} {id : BlockId} {e : Expr}

theorem wellFormed_of_binary {op : BinaryOp} {lhs rhs : Expr} (hl : lhs.WellFormed Γ id)
    (hr : rhs.WellFormed Γ id) (h : Typing.binary op lhs rhs = .ok e) : e.WellFormed Γ id := by
  obtain ⟨hv, hty, rfl⟩ := Typing.binary_eq_ok_iff.1 h
  exact .binary hl hr hv hty

theorem wellFormed_of_write {name : String} {var : VarRef} {ty : Ty} {mutable : Bool} {value : Expr}
    (hl : (Expr.read name var ty mutable).WellFormed Γ id) (hw : value.WellFormed Γ id)
    (h : Typing.write name var ty mutable value = .ok e) : e.WellFormed Γ id := by
  obtain ⟨hm, hty, rfl⟩ := Typing.write_eq_ok_iff.1 h
  cases hl with
  | read hd hn he => exact .write hd hn he hm hty hw

theorem wellFormed_of_leave {value : Option Expr} (hw : ∀ v, value = some v → v.WellFormed Γ id)
    (h : Typing.leave value Γ.result = .ok e) : e.WellFormed Γ id := by
  cases value with
  | none =>
    obtain ⟨hr, rfl⟩ := Typing.leave_none_eq_ok_iff.1 h
    exact .leave hr
  | some v =>
    obtain ⟨hr, rfl⟩ := Typing.leave_some_eq_ok_iff.1 h
    exact .leaveWith (hw v rfl) hr

theorem wellFormed_of_conditional {condition onTrue : Expr} {onFalse : Option Expr}
    (hc : condition.WellFormed Γ id) (ht : onTrue.WellFormed Γ id)
    (hf : ∀ f, onFalse = some f → f.WellFormed Γ id)
    (h : Typing.conditional condition onTrue onFalse = .ok e) : e.WellFormed Γ id := by
  cases onFalse with
  | none =>
    obtain ⟨hv, rfl⟩ := Typing.conditional_none_eq_ok_iff.1 h
    exact .ifThen hc ht hv
  | some f =>
    obtain ⟨hv, hty, hcat, rfl⟩ := Typing.conditional_some_eq_ok_iff.1 h
    exact .ifThenElse hc ht (hf f rfl) hv hty hcat

theorem wellFormed_of_combine {op : Operator} {lhs rhs : Expr} (hl : lhs.WellFormed Γ id)
    (hr : rhs.WellFormed Γ id) (h : op.combine lhs rhs = .ok e) : e.WellFormed Γ id := by
  cases op with
  | operation op =>
    exact wellFormed_of_binary hl hr (Operator.combine_operation_eq_ok_iff.1 h)
  | assignment compound =>
    obtain ⟨name, var, ty, mutable, rfl⟩ := Operator.exists_read_of_combine_assignment h
    cases compound with
    | none => exact wellFormed_of_write hl hr (Operator.combine_assign_eq_ok_iff.1 h)
    | some op =>
      obtain ⟨value, hv, hw⟩ := Operator.combine_compound_eq_ok_iff.1 h
      exact wellFormed_of_write hl (wellFormed_of_binary hl hr hv) hw

end
end ScalarJit.Grammar
