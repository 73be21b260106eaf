import ScalarJit.Grammar.Operator

/-! # When typed construction succeeds

For each way to build an expression, the rule that its parts have to meet and what is then built. -/

namespace ScalarJit
namespace Typing

theorem binary_eq_ok_iff {op : BinaryOp} {lhs rhs e : Expr} :
    binary op lhs rhs = .ok e ↔ lhs.ty ≠ .void ∧ lhs.ty = rhs.ty ∧ e = .binary op lhs rhs := by
  unfold binary
  split
  · next hvoid =>
    refine ⟨fun h => (by cases h), fun ⟨hl, hty, _⟩ => ?_⟩
    rcases hvoid with hv | hv
    · exact absurd hv hl
    · exact absurd (hty.trans hv) hl
  · next hvoid =>
    split
    · next hne => exact ⟨fun h => (by cases h), fun ⟨_, hty, _⟩ => absurd hty hne⟩
    · next hty =>
      constructor
      · intro h
        cases h
        exact ⟨fun hv => hvoid (.inl hv), Decidable.not_not.1 hty, rfl⟩
      · rintro ⟨-, -, rfl⟩
        rfl

theorem unary_eq_ok_iff {op : UnaryOp} {operand e : Expr} :
    unary op operand = .ok e ↔ operand.ty ≠ .void ∧ e = .unary op operand := by
  unfold unary
  split
  · next hvoid => exact ⟨fun h => (by cases h), fun ⟨hv, _⟩ => absurd hvoid hv⟩
  · next hvoid =>
    constructor
    · intro h
      cases h
      exact ⟨hvoid, rfl⟩
    · rintro ⟨-, rfl⟩
      rfl

theorem write_eq_ok_iff {name : String} {var : VarRef} {ty : Ty} {mutable : Bool} {value e : Expr} :
    write name var ty mutable value = .ok e ↔
      mutable = true ∧ value.ty = ty ∧ e = .write name var value := by
  unfold write
  split
  · next hm => exact ⟨fun h => (by cases h), fun ⟨h, _⟩ => (by simp [h] at hm)⟩
  · next hm =>
    split
    · next hty => exact ⟨fun h => (by cases h), fun ⟨_, h, _⟩ => absurd h hty⟩
    · next hty =>
      constructor
      · intro h
        cases h
        exact ⟨by simpa using hm, Decidable.not_not.1 hty, rfl⟩
      · rintro ⟨-, -, rfl⟩
        rfl

theorem checkArguments_eq_ok_iff {callee : String} {index : Nat} {declared : List (String × Ty)}
    {args : List Expr} (hlen : declared.length = args.length) :
    checkArguments callee index declared args = .ok () ↔
      declared.map (·.2) = args.map Expr.ty := by
  induction declared generalizing index args with
  | nil =>
    have hnil : args = [] := List.length_eq_zero_iff.1 hlen.symm
    rw [hnil]
    exact ⟨fun _ => rfl, fun _ => rfl⟩
  | cons d declared ih =>
    cases args with
    | nil => simp at hlen
    | cons arg args =>
      rw [checkArguments, List.map_cons, List.map_cons, List.cons.injEq]
      split
      · next hty => exact ⟨fun h => (by cases h), fun h => absurd h.1.symm hty⟩
      · next hty =>
        rw [ih (by simpa using hlen)]
        exact ⟨fun h => ⟨(Decidable.not_not.1 hty).symm, h⟩, fun h => h.2⟩

theorem call_eq_ok_iff {callee : String} {signature : Signature} {args : List Expr} {e : Expr} :
    call callee signature args = .ok e ↔
      signature.args.map (·.2) = args.map Expr.ty ∧ e = .call callee args signature.result := by
  unfold call
  split
  · next hlen =>
    refine ⟨fun h => (by cases h), fun ⟨hty, _⟩ => ?_⟩
    have hlength := congrArg List.length hty
    rw [List.length_map, List.length_map] at hlength
    exact absurd hlength hlen
  · next hlen =>
    have hcheck : checkArguments callee 0 signature.args args = .ok () ↔ _ :=
      checkArguments_eq_ok_iff (Decidable.not_not.1 hlen)
    rw [← hcheck]
    cases hc : checkArguments callee 0 signature.args args with
    | error fault => exact ⟨fun h => (by cases h), fun h => (by cases h.1)⟩
    | ok _ =>
      constructor
      · intro h
        cases h
        exact ⟨rfl, rfl⟩
      · rintro ⟨-, rfl⟩
        rfl

theorem leave_none_eq_ok_iff {expected : Ty} {e : Expr} :
    leave none expected = .ok e ↔ expected = .void ∧ e = .leave := by
  simp only [leave]
  split
  · next hr => exact ⟨fun h => (by cases h), fun ⟨h, _⟩ => absurd h hr⟩
  · next hr =>
    constructor
    · intro h
      cases h
      exact ⟨Decidable.not_not.1 hr, rfl⟩
    · rintro ⟨-, rfl⟩
      rfl

theorem leave_some_eq_ok_iff {value : Expr} {expected : Ty} {e : Expr} :
    leave (some value) expected = .ok e ↔ value.ty = expected ∧ e = .leaveWith value := by
  simp only [leave]
  split
  · next hr => exact ⟨fun h => (by cases h), fun ⟨h, _⟩ => absurd h hr⟩
  · next hr =>
    constructor
    · intro h
      cases h
      exact ⟨Decidable.not_not.1 hr, rfl⟩
    · rintro ⟨-, rfl⟩
      rfl

theorem conditional_none_eq_ok_iff {condition onTrue e : Expr} :
    conditional condition onTrue none = .ok e ↔
      condition.ty ≠ .void ∧ e = .ifThen condition onTrue := by
  simp only [conditional]
  split
  · next hvoid => exact ⟨fun h => (by cases h), fun ⟨h, _⟩ => absurd hvoid h⟩
  · next hvoid =>
    constructor
    · intro h
      cases h
      exact ⟨hvoid, rfl⟩
    · rintro ⟨-, rfl⟩
      rfl

theorem conditional_some_eq_ok_iff {condition onTrue onFalse e : Expr} :
    conditional condition onTrue (some onFalse) = .ok e ↔
      condition.ty ≠ .void ∧ onFalse.ty = onTrue.ty ∧ onFalse.category = onTrue.category ∧
        e = .ifThenElse condition onTrue onFalse := by
  simp only [conditional]
  split
  · next hvoid => exact ⟨fun h => (by cases h), fun ⟨h, _⟩ => absurd hvoid h⟩
  · next hvoid =>
    split
    · next hne =>
      refine ⟨fun h => (by cases h), fun ⟨_, hty, hcat, _⟩ => ?_⟩
      rcases hne with hne | hne
      · exact absurd hty hne
      · exact absurd hcat hne
    · next hsame =>
      obtain ⟨hty, hcat⟩ := not_or.1 hsame
      constructor
      · intro h
        cases h
        exact ⟨hvoid, Decidable.not_not.1 hty, Decidable.not_not.1 hcat, rfl⟩
      · rintro ⟨-, -, -, rfl⟩
        rfl

end Typing

namespace Grammar.Operator

theorem mapError_eq_ok_iff {ε ε' α : Type} {f : ε → ε'} {r : Except ε α} {a : α} :
    r.mapError f = .ok a ↔ r = .ok a := by
  constructor
  · intro h
    cases r with
    | error fault => cases h
    | ok value =>
      cases h
      rfl
  · intro h
    rw [h]
    rfl

theorem combine_operation_eq_ok_iff {op : BinaryOp} {lhs rhs e : Expr} :
    (operation op).combine lhs rhs = .ok e ↔ Typing.binary op lhs rhs = .ok e :=
  mapError_eq_ok_iff

theorem exists_read_of_combine_assignment {compound : Option BinaryOp} {lhs rhs e : Expr}
    (h : (assignment compound).combine lhs rhs = .ok e) :
    ∃ name var ty mutable, lhs = .read name var ty mutable := by
  cases lhs with
  | read name var ty mutable => exact ⟨name, var, ty, mutable, rfl⟩
  | _ => cases h

theorem combine_assign_eq_ok_iff {name : String} {var : VarRef} {ty : Ty} {mutable : Bool}
    {rhs e : Expr} :
    (assignment none).combine (.read name var ty mutable) rhs = .ok e ↔
      Typing.write name var ty mutable rhs = .ok e :=
  mapError_eq_ok_iff

theorem combine_compound_eq_ok_iff {op : BinaryOp} {name : String} {var : VarRef} {ty : Ty}
    {mutable : Bool} {rhs e : Expr} :
    (assignment (some op)).combine (.read name var ty mutable) rhs = .ok e ↔
      ∃ value, Typing.binary op (.read name var ty mutable) rhs = .ok value ∧
        Typing.write name var ty mutable value = .ok e := by
  show ((Typing.binary op (.read name var ty mutable) rhs).mapError Complaint.typing >>= fun value =>
    (Typing.write name var ty mutable value).mapError Complaint.typing) = .ok e ↔ _
  cases hb : Typing.binary op (.read name var ty mutable) rhs with
  | error fault => exact ⟨fun h => (by cases h), fun ⟨_, h, _⟩ => (by cases h)⟩
  | ok value =>
    show (Typing.write name var ty mutable value).mapError _ = .ok e ↔ _
    rw [mapError_eq_ok_iff]
    constructor
    · intro h
      exact ⟨value, rfl, h⟩
    · rintro ⟨value', hv, h⟩
      cases hv
      exact h

end Grammar.Operator
end ScalarJit
