import ScalarJit.Proofs.Language.Rules

/-! # Reading without complaint

Errors are only ever added, so a reader that ends with as many as it started with has had none on its
way. `Quiet` follows such readers. -/

namespace ScalarJit.Grammar

/-! ### Errors -/

theorem State.errors_add (s : State) (more : List Diagnostic) :
    ({ s with diagnostics := s.diagnostics ++ more.toArray } : State).errors =
      s.errors + Diagnostic.errorCount more := by
  simp [State.errors, Diagnostic.errorCount]

theorem State.errors_report (s : State) (p : Problem) : s.errors < (s.report p).errors := by
  have hone : 0 < Diagnostic.errorCount (p.diagnostics s.source) := by
    rw [Problem.diagnostics, Diagnostic.errorCount, List.countP_cons_of_pos (by rfl)]
    exact Nat.succ_pos _
  have hadd := s.errors_add (p.diagnostics s.source)
  rw [State.report, hadd]
  omega

theorem State.errors_bump (s : State) : s.errors ≤ s.bump.errors := by
  have hadd := s.errors_add ((s.lexer.next (s.brackets == 0)).faults.map (·.diagnostic s.source))
  have hbump : s.bump.errors = ({ s with diagnostics := s.diagnostics ++
    ((s.lexer.next (s.brackets == 0)).faults.map (·.diagnostic s.source)).toArray } : State).errors :=
      rfl
  omega

def Louder (s t : State) : Prop := s.errors ≤ t.errors

theorem motion_louder : Motion Louder where
  refl s := Nat.le_refl s.errors
  trans h h' := Nat.le_trans h h'
  bump s := s.errors_bump
  brackets s _ := Nat.le_refl s.errors
  inside h := h
  report s p := Nat.le_of_lt (s.errors_report p)
  openBlock s := Nat.le_refl s.errors
  addStatement s _ _ := Nat.le_refl s.errors
  closeBlock s _ := Nat.le_refl s.errors
  use s _ := Nat.le_refl s.errors
  declare {s u v _ _ _ _} _ _ h _ h' := by
    have hname := Nat.le_trans s.errors_bump s.bump.errors_bump
    have hvalue := Nat.le_trans u.errors_bump h'
    exact Nat.le_trans hname (Nat.le_trans h hvalue)

section
variable {α β : Type} {s : State} {n : Nat}

def Calm (m : ParseM α) : Prop := ∀ s, Keeps Louder m s

theorem calm_bind {m : ParseM α} {f : α → ParseM β} (h : Calm m) (next : ∀ a, Calm (f a)) :
    Calm (m >>= f) := fun s => .bind motion_louder (h s) fun a t _ => next a t

theorem calm_pure (a : α) : Calm (pure a : ParseM α) := fun _ => motion_louder.keeps_pure a

theorem calm_failAt (t : Token) (c : Complaint) : Calm (failAt t c : ParseM α) := fun _ =>
  motion_louder.keeps_failAt t c

theorem calm_failHere (c : Complaint) : Calm (failHere c : ParseM α) := fun _ =>
  motion_louder.keeps_failHere c

theorem calm_kind : Calm kind := fun _ => motion_louder.keeps_kind

theorem calm_get : Calm (get : ParseM State) := fun _ => motion_louder.keeps_get

theorem calm_bump : Calm bump := fun _ => motion_louder.keeps_bump

theorem calm_closeBracket : Calm closeBracket := fun _ => motion_louder.keeps_closeBracket

theorem calm_typed (start : Token) (result : Except TypeFault Expr) : Calm (typed start result) :=
  fun _ => motion_louder.keeps_typed start result

/-- If a step adds no error to the given number, then it ends as said. -/
def Quiet (n : Nat) (m : ParseM α) (s : State) (Q : α → State → Prop) : Prop :=
  Ends m s (fun a t => t.errors = n → Q a t) fun _ _ => True

theorem Quiet.mono {m : ParseM α} {Q R : α → State → Prop} (h : Quiet n m s Q)
    (imp : ∀ a t, Q a t → R a t) : Quiet n m s R :=
  Ends.mono h (fun a t hq ht => imp a t (hq ht)) fun _ _ _ => trivial

theorem Quiet.bind {m : ParseM α} {f : α → ParseM β} {Q : α → State → Prop} {R : β → State → Prop}
    (hs : s.errors = n) (hm : Calm m) (hf : ∀ a, Calm (f a)) (h : Quiet n m s Q)
    (next : ∀ a t, Q a t → Quiet n (f a) t R) : Quiet n (m >>= f) s R := by
  refine (ends_bind m f).2 ?_
  refine ((hm s).and h).mono ?_ fun _ _ _ => trivial
  rintro a t ⟨hst, hq⟩
  by_cases ht : t.errors = n
  · exact next a t (hq ht)
  · refine (hf a t).mono ?_ fun _ _ _ => trivial
    intro b u htu hu
    have hst : s.errors ≤ t.errors := hst
    have htu : t.errors ≤ u.errors := htu
    omega

theorem quiet_failAt {Q : α → State → Prop} (t : Token) (c : Complaint) :
    Quiet n (failAt t c) s Q := trivial

theorem quiet_failHere {Q : α → State → Prop} (c : Complaint) : Quiet n (failHere c) s Q := trivial

theorem quiet_nested {operand : ParseM Expr} {Q : Expr → State → Prop}
    (h : Quiet n operand s.descend fun e t => Q e t.ascend) : Quiet n (nested operand) s Q :=
  ends_nested.2 ⟨fun _ => trivial, fun _ => h⟩

end

/-! ### Operators -/

theorem Operator.precedence_le (op : Operator) : op.precedence ≤ 5 := by
  cases op with
  | assignment _ => exact Nat.le_add_left 1 4
  | operation op => cases op <;> decide

theorem Operator.groupsRight_eq {op next : Operator} (h : op.precedence = next.precedence) :
    op.groupsRight = next.groupsRight := by
  cases op with
  | assignment _ =>
    cases next with
    | assignment _ => rfl
    | operation next => cases next <;> cases h
  | operation op =>
    cases next with
    | assignment _ => cases op <;> cases h
    | operation next => cases op <;> cases next <;> first | rfl | cases h

theorem Operator.sign_of_ofToken? {k : TokenKind} {op : Operator} (h : Operator.ofToken? k = some op) :
    ∃ sign, k = .symbol sign ∧ Operator.ofSymbol? sign = some op := by
  cases k with
  | symbol sign => exact ⟨sign, rfl, h⟩
  | _ => cases h

theorem Mode.after_operator {sign : Symbol} {op : Operator} (h : Operator.ofSymbol? sign = some op)
    (m : Mode) : m.after (.symbol sign) = m := by
  cases sign <;> first | rfl | cases h

/-- An operator at a token does not bind tighter than what was read before it. -/
def Compatible (n : Nat) (k : TokenKind) : Prop :=
  ∀ op, Operator.ofToken? k = some op →
    op.precedence < n ∨ op.precedence = n ∧ op.groupsRight = false

def Below (least : Nat) (k : TokenKind) : Prop :=
  ∀ op, Operator.ofToken? k = some op → op.precedence < least

theorem below_of_no_operator {least : Nat} {k : TokenKind} (h : Operator.ofToken? k = none) :
    Below least k := by
  intro op hop
  rw [h] at hop
  cases hop

theorem below_of_lt {least : Nat} {k : TokenKind} {op : Operator} (h : Operator.ofToken? k = some op)
    (hlt : op.precedence < least) : Below least k := by
  intro op' hop
  rw [h, Option.some_inj] at hop
  rw [← hop]
  exact hlt

theorem Below.compatible {n : Nat} {k : TokenKind} (h : Below n k) : Compatible n k :=
  fun op hop => .inl (h op hop)

theorem Compatible.below_succ {n : Nat} {k : TokenKind} (h : Compatible n k) : Below (n + 1) k := by
  intro op hop
  have hop := h op hop
  omega

theorem compatible_tightest (k : TokenKind) : Compatible 6 k :=
  fun op _ => .inl (Nat.lt_succ_of_le op.precedence_le)

def Operator.tightness (op : Operator) : Nat :=
  if op.groupsRight then op.precedence else op.precedence + 1

theorem Operator.precedence_le_tightness (op : Operator) : op.precedence ≤ op.tightness := by
  rw [Operator.tightness]
  split <;> omega

theorem Operator.tightness_le_succ (op : Operator) : op.tightness ≤ op.precedence + 1 := by
  rw [Operator.tightness]
  split <;> omega

theorem Operator.tightness_le (op : Operator) : op.tightness ≤ 6 :=
  Nat.le_trans op.tightness_le_succ (Nat.succ_le_succ op.precedence_le)

theorem Derives.join {functions : List (Named Function)} {externs : List (Named Signature)} {d q : Nat}
    {op : Operator} {sign : Symbol} {lhs rhs e : Expr} {σ σ₁ σ' : Scope}
    {input mid rest : List TokenKind} (hop : Operator.ofSymbol? sign = some op)
    (hcompatible : Compatible q (.symbol sign))
    (hl : Derives functions externs d (.level q lhs) σ input σ₁ (.symbol sign :: mid))
    (hr : Derives functions externs d (.level op.tightness rhs) σ₁ mid σ' rest)
    (he : Joined op lhs rhs e) : Derives functions externs d (.level op.precedence e) σ input σ' rest := by
  have hq := hcompatible op hop
  cases hright : op.groupsRight with
  | true =>
    rw [Operator.tightness, if_pos hright] at hr
    refine .joinRight hop hright (hl.weaken ?_) hr he
    rcases hq with hlt | ⟨-, hleft⟩
    · exact hlt
    · rw [hleft] at hright
      cases hright
  | false =>
    rw [Operator.tightness, if_neg (by simp [hright])] at hr
    exact .joinLeft hop hright (hl.weaken (by omega)) hr he

end ScalarJit.Grammar
