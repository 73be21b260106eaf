import ScalarJit.Proofs.Language.Stream
import ScalarJit.Proofs.Tree.Typing

/-! # About derivations

The rules for trees are those of typed construction. What is derived starts with a token of its own
kind and uses up tokens, so that a reader knows from one token what comes, and comes to an end. -/

namespace ScalarJit.Grammar

/-! ### Trees -/

theorem joined_iff {op : Operator} {lhs rhs e : Expr} :
    op.combine lhs rhs = .ok e ↔ Joined op lhs rhs e := by
  constructor
  · intro h
    cases op with
    | operation op =>
      rw [Operator.combine_operation_eq_ok_iff, Typing.binary_eq_ok_iff] at h
      obtain ⟨hvalue, hty, rfl⟩ := h
      exact .operation hvalue hty.symm
    | assignment compound =>
      obtain ⟨name, var, ty, mutable, rfl⟩ := Operator.exists_read_of_combine_assignment h
      cases compound with
      | none =>
        rw [Operator.combine_assign_eq_ok_iff, Typing.write_eq_ok_iff] at h
        obtain ⟨rfl, hty, rfl⟩ := h
        exact .assignment hty
      | some op =>
        rw [Operator.combine_compound_eq_ok_iff] at h
        obtain ⟨value, hvalue, hwrite⟩ := h
        rw [Typing.binary_eq_ok_iff] at hvalue
        obtain ⟨hvoid, hty, rfl⟩ := hvalue
        rw [Typing.write_eq_ok_iff] at hwrite
        obtain ⟨rfl, -, rfl⟩ := hwrite
        exact .compound hvoid hty.symm
  · intro h
    cases h with
    | operation hvalue hty =>
      rw [Operator.combine_operation_eq_ok_iff, Typing.binary_eq_ok_iff]
      exact ⟨hvalue, hty.symm, rfl⟩
    | assignment hty =>
      rw [Operator.combine_assign_eq_ok_iff, Typing.write_eq_ok_iff]
      exact ⟨rfl, hty, rfl⟩
    | compound hvalue hty =>
      rw [Operator.combine_compound_eq_ok_iff]
      exact ⟨_, Typing.binary_eq_ok_iff.2 ⟨hvalue, hty.symm, rfl⟩,
        Typing.write_eq_ok_iff.2 ⟨rfl, rfl, rfl⟩⟩

theorem chosen_iff {condition onTrue e : Expr} {onFalse : Option Expr} :
    Typing.conditional condition onTrue onFalse = .ok e ↔ Chosen condition onTrue onFalse e := by
  constructor
  · intro h
    cases onFalse with
    | none =>
      obtain ⟨hvalue, rfl⟩ := Typing.conditional_none_eq_ok_iff.1 h
      exact .alone hvalue
    | some onFalse =>
      obtain ⟨hvalue, hty, hcategory, rfl⟩ := Typing.conditional_some_eq_ok_iff.1 h
      exact .both hvalue hty hcategory
  · intro h
    cases h with
    | alone hvalue => exact Typing.conditional_none_eq_ok_iff.2 ⟨hvalue, rfl⟩
    | both hvalue hty hcategory =>
      exact Typing.conditional_some_eq_ok_iff.2 ⟨hvalue, hty, hcategory, rfl⟩

theorem callable_iff {s : State} {name : String} {signature : Signature} :
    s.signature? name = some signature ↔
      Callable s.functions s.externs s.scope name signature := by
  constructor
  · intro h
    rw [State.signature?] at h
    split at h
    · next f hf =>
      cases h
      exact .function hf
    · next hf =>
      split at h
      · next found he =>
        cases h
        exact .used hf he
      · next he =>
        split at h
        · next hname =>
          cases h
          exact .itself hf he hname
        · cases h
  · intro h
    rw [State.signature?]
    cases h with
    | function hf => rw [hf]
    | used hf he => rw [hf, he]
    | itself hf he hname => rw [hf, he, if_pos hname]

/-! ### Levels -/

section
variable {functions : List (Named Function)} {externs : List (Named Signature)} {d : Nat}
  {σ σ' : Scope} {input rest : List TokenKind} {e : Expr}

theorem Derives.weaken {n least : Nat} (h : Derives functions externs d (.level n e) σ input σ' rest)
    (hle : least ≤ n) : Derives functions externs d (.level least e) σ input σ' rest := by
  obtain ⟨k, rfl⟩ := Nat.exists_eq_add_of_le hle
  induction k with
  | zero => exact h
  | succ k ih => exact ih (.looser h) (Nat.le_add_right least k)

/-! ### First tokens -/

def startsOperand : TokenKind → Bool
  | .symbol .minus | .symbol .plus | .symbol .openBracket | .symbol .openCurly => true
  | .number _ | .identifier _ | .keyword .ifBranch => true
  | _ => false

def startsStatement : TokenKind → Bool
  | .keyword .letBinding | .keyword .varBinding | .keyword .returns => true
  | k => startsOperand k

def Form.Starts : Form → List TokenKind → Prop
  | .operand _, input => ∃ k more, input = k :: more ∧ startsOperand k = true
  | .level _ _, input => ∃ k more, input = k :: more ∧ startsOperand k = true
  | .arguments [], _ => True
  | .arguments (_ :: _), input => ∃ k more, input = k :: more ∧ startsOperand k = true
  | .alternative _, _ => True
  | .statement _, input => ∃ k more, input = k :: more ∧ startsStatement k = true
  | .statements _, _ => True
  | .body _ _, input => ∃ more, input = .symbol .openCurly :: more

theorem Derives.starts {form : Form} (h : Derives functions externs d form σ input σ' rest) :
    form.Starts input := by
  induction h with
  | signed hsign _ _ => cases hsign <;> exact ⟨_, _, rfl, rfl⟩
  | bracketed _ => exact ⟨_, _, rfl, rfl⟩
  | block _ ih =>
    obtain ⟨more, rfl⟩ := ih
    exact ⟨_, more, rfl, rfl⟩
  | number => exact ⟨_, _, rfl, rfl⟩
  | named _ _ => exact ⟨_, _, rfl, rfl⟩
  | call _ _ _ => exact ⟨_, _, rfl, rfl⟩
  | conditional _ _ _ _ => exact ⟨_, _, rfl, rfl⟩
  | tightest _ ih => exact ih
  | looser _ ih => exact ih
  | joinLeft _ _ _ _ _ ihl _ => exact ihl
  | joinRight _ _ _ _ _ ihl _ => exact ihl
  | noArguments => trivial
  | lastArgument _ ih => exact ih
  | argument _ _ ih _ => exact ih
  | noAlternative => trivial
  | otherwise _ _ => trivial
  | further _ _ _ _ _ _ _ => trivial
  | binding hword _ _ _ _ _ => cases hword <;> exact ⟨_, _, rfl, rfl⟩
  | leave _ => exact ⟨_, _, rfl, rfl⟩
  | leaveWith _ _ _ => exact ⟨_, _, rfl, rfl⟩
  | expression _ ih =>
    obtain ⟨k, more, rfl, hk⟩ := ih
    refine ⟨k, more, rfl, ?_⟩
    unfold startsStatement
    split <;> first | rfl | exact hk
  | noStatements => trivial
  | emptyLine _ _ => trivial
  | statement _ _ _ _ _ _ => trivial
  | body _ _ => exact ⟨_, rfl⟩

/-! ### Progress -/

theorem Annotation.length_le {given : Option Ty} (h : Annotation given input rest) :
    rest.length ≤ input.length := by
  cases h with
  | absent => exact Nat.le_refl _
  | present _ =>
    simp only [List.length_cons]
    omega

/-- How many tokens what is derived has at least. -/
def Form.least : Form → Nat
  | .operand _ => 1
  | .level _ _ => 1
  | .arguments args => args.length
  | .alternative _ => 0
  | .statement _ => 1
  | .statements _ => 0
  | .body _ _ => 2

theorem Derives.length_le {form : Form} (h : Derives functions externs d form σ input σ' rest) :
    rest.length + form.least ≤ input.length := by
  induction h with
  | signed _ _ _ ih | bracketed _ ih | leaveWith _ _ ih | emptyLine _ ih | body _ ih =>
    simp only [Form.least, List.length_cons] at ih ⊢
    omega
  | block _ ih =>
    simp only [Form.least] at ih ⊢
    omega
  | number | named _ _ | leave _ =>
    simp only [Form.least, List.length_cons]
    omega
  | call _ _ _ ih =>
    simp only [Form.least, List.length_cons] at ih ⊢
    omega
  | conditional _ _ _ _ ihc iht ihf | further _ _ _ _ ihc iht ihf =>
    simp only [Form.least, List.length_cons] at ihc iht ihf ⊢
    omega
  | tightest _ ih | looser _ ih | expression _ ih => exact ih
  | joinLeft _ _ _ _ _ ihl ihr | joinRight _ _ _ _ _ ihl ihr =>
    simp only [Form.least, List.length_cons] at ihl ihr ⊢
    omega
  | noArguments | noAlternative | noStatements => exact Nat.le_refl _
  | lastArgument _ ih => exact ih
  | argument _ _ ih ihrest =>
    simp only [Form.least, List.length_cons] at ih ihrest ⊢
    omega
  | otherwise _ ih =>
    simp only [Form.least, List.length_cons] at ih ⊢
    omega
  | binding _ hgiven _ _ _ ih =>
    have hle := hgiven.length_le
    simp only [Form.least, List.length_cons] at ih hle ⊢
    omega
  | statement _ _ _ _ ih ihrest =>
    simp only [Form.least] at ih ihrest ⊢
    omega

end
end ScalarJit.Grammar
