import ScalarJit.Proofs.Language.Quiet

/-! # What is read is in the language

Every reader that ends without complaint has read what can be derived. -/

namespace ScalarJit.Grammar

variable {w : World} {m : Mode} {d : Nat} {operand : ParseM Expr} {s : State} {σ : Scope}
  {toks : List TokenKind}

/-- What was read is derived, and the reader has the rest before it. -/
def Read (w : World) (m : Mode) (d : Nat) (form : Form) (σ : Scope) (input : List TokenKind)
    (t : State) : Prop :=
  ∃ σ' rest, Stands w m σ' rest t ∧ Derives w.functions w.externs d form σ input σ' rest

structure SoundOperand (w : World) (d : Nat) (operand : ParseM Expr) : Prop where
  calm : Calm operand
  reads : ∀ m σ toks s, Stands w m σ toks s →
    Quiet w.errors operand s fun e t => Read w m d (.operand e) σ toks t

/-! ### Operators -/

theorem calm_climb (ho : Calm operand) (bound least : Nat) (lhs : Expr) :
    Calm (climb operand bound least lhs) := (motion_louder.keeps_climb_tighten ho bound).1 least lhs

theorem calm_tighten (ho : Calm operand) (bound : Nat) (op : Operator) (rhs : Expr) :
    Calm (tighten operand bound op rhs) := (motion_louder.keeps_climb_tighten ho bound).2 op rhs

theorem calm_combineAt (start : Token) (op : Operator) (lhs rhs : Expr) :
    Calm (combineAt start op lhs rhs) := fun _ => motion_louder.keeps_combineAt start op lhs rhs

/-- With a bound on the tokens to come, `climb` goes on with a left-hand side that was read from
`input` at level `q`, and stops before what is looser than `least`. -/
def ClimbReads (w : World) (m : Mode) (d : Nat) (operand : ParseM Expr) (bound : Nat) : Prop :=
  ∀ least lhs q σ₀ input σ toks s, least ≤ q →
    Derives w.functions w.externs d (.level q lhs) σ₀ input σ toks → Stands w m σ toks s →
    Compatible q s.token.kind → toks.length ≤ bound →
    Quiet w.errors (climb operand bound least lhs) s fun e t => ∃ σ' rest, Stands w m σ' rest t ∧
      Derives w.functions w.externs d (.level least e) σ₀ input σ' rest ∧
      Below least t.token.kind ∧ rest.length ≤ toks.length ∧
      (¬Below least s.token.kind → rest.length < toks.length)

/-- `tighten` gives the right-hand side of `op` what binds tighter, and leaves one that `op` can take. -/
def TightenReads (w : World) (m : Mode) (d : Nat) (operand : ParseM Expr) (bound : Nat) : Prop :=
  ∀ op rhs q σ₀ input σ toks s, op.tightness ≤ q →
    Derives w.functions w.externs d (.level q rhs) σ₀ input σ toks → Stands w m σ toks s →
    Compatible q s.token.kind → toks.length + 1 ≤ bound →
    Quiet w.errors (tighten operand bound op rhs) s fun e t => ∃ σ' rest, Stands w m σ' rest t ∧
      Derives w.functions w.externs d (.level op.tightness e) σ₀ input σ' rest ∧
      Compatible op.precedence t.token.kind ∧ rest.length ≤ toks.length

theorem ClimbReads.succ (ho : SoundOperand w d operand) {bound : Nat}
    (hclimb : ClimbReads w m d operand bound) (htighten : TightenReads w m d operand bound) :
    ClimbReads w m d operand (bound + 1) := by
  intro least lhs q σ₀ input σ toks s hq hlhs hs hcompatible hbound
  rw [climb]
  refine (ends_bind _ _).2 (ends_operator?.2 ?_)
  cases hop : Operator.ofToken? s.token.kind with
  | none =>
    intro _
    have hbelow : Below least s.token.kind := below_of_no_operator hop
    exact ⟨σ, toks, hs, hlhs.weaken hq, hbelow, Nat.le_refl _, fun h => absurd hbelow h⟩
  | some op =>
    dsimp only
    by_cases hlt : op.precedence < least
    · rw [if_pos hlt]
      intro _
      have hbelow := below_of_lt hop hlt
      exact ⟨σ, toks, hs, hlhs.weaken hq, hbelow, Nat.le_refl _, fun h => absurd hbelow h⟩
    rw [if_neg hlt]
    obtain ⟨sign, hsign, hsymbol⟩ := Operator.sign_of_ofToken? hop
    obtain ⟨rest, hrest⟩ := hs.cons
    rw [hsign] at hrest hcompatible
    subst hrest
    have hnext := hs.bump (by simp) (Mode.after_operator hsymbol m)
    have hcalm : ∀ rhs, Calm (do climb operand bound least (← combineAt s.token op lhs rhs)) :=
      fun rhs => calm_bind (calm_combineAt _ _ _ _) fun lhs => calm_climb ho.calm _ _ _
    refine (ends_bind _ _).2 (ends_token.2 ((ends_bind _ _).2 (ends_bump.2 ?_)))
    refine Quiet.bind hnext.errors ho.calm (fun rhs => calm_bind (calm_tighten ho.calm _ _ _) hcalm)
      (ho.reads m σ rest s.bump hnext) ?_
    rintro rhs t ⟨σ₁, rest₁, ht, hrhs⟩
    have hlen := hrhs.length_le
    simp only [Form.least, List.length_cons] at hlen hbound
    refine Quiet.bind ht.errors (calm_tighten ho.calm _ _ _) hcalm
      (htighten op rhs 6 σ rest σ₁ rest₁ t op.tightness_le (.tightest hrhs) ht (compatible_tightest _)
        (by omega)) ?_
    rintro rhs' u ⟨σ₂, rest₂, hu, hrhs', hcompatible', hlen'⟩
    refine (ends_bind _ _).2 ((ends_combineAt _ _ _ _).2 ⟨?_, fun _ _ => trivial⟩)
    intro e he
    -- Both sides joined are the left-hand side of the next turn, at the level of `op`.
    have hjoined := Derives.join hsymbol hcompatible hlhs hrhs' (joined_iff.1 he)
    refine (hclimb least e op.precedence σ₀ input σ₂ rest₂ u (Nat.le_of_not_lt hlt) hjoined hu
      hcompatible' (by omega)).mono ?_
    rintro e' v ⟨σ₃, rest₃, hv, he', hbelow, hlen'', -⟩
    refine ⟨σ₃, rest₃, hv, he', hbelow, ?_, fun _ => ?_⟩ <;>
      simp only [List.length_cons] <;> omega

/-- One turn of `tighten`: what `climb` reads from `least` on becomes the right-hand side. -/
theorem TightenReads.turn (ho : SoundOperand w d operand) {bound least q : Nat} {op next : Operator}
    {rhs : Expr} {σ₀ : Scope} {input : List TokenKind} (hclimb : ClimbReads w m d operand bound)
    (htighten : TightenReads w m d operand bound) (htight : op.tightness ≤ least) (hq : least ≤ q)
    (hnext : Operator.ofToken? s.token.kind = some next) (hle : least ≤ next.precedence)
    (hrhs : Derives w.functions w.externs d (.level q rhs) σ₀ input σ toks) (hs : Stands w m σ toks s)
    (hcompatible : Compatible q s.token.kind) (hbound : toks.length ≤ bound) :
    Quiet w.errors (do tighten operand bound op (← climb operand bound least rhs)) s fun e t =>
      ∃ σ' rest, Stands w m σ' rest t ∧
        Derives w.functions w.externs d (.level op.tightness e) σ₀ input σ' rest ∧
        Compatible op.precedence t.token.kind ∧ rest.length ≤ toks.length := by
  have hnot : ¬Below least s.token.kind := fun hbelow =>
    absurd (hbelow next hnext) (Nat.not_lt_of_le hle)
  refine Quiet.bind hs.errors (calm_climb ho.calm _ _ _) (fun rhs => calm_tighten ho.calm _ _ _)
    (hclimb least rhs q σ₀ input σ toks s hq hrhs hs hcompatible hbound) ?_
  rintro rhs' t ⟨σ₁, rest₁, ht, hrhs', hbelow, -, hlen⟩
  have hlen := hlen hnot
  refine (htighten op rhs' least σ₀ input σ₁ rest₁ t htight hrhs' ht hbelow.compatible
    (by omega)).mono ?_
  rintro e u ⟨σ₂, rest₂, hu, he, hcompatible', hlen'⟩
  exact ⟨σ₂, rest₂, hu, he, hcompatible', by omega⟩

theorem TightenReads.succ (ho : SoundOperand w d operand) {bound : Nat}
    (hclimb : ClimbReads w m d operand bound) (htighten : TightenReads w m d operand bound) :
    TightenReads w m d operand (bound + 1) := by
  intro op rhs q σ₀ input σ toks s hq hrhs hs hcompatible hbound
  have hbound := Nat.le_of_succ_le_succ hbound
  rw [tighten]
  refine (ends_bind _ _).2 (ends_operator?.2 ?_)
  cases hnext : Operator.ofToken? s.token.kind with
  | none =>
    intro _
    exact ⟨σ, toks, hs, hrhs.weaken hq, (below_of_no_operator hnext).compatible, Nat.le_refl _⟩
  | some next =>
    dsimp only
    have hnextq := hcompatible next hnext
    by_cases hlt : op.precedence < next.precedence
    · rw [if_pos hlt]
      exact TightenReads.turn ho hclimb htighten op.tightness_le_succ (by omega) hnext hlt hrhs hs
        hcompatible hbound
    rw [if_neg hlt]
    by_cases hright : next.precedence = op.precedence ∧ next.groupsRight = true
    · rw [if_pos hright]
      have htight : op.tightness = op.precedence := by
        rw [Operator.tightness, ← Operator.groupsRight_eq hright.1, if_pos hright.2]
      exact TightenReads.turn ho hclimb htighten (Nat.le_of_eq htight) (by omega) hnext
        (Nat.le_of_eq hright.1.symm) hrhs hs hcompatible hbound
    · rw [if_neg hright]
      intro _
      refine ⟨σ, toks, hs, hrhs.weaken hq, ?_, Nat.le_refl _⟩
      intro op' hop'
      rw [hnext, Option.some_inj] at hop'
      subst hop'
      by_cases heq : next.precedence = op.precedence
      · exact .inr ⟨heq, Bool.eq_false_iff.2 fun hgroups => hright ⟨heq, hgroups⟩⟩
      · exact .inl (by omega)

/-- Both loops fold operators as the levels have it. -/
theorem climbs_and_tightens (ho : SoundOperand w d operand) (bound : Nat) :
    ClimbReads w m d operand bound ∧ TightenReads w m d operand bound := by
  induction bound with
  | zero =>
    -- The end of the source is always before the reader, so there is no token list of length zero.
    refine ⟨?_, fun _ _ _ _ _ _ _ _ _ _ _ _ hbound => absurd hbound (Nat.not_succ_le_zero _)⟩
    intro least lhs q σ₀ input σ toks s _ _ hs _ hbound
    obtain ⟨rest, rfl⟩ := hs.cons
    exact absurd hbound (Nat.not_succ_le_zero _)
  | succ bound ih => exact ⟨.succ ho ih.1 ih.2, .succ ho ih.1 ih.2⟩

theorem calm_expression (ho : Calm operand) : Calm (expression operand) :=
  motion_louder.keeps_expression ho

theorem quiet_expression (ho : SoundOperand w d operand) (hs : Stands w m σ toks s) :
    Quiet w.errors (expression operand) s fun e t => Read w m d (.level 1 e) σ toks t := by
  unfold expression
  refine Quiet.bind hs.errors ho.calm (fun lhs => calm_bind calm_get fun _ => calm_climb ho.calm _ _ _)
    (ho.reads m σ toks s hs) ?_
  rintro lhs t ⟨σ₁, rest, ht, hlhs⟩
  refine (ends_bind _ _).2 (ends_get.2 ?_)
  have hlen := ht.length_le
  refine ((climbs_and_tightens ho _).1 1 lhs 6 σ toks σ₁ rest t (by decide) (.tightest hlhs) ht
    (compatible_tightest _) (by omega)).mono ?_
  rintro e u ⟨σ₂, rest₂, hu, he, -, -, -⟩
  exact ⟨σ₂, rest₂, hu, he⟩

/-! ### Statements -/

theorem Stands.declare (h : Stands w m σ toks s) (name : String) (ty : Ty) (mutable : Bool) :
    (s.declare name ty mutable).1 = σ.nextVar ∧
      Stands w m (σ.declare name ty mutable) toks (s.declare name ty mutable).2 := by
  have hscope := h.scope
  subst hscope
  exact ⟨rfl, h.withScope _⟩

theorem calm_declare (name : String) (ty : Ty) (mutable : Bool) :
    Calm (modifyGet fun s => s.declare name ty mutable) := fun s => Nat.le_refl s.errors

theorem calm_declared (name : String) (value : Expr) (mutable : Bool) : Calm ((do
    let var ← modifyGet fun s => s.declare name value.ty mutable
    return .bind name var value) : ParseM Expr) :=
  calm_bind (calm_declare _ _ _) fun _ => calm_pure _

theorem quiet_declared {word : Keyword} {mutable : Bool} (hword : Binder word mutable) {name : String}
    {given : Option Ty} {value : Expr} {σ' : Scope} {input mid rest : List TokenKind}
    (hgiven : Annotation given input (.symbol .assign :: mid))
    (hvalue : Derives w.functions w.externs d (.level 1 value) σ mid σ' rest)
    (hvoid : value.ty ≠ .void) (hty : ∀ ty, given = some ty → ty = value.ty)
    (hs : Stands w m σ' rest s) :
    Quiet w.errors ((do
      let var ← modifyGet fun s => s.declare name value.ty mutable
      return .bind name var value) : ParseM Expr) s fun e t =>
        Read w m d (.statement e) σ (.keyword word :: .identifier name :: input) t := by
  obtain ⟨hvar, hstands⟩ := hs.declare name value.ty mutable
  refine (ends_bind _ _).2 ((ends_modifyGet _).2 fun _ => ?_)
  refine ⟨_, rest, hstands, ?_⟩
  rw [hvar]
  exact .binding hword hgiven hvalue hvoid hty

theorem quiet_bindValue (ho : SoundOperand w d operand) {word : Keyword} {mutable : Bool}
    (hword : Binder word mutable) (start : Token) {name : String} {given : Option Ty}
    {input mid : List TokenKind} (hgiven : Annotation given input mid) (hs : Stands w m σ mid s) :
    Quiet w.errors (bindValue operand mutable start name given) s fun e t =>
      Read w m d (.statement e) σ (.keyword word :: .identifier name :: input) t := by
  unfold bindValue
  refine (ends_bind _ _).2 ((ends_expectSymbol _ _).2 ⟨fun hassign => ?_, fun _ => trivial⟩)
  obtain ⟨mid, rfl⟩ := hs.cons
  rw [hassign] at hs hgiven
  have hnext := hs.bump (by simp) rfl
  refine Quiet.bind hnext.errors (calm_expression ho.calm) ?_ (quiet_expression ho hnext) ?_
  · intro value
    dsimp only
    split
    · exact calm_failAt _ _
    split
    · split
      · exact calm_failAt _ _
      · exact calm_declared _ _ _
    · exact calm_declared _ _ _
  rintro value t ⟨σ', rest, ht, hvalue⟩
  dsimp only
  split
  · exact quiet_failAt _ _
  next hvoid =>
  split
  · next ty =>
    split
    · exact quiet_failAt _ _
    · next hty =>
      refine quiet_declared hword hgiven hvalue hvoid (fun ty' hsome => ?_) ht
      cases hsome
      exact Decidable.not_not.1 hty
  · exact quiet_declared hword hgiven hvalue hvoid (fun ty hsome => by cases hsome) ht

theorem quiet_binding (ho : SoundOperand w d operand) {word : Keyword} {mutable : Bool}
    (hword : Binder word mutable) {input : List TokenKind}
    (hs : Stands w m σ (.keyword word :: input) s) :
    Quiet w.errors (binding operand mutable) s fun e t =>
      Read w m d (.statement e) σ (.keyword word :: input) t := by
  unfold binding
  have hone := hs.bump (by simp) rfl
  refine (ends_bind _ _).2 (ends_bump.2 ((ends_bind _ _).2 (ends_token.2 ?_)))
  refine (ends_bind _ _).2 ((ends_identifier _).2 ⟨fun name hname => ?_, fun _ => trivial⟩)
  obtain ⟨input₁, rfl⟩ := hone.cons
  rw [hname] at hone ⊢
  have htwo := hone.bump (by simp) rfl
  refine (ends_bind _ _).2 (ends_kind.2 ?_)
  dsimp only
  split
  · next hcolon =>
    obtain ⟨input₂, rfl⟩ := htwo.cons
    rw [hcolon] at htwo ⊢
    have hthree := htwo.bump (by simp) rfl
    refine (ends_bind _ _).2 (ends_bump.2 ((ends_bind _ _).2 ((ends_map _ _).2 ?_)))
    refine ends_typeName.2 ⟨fun tyName hty ty hknown => ?_, fun _ _ _ => trivial, fun _ => trivial⟩
    obtain ⟨input₃, rfl⟩ := hthree.cons
    rw [hty] at hthree ⊢
    exact quiet_bindValue ho hword _ (.present hknown) (hthree.bump (by simp) rfl)
  · exact (ends_bind _ _).2 ((ends_pure _).2 (quiet_bindValue ho hword _ .absent htwo))

theorem quiet_returnStatement (ho : SoundOperand w d operand) {input : List TokenKind}
    (hs : Stands w m σ (.keyword .returns :: input) s) :
    Quiet w.errors (returnStatement operand) s fun e t =>
      Read w m d (.statement e) σ (.keyword .returns :: input) t := by
  unfold returnStatement
  have hone := hs.bump (by simp) rfl
  refine (ends_bind _ _).2 (ends_token.2 ((ends_bind _ _).2 (ends_bump.2 ?_)))
  refine (ends_bind _ _).2 (ends_kind.2 ?_)
  dsimp only
  split
  · refine (ends_bind _ _).2 ((ends_pure _).2 ((ends_bind _ _).2 (ends_get.2 ?_)))
    refine (ends_typed _ _).2 ⟨fun e he _ => ?_, fun _ _ => trivial⟩
    rw [hone.scope] at he
    obtain ⟨hresult, rfl⟩ := Typing.leave_none_eq_ok_iff.1 he
    exact ⟨σ, input, hone, .leave hresult⟩
  · have hvalue : Quiet w.errors (some <$> expression operand) s.bump fun value t =>
        ∃ e, value = some e ∧ Read w m d (.level 1 e) σ input t :=
      (ends_map _ _).2 ((quiet_expression ho hone).mono fun e t hread => ⟨e, rfl, hread⟩)
    refine Quiet.bind hone.errors (fun s => (ends_map _ _).2 (calm_expression ho.calm s))
      (fun value => calm_bind calm_get fun _ => calm_typed _ _) hvalue ?_
    rintro _ t ⟨value, rfl, σ', rest, ht, hderives⟩
    refine (ends_bind _ _).2 (ends_get.2 ((ends_typed _ _).2 ⟨fun e he _ => ?_, fun _ _ => trivial⟩))
    rw [ht.scope] at he
    obtain ⟨hresult, rfl⟩ := Typing.leave_some_eq_ok_iff.1 he
    exact ⟨σ', rest, ht, .leaveWith hderives hresult⟩

theorem quiet_statement (ho : SoundOperand w d operand) (hs : Stands w m σ toks s) :
    Quiet w.errors (statement operand) s fun e t => Read w m d (.statement e) σ toks t := by
  unfold statement
  obtain ⟨input, rfl⟩ := hs.cons
  refine (ends_bind _ _).2 (ends_kind.2 ?_)
  split
  · next hk =>
    rw [hk] at hs ⊢
    exact quiet_binding ho .fixed hs
  · next hk =>
    rw [hk] at hs ⊢
    exact quiet_binding ho .mutable hs
  · next hk =>
    rw [hk] at hs ⊢
    exact quiet_returnStatement ho hs
  · exact quiet_failHere _
  · exact quiet_failHere _
  · refine (quiet_expression ho hs).mono ?_
    rintro e t ⟨σ', rest, ht, hderives⟩
    exact ⟨σ', rest, ht, .expression hderives⟩

/-! ### Blocks -/

theorem calm_statement (ho : Calm operand) : Calm (statement operand) := motion_louder.keeps_statement ho

theorem Stands.addStatement (h : Stands w m σ toks s) (id : BlockId) (e : Expr) :
    Stands w m (σ.addStatement id e) toks (s.addStatement id e) := by
  have hscope := h.scope
  subst hscope
  exact h.withScope _

theorem Stands.statementEnd (h : Stands w m σ toks s) (hend : endsStatement s.token.kind = true)
    (hne : s.token.kind ≠ .endOfFile) : StatementEnd toks := by
  obtain ⟨rest, rfl⟩ := h.cons
  cases hk : s.token.kind with
  | newline => exact .inl rfl
  | endOfFile => exact absurd hk hne
  | symbol sign =>
    rw [hk] at hend
    cases sign <;> first | exact .inr rfl | cases hend
  | _ =>
    rw [hk] at hend
    cases hend

theorem lt_errors_endStatement {n : Nat} (h : n ≤ s.errors) (p : Problem) :
    n < (s.report p).endStatement.errors := by
  have hreport := s.errors_report p
  have hend : (s.report p).errors ≤ (s.report p).endStatement.errors := motion_louder.endStatement _
  omega

theorem errors_statements_ne (ho : Calm operand) (id : BlockId) (bound : Nat) {n : Nat}
    (h : n < s.errors) : (statements operand id bound s).errors ≠ n := by
  have hle : s.errors ≤ (statements operand id bound s).errors := motion_louder.statements ho id bound s
  omega

theorem Derives.statements_ne_endOfFile {functions : List (Named Function)}
    {externs : List (Named Signature)} {id : BlockId} {σ σ' : Scope} {k : TokenKind}
    {more rest : List TokenKind}
    (h : Derives functions externs d (.statements id) σ (k :: more) σ' (.symbol .closedCurly :: rest)) :
    k ≠ .endOfFile := by
  rintro rfl
  cases h with
  | statement h _ _ _ =>
    obtain ⟨k, more', heq, hk⟩ := h.starts
    cases heq
    cases hk

theorem read_statements (ho : SoundOperand w d operand) (id : BlockId) (bound : Nat) (σ : Scope)
    (toks : List TokenKind) (s : State) (hs : Stands w m σ toks s) (hbound : toks.length ≤ bound)
    (hquiet : (statements operand id bound s).errors = w.errors) :
    ∃ σ' rest, Stands w m σ' (.symbol .closedCurly :: rest) (statements operand id bound s) ∧
      Derives w.functions w.externs d (.statements id) σ toks σ' (.symbol .closedCurly :: rest) := by
  induction bound generalizing σ toks s with
  | zero =>
    obtain ⟨rest, rfl⟩ := hs.cons
    exact absurd hbound (Nat.not_succ_le_zero _)
  | succ bound ih =>
    have hstmt := ends_iff.1 (quiet_statement ho hs)
    have hcalm := ends_iff.1 (calm_statement ho.calm s)
    obtain ⟨input, rfl⟩ := hs.cons
    rw [statements] at hquiet ⊢
    split at hquiet
    · next hk =>
      rw [hk] at hs hbound ⊢
      obtain ⟨σ', rest, ht, hderives⟩ := ih σ input s.bump (hs.bump (by simp) rfl)
        (Nat.le_of_succ_le_succ hbound) hquiet
      exact ⟨σ', rest, ht, .emptyLine hderives⟩
    · next hk =>
      rw [hk] at hs ⊢
      exact ⟨σ, input, hs, .noStatements⟩
    · next hk =>
      have hreport := s.errors_report ⟨.unclosedBlock, s.token.position⟩
      rw [hs.errors] at hreport
      omega
    next hnl hcc heof =>
    -- Every path on which something is reported has more errors than `w` in the end.
    split at hquiet
    · next problem after hrun =>
      have hle : s.errors ≤ after.errors := hcalm.2 _ _ hrun
      rw [hs.errors] at hle
      exact absurd hquiet (errors_statements_ne ho.calm _ _ (lt_errors_endStatement hle _))
    next e after hrun =>
    have hle : s.errors ≤ after.errors := hcalm.1 _ _ hrun
    rw [hs.errors] at hle
    split at hquiet
    · exact absurd hquiet (errors_statements_ne ho.calm _ _ (lt_errors_endStatement hle _))
    next hend =>
    split at hquiet
    · exact absurd hquiet (errors_statements_ne ho.calm _ _
        (Nat.lt_of_le_of_lt hle (after.errors_report ⟨.uselessStatement, s.token.position⟩)))
    next huseful =>
    have hafter : after.errors = w.errors := by
      refine Nat.le_antisymm (Nat.le_of_not_lt fun hlt => ?_) hle
      exact errors_statements_ne (s := after.addStatement id e) ho.calm id bound hlt hquiet
    obtain ⟨σ₁, mid, hstands, hderives⟩ := hstmt.1 _ _ hrun hafter
    have hlen := hderives.length_le
    simp only [Form.least, List.length_cons] at hlen hbound
    obtain ⟨σ', rest, ht, hrest⟩ := ih _ mid _ (hstands.addStatement id e) (by omega) hquiet
    have hended : StatementEnd mid := by
      refine hstands.statementEnd (by simpa using hend) ?_
      obtain ⟨more, rfl⟩ := hstands.cons
      exact hrest.statements_ne_endOfFile
    rw [if_neg hend, if_neg huseful]
    exact ⟨σ', rest, ht, .statement hderives hended (by simpa using huseful) hrest⟩

theorem Stands.openBlock (h : Stands w m σ toks s) :
    s.openBlock.1 = σ.blocks.length ∧ Stands w m σ.openBlock toks s.openBlock.2 := by
  have hscope := h.scope
  subst hscope
  exact ⟨rfl, h.withScope _⟩

def leaveBlock (id : BlockId) (outer : Nat) (s : State) : Expr × State :=
  let s := { s with brackets := outer }
  let s := if s.token.kind = .symbol .closedCurly then s.bump else s
  (s.scope.blockExpr id, s.closeBlock id)

theorem blockBody_eq_leaveBlock (operand : ParseM Expr) (id : BlockId) (s : State) :
    blockBody operand id s = leaveBlock id s.brackets (statements operand id
      { s with brackets := 0 }.bump.remaining { s with brackets := 0 }.bump) := rfl

theorem errors_leaveBlock (id : BlockId) (outer : Nat) (s : State) :
    s.errors ≤ (leaveBlock id outer s).2.errors := by
  unfold leaveBlock
  dsimp only
  split
  · exact motion_louder.bump_brackets s outer
  · exact Nat.le_refl _

theorem Stands.leaveBlock {outer : List Nat} {depth : Nat} {rest : List TokenKind} (id : BlockId)
    (hs : Stands w ⟨0, depth :: outer⟩ σ (.symbol .closedCurly :: rest) s) :
    (leaveBlock id depth s).1 = σ.blockExpr id ∧
      Stands w ⟨depth, outer⟩ (σ.closeBlock id) rest (leaveBlock id depth s).2 := by
  have hout := hs.bump_brackets (by simp) depth rfl
  unfold Grammar.leaveBlock
  dsimp only
  rw [if_pos hs.kind_eq, ← hout.scope]
  exact ⟨rfl, hout.withScope _⟩

theorem read_blockBody (ho : SoundOperand w d operand) (id : BlockId) {input : List TokenKind}
    (hs : Stands w m σ (.symbol .openCurly :: input) s)
    (hquiet : (blockBody operand id s).2.errors = w.errors) :
    Read w m d (.body id (blockBody operand id s).1) σ (.symbol .openCurly :: input)
      (blockBody operand id s).2 := by
  have hinside := hs.bump_brackets (by simp) 0 rfl
  have hgrows : { s with brackets := 0 }.bump.errors ≤ (statements operand id
      { s with brackets := 0 }.bump.remaining { s with brackets := 0 }.bump).errors :=
    motion_louder.statements ho.calm id _ _
  rw [blockBody_eq_leaveBlock, hs.brackets] at hquiet ⊢
  have hlater := errors_leaveBlock id m.depth (statements operand id
    { s with brackets := 0 }.bump.remaining { s with brackets := 0 }.bump)
  rw [hinside.errors] at hgrows
  rw [hquiet] at hlater
  obtain ⟨σ', rest, hend, hderives⟩ := read_statements ho id _ σ input _ hinside hinside.length_le
    (Nat.le_antisymm hlater hgrows)
  obtain ⟨hexpr, hstands⟩ := hend.leaveBlock id
  rw [hexpr]
  exact ⟨σ'.closeBlock id, rest, hstands, .body hderives⟩

theorem calm_block (ho : Calm operand) : Calm (block operand) := motion_louder.keeps_block ho

theorem quiet_block (ho : SoundOperand w d operand) {input : List TokenKind}
    (hs : Stands w m σ (.symbol .openCurly :: input) s) :
    Quiet w.errors (block operand) s fun e t =>
      ∃ σ' rest, Stands w m σ' rest t ∧ Derives w.functions w.externs d (.body σ.blocks.length e)
        σ.openBlock (.symbol .openCurly :: input) σ' rest := by
  obtain ⟨hid, hopen⟩ := hs.openBlock
  refine ends_block.2 fun hquiet => ?_
  have hread := read_blockBody ho s.openBlock.1 hopen hquiet
  rw [hid] at hread ⊢
  exact hread

/-! ### Calls -/

theorem quiet_callArguments (ho : SoundOperand w d operand) (callee : String) (bound : Nat)
    (args : List Expr) (σ : Scope) (toks : List TokenKind) (s : State) (hs : Stands w m σ toks s)
    (hbound : toks.length ≤ bound) :
    Quiet w.errors (callArguments operand callee bound args) s fun all t =>
      ∃ e more σ' rest, all = args ++ e :: more ∧
        Stands w m σ' (.symbol .closedBracket :: rest) t ∧
        Derives w.functions w.externs d (.arguments (e :: more)) σ toks σ'
          (.symbol .closedBracket :: rest) := by
  induction bound generalizing args σ toks s with
  | zero =>
    obtain ⟨rest, rfl⟩ := hs.cons
    exact absurd hbound (Nat.not_succ_le_zero _)
  | succ bound ih =>
    rw [callArguments]
    refine Quiet.bind hs.errors (calm_expression ho.calm) ?_ (quiet_expression ho hs) ?_
    · intro arg
      refine calm_bind calm_kind fun found => ?_
      split
      · exact calm_bind calm_bump fun _ => motion_louder.keeps_callArguments ho.calm _ _ _
      · exact calm_pure _
      · exact calm_failHere _
    rintro e t ⟨σ₁, mid, ht, hderives⟩
    obtain ⟨mid, rfl⟩ := ht.cons
    refine (ends_bind _ _).2 (ends_kind.2 ?_)
    split
    · next hk =>
      rw [hk] at ht hderives
      have hnext := ht.bump (by simp) rfl
      have hlen := hderives.length_le
      simp only [Form.least, List.length_cons] at hlen
      refine (ends_bind _ _).2 (ends_bump.2 ((ih _ σ₁ mid t.bump hnext (by omega)).mono ?_))
      rintro all u ⟨e', more, σ', rest, rfl, hu, hrest⟩
      exact ⟨e, e' :: more, σ', rest, List.append_assoc .., hu, .argument hderives hrest⟩
    · next hk =>
      rw [hk] at ht hderives
      exact fun _ => ⟨e, [], σ₁, mid, rfl, ht, .lastArgument hderives⟩
    · exact quiet_failHere _

theorem quiet_call (ho : SoundOperand w d operand) (name : String) (start : Token)
    {input : List TokenKind} (hs : Stands w m σ (.symbol .openBracket :: input) s) :
    Quiet w.errors (call operand name start) s fun e t =>
      Read w m (d + 1) (.operand e) σ (.identifier name :: .symbol .openBracket :: input) t := by
  unfold call
  have hone := hs.bump_brackets (by simp) (s.brackets + 1) (by rw [hs.brackets]; rfl)
  refine (ends_bind _ _).2 (ends_openBracket.2 ((ends_bind _ _).2 (ends_kind.2 ?_)))
  have hclose : ∀ (args : List Expr) (σ' : Scope) (rest : List TokenKind) (t : State),
      Stands w (m.after (.symbol .openBracket)) σ' (.symbol .closedBracket :: rest) t →
      Derives w.functions w.externs d (.arguments args) σ input σ' (.symbol .closedBracket :: rest) →
      Quiet w.errors (finishCall name start args) t fun e u =>
        Read w m (d + 1) (.operand e) σ (.identifier name :: .symbol .openBracket :: input) u := by
    intro args σ' rest t ht hargs
    unfold finishCall
    have hout := ht.bump_brackets (by simp) (t.brackets - 1) (by rw [ht.brackets]; rfl)
    refine (ends_bind _ _).2 (ends_closeBracket.2 ((ends_bind _ _).2 (ends_get.2 ?_)))
    split
    · next signature hsignature =>
      refine (ends_typed _ _).2 ⟨fun e he _ => ?_, fun _ _ => trivial⟩
      obtain ⟨htypes, rfl⟩ := Typing.call_eq_ok_iff.1 he
      rw [callable_iff, hout.functions, hout.externs, hout.scope] at hsignature
      exact ⟨σ', rest, hout, .call hargs hsignature htypes⟩
    · exact quiet_failAt _ _
  dsimp only
  split
  · next hk =>
    obtain ⟨rest, rfl⟩ := hone.cons
    rw [hk] at hone hclose ⊢
    exact (ends_bind _ _).2 ((ends_pure _).2 (hclose [] σ rest _ hone .noArguments))
  · refine (ends_bind _ _).2 (ends_get.2 ?_)
    refine Quiet.bind hone.errors (motion_louder.keeps_callArguments ho.calm _ _ _) ?_
      (quiet_callArguments ho name _ [] σ input _ hone hone.length_le) ?_
    · intro args
      refine calm_bind calm_closeBracket fun _ => calm_bind calm_get fun found => ?_
      split
      · exact calm_typed _ _
      · exact calm_failAt _ _
    rintro args t ⟨e, more, σ', rest, rfl, ht, hargs⟩
    exact hclose (e :: more) σ' rest t ht hargs

theorem quiet_readVariable (name : String) (start : Token) {rest : List TokenKind}
    (hs : Stands w m σ rest s) :
    Quiet w.errors (readVariable name start) s fun e t =>
      Read w m (d + 1) (.operand e) σ (.identifier name :: rest) t := by
  unfold readVariable
  refine (ends_bind _ _).2 (ends_get.2 ?_)
  dsimp only
  split
  · next e he =>
    obtain ⟨var, hvar, hmap⟩ := Option.bind_eq_some_iff.1 he
    obtain ⟨v, hv, rfl⟩ := Option.map_eq_some_iff.1 hmap
    have hhere : s.here = s.scope.here := rfl
    rw [hhere, hs.scope] at hvar
    rw [hs.scope] at hv
    exact fun _ => ⟨σ, rest, hs, .named hvar hv⟩
  · exact quiet_failAt _ _

/-! ### Conditionals -/

/-- Branches one after another, from the keyword of the first. -/
inductive Chain (functions : List (Named Function)) (externs : List (Named Signature)) (d : Nat) :
    List Branch → Scope → List TokenKind → Scope → List TokenKind → Prop
  | nil {σ : Scope} {rest : List TokenKind} : Chain functions externs d [] σ rest σ rest
  | cons {b : Branch} {branches : List Branch} {σ σ₁ σ₂ σ' : Scope}
      {input body more rest : List TokenKind}
      (hc : Derives functions externs d (.level 1 b.condition) σ input σ₁ body)
      (ht : Derives functions externs d (.body σ₁.blocks.length b.body) σ₁.openBlock body σ₂ more)
      (h : Chain functions externs d branches σ₂ more σ' rest) :
      Chain functions externs d (b :: branches) σ (.keyword .elifBranch :: input) σ' rest

inductive Nested (otherwise : Option Expr) : List Branch → Option Expr → Prop
  | nil : Nested otherwise [] otherwise
  | cons {b : Branch} {branches : List Branch} {onFalse : Option Expr} {e : Expr}
      (h : Nested otherwise branches onFalse) (he : Chosen b.condition b.body onFalse e) :
      Nested otherwise (b :: branches) (some e)

theorem Chain.alternative {functions : List (Named Function)} {externs : List (Named Signature)}
    {branches : List Branch} {σ' σ'' : Scope} {input mid rest : List TokenKind}
    {otherwise onFalse : Option Expr} (h : Chain functions externs d branches σ input σ' mid)
    (hlast : Derives functions externs d (.alternative otherwise) σ' mid σ'' rest)
    (hnested : Nested otherwise branches onFalse) :
    Derives functions externs d (.alternative onFalse) σ input σ'' rest := by
  induction h generalizing onFalse with
  | nil =>
    cases hnested
    exact hlast
  | cons hc ht _ ih =>
    cases hnested with
    | cons hrest he => exact .further hc ht (ih hlast hrest) he

theorem ends_joinBranches (otherwise : Option Expr) (branches : List Branch) (s : State) :
    Ends (joinBranches otherwise branches) s (fun onFalse t => t = s ∧ Nested otherwise branches onFalse)
      fun _ _ => True := by
  induction branches with
  | nil => exact ⟨rfl, .nil⟩
  | cons b branches ih =>
    rw [joinBranches]
    refine (ends_bind _ _).2 (ih.mono ?_ fun _ _ _ => trivial)
    rintro onFalse t ⟨rfl, hnested⟩
    refine (ends_map _ _).2 ((ends_typed _ _).2 ⟨fun e he => ?_, fun _ _ => trivial⟩)
    exact ⟨rfl, .cons hnested (chosen_iff.1 he)⟩

theorem calm_branch (ho : Calm operand) (word : Keyword) : Calm (branch operand word) :=
  motion_louder.keeps_branch ho word

theorem quiet_branch (ho : SoundOperand w d operand) {word : Keyword} {input : List TokenKind}
    (hs : Stands w m σ (.keyword word :: input) s) :
    Quiet w.errors (branch operand word) s fun b t => ∃ σ₁ body σ₂ rest, Stands w m σ₂ rest t ∧
      Derives w.functions w.externs d (.level 1 b.condition) σ input σ₁ body ∧
      Derives w.functions w.externs d (.body σ₁.blocks.length b.body) σ₁.openBlock body σ₂ rest := by
  unfold branch
  have hone := hs.bump (by simp) rfl
  refine (ends_bind _ _).2 (ends_token.2 ((ends_bind _ _).2 (ends_bump.2 ?_)))
  refine Quiet.bind hone.errors (calm_expression ho.calm) ?_ (quiet_expression ho hone) ?_
  · intro condition
    refine calm_bind calm_kind fun found => ?_
    dsimp only
    split
    · exact calm_bind (calm_failHere _) fun _ => calm_bind (calm_block ho.calm) fun _ => calm_pure _
    · exact calm_bind (calm_block ho.calm) fun _ => calm_pure _
  rintro condition t ⟨σ₁, body, ht, hc⟩
  refine (ends_bind _ _).2 (ends_kind.2 ?_)
  dsimp only
  split
  · exact quiet_failHere _
  · next hk =>
    obtain ⟨input₁, rfl⟩ := ht.cons
    rw [Decidable.not_not.1 hk] at ht hc
    refine Quiet.bind ht.errors (calm_block ho.calm) (fun _ => calm_pure _) (quiet_block ho ht) ?_
    rintro onTrue u ⟨σ₂, rest, hu, hbody⟩
    exact fun _ => ⟨σ₁, _, σ₂, rest, hu, hc, hbody⟩

theorem quiet_furtherBranches (ho : SoundOperand w d operand) (bound : Nat) (branches : List Branch)
    (σ : Scope) (toks : List TokenKind) (s : State) (hs : Stands w m σ toks s) :
    Quiet w.errors (furtherBranches operand bound branches) s fun all t => ∃ more σ' rest,
      all = branches ++ more ∧ Stands w m σ' rest t ∧
        Chain w.functions w.externs d more σ toks σ' rest := by
  induction bound generalizing branches σ toks s with
  | zero =>
    rw [furtherBranches]
    exact fun _ => ⟨[], σ, toks, (List.append_nil _).symm, hs, .nil⟩
  | succ bound ih =>
    rw [furtherBranches]
    refine (ends_bind _ _).2 (ends_kind.2 ?_)
    split
    · next hk =>
      obtain ⟨input, rfl⟩ := hs.cons
      rw [hk] at hs ⊢
      refine Quiet.bind hs.errors (calm_branch ho.calm _)
        (fun _ => motion_louder.keeps_furtherBranches ho.calm _ _) (quiet_branch ho hs) ?_
      rintro b t ⟨σ₁, body, σ₂, rest, ht, hc, hbody⟩
      refine (ih _ σ₂ rest t ht).mono ?_
      rintro all u ⟨more, σ', rest', rfl, hu, hchain⟩
      exact ⟨b :: more, σ', rest', List.append_assoc .., hu, .cons hc hbody hchain⟩
    · exact fun _ => ⟨[], σ, toks, (List.append_nil _).symm, hs, .nil⟩

theorem calm_joined (head : Branch) (further : List Branch) (otherwise : Option Expr) : Calm (do
    let alternative ← joinBranches otherwise further
    typed head.start (Typing.conditional head.condition head.body alternative)) :=
  calm_bind (motion_louder.keeps_joinBranches _ _) fun _ => calm_typed _ _

theorem calm_lastBranch (ho : Calm operand) (head : Branch) (further : List Branch) : Calm (do
    let otherwise ←
      if (← kind) = .keyword .elseBranch then
        bump
        if (← kind) ≠ .symbol .openCurly then failHere .expectedElseBranch
        some <$> block operand
      else pure none
    let alternative ← joinBranches otherwise further
    typed head.start (Typing.conditional head.condition head.body alternative)) := by
  have hblock : Calm (some <$> block operand) := fun s => (ends_map _ _).2 (calm_block ho s)
  refine calm_bind calm_kind fun found => ?_
  dsimp only
  split
  · refine calm_bind calm_bump fun _ => calm_bind calm_kind fun found => ?_
    split
    · exact calm_bind (calm_failHere _) fun _ => calm_bind hblock fun _ => calm_joined _ _ _
    · exact calm_bind hblock fun _ => calm_joined _ _ _
  · exact calm_bind (calm_pure _) fun _ => calm_joined _ _ _

theorem quiet_joined {head : Branch} {further : List Branch} {otherwise : Option Expr}
    {σ₁ σ₂ σ₃ σ' : Scope} {input body rest₂ rest₃ rest : List TokenKind}
    (hc : Derives w.functions w.externs d (.level 1 head.condition) σ input σ₁ body)
    (hbody : Derives w.functions w.externs d (.body σ₁.blocks.length head.body) σ₁.openBlock body σ₂
      rest₂) (hchain : Chain w.functions w.externs d further σ₂ rest₂ σ₃ rest₃)
    (hotherwise : Derives w.functions w.externs d (.alternative otherwise) σ₃ rest₃ σ' rest)
    (hs : Stands w m σ' rest s) :
    Quiet w.errors (do
      let alternative ← joinBranches otherwise further
      typed head.start (Typing.conditional head.condition head.body alternative)) s fun e t =>
        Read w m (d + 1) (.operand e) σ (.keyword .ifBranch :: input) t := by
  refine (ends_bind _ _).2 ((ends_joinBranches _ _ s).mono ?_ fun _ _ _ => trivial)
  rintro onFalse _ ⟨rfl, hnested⟩
  refine (ends_typed _ _).2 ⟨fun e he _ => ?_, fun _ _ => trivial⟩
  exact ⟨σ', rest, hs, .conditional hc hbody (hchain.alternative hotherwise hnested)
    (chosen_iff.1 he)⟩

theorem quiet_conditional (ho : SoundOperand w d operand) {input : List TokenKind}
    (hs : Stands w m σ (.keyword .ifBranch :: input) s) :
    Quiet w.errors (conditional operand) s fun e t =>
      Read w m (d + 1) (.operand e) σ (.keyword .ifBranch :: input) t := by
  unfold conditional
  refine Quiet.bind hs.errors (calm_branch ho.calm _) (fun head => calm_bind calm_get fun _ =>
    calm_bind (motion_louder.keeps_furtherBranches ho.calm _ _) fun _ => calm_lastBranch ho.calm head _)
    (quiet_branch ho hs) ?_
  rintro head t ⟨σ₁, body, σ₂, rest, ht, hc, hbody⟩
  refine (ends_bind _ _).2 (ends_get.2 ?_)
  refine Quiet.bind ht.errors (motion_louder.keeps_furtherBranches ho.calm _ _)
    (fun further => calm_lastBranch ho.calm head further)
    (quiet_furtherBranches ho _ [] σ₂ rest t ht) ?_
  rintro _ u ⟨further, σ₃, rest₃, rfl, hu, hchain⟩
  refine (ends_bind _ _).2 (ends_kind.2 ?_)
  dsimp only
  split
  · next hk =>
    obtain ⟨input₃, rfl⟩ := hu.cons
    rw [hk] at hu hchain
    have hnext := hu.bump (by simp) rfl
    refine (ends_bind _ _).2 (ends_bump.2 ((ends_bind _ _).2 (ends_kind.2 ?_)))
    split
    · exact quiet_failHere _
    · next hcurly =>
      obtain ⟨input₄, rfl⟩ := hnext.cons
      rw [Decidable.not_not.1 hcurly] at hnext hchain
      have hblock : Quiet w.errors (some <$> block operand) u.bump fun otherwise v =>
          ∃ e σ' last, otherwise = some e ∧ Stands w m σ' last v ∧
            Derives w.functions w.externs d (.body σ₃.blocks.length e) σ₃.openBlock
              (.symbol .openCurly :: input₄) σ' last :=
        (ends_map _ _).2 ((quiet_block ho hnext).mono fun e v ⟨σ', last, hv, hd⟩ =>
          ⟨e, σ', last, rfl, hv, hd⟩)
      refine Quiet.bind hnext.errors (fun s => (ends_map _ _).2 (calm_block ho.calm s))
        (fun _ => calm_joined _ _ _) hblock ?_
      rintro _ v ⟨e, σ', last, rfl, hv, hd⟩
      exact quiet_joined hc hbody hchain (.otherwise hd) hv
  · exact (ends_bind _ _).2 ((ends_pure _).2 (quiet_joined hc hbody hchain .noAlternative hu))

/-! ### Operands -/

theorem quiet_signed (ho : SoundOperand w d operand) {sign : Symbol} {op : UnaryOp}
    (hsign : Sign sign op) {input : List TokenKind} (hs : Stands w m σ (.symbol sign :: input) s) :
    Quiet w.errors (signed operand op) s fun e t =>
      Read w m (d + 1) (.operand e) σ (.symbol sign :: input) t := by
  unfold signed
  have hone := hs.bump (by simp) (by cases hsign <;> rfl)
  refine (ends_bind _ _).2 (ends_token.2 ((ends_bind _ _).2 (ends_bump.2 ?_)))
  refine Quiet.bind hone.errors ho.calm (fun _ => calm_typed _ _) (ho.reads m σ input s.bump hone) ?_
  rintro e t ⟨σ', rest, ht, hderives⟩
  refine (ends_typed _ _).2 ⟨fun e' he _ => ?_, fun _ _ => trivial⟩
  obtain ⟨hvalue, rfl⟩ := Typing.unary_eq_ok_iff.1 he
  exact ⟨σ', rest, ht, .signed hsign hderives hvalue⟩

theorem quiet_bracketed (ho : SoundOperand w d operand) {input : List TokenKind}
    (hs : Stands w m σ (.symbol .openBracket :: input) s) :
    Quiet w.errors (bracketed operand) s fun e t =>
      Read w m (d + 1) (.operand e) σ (.symbol .openBracket :: input) t := by
  unfold bracketed
  have hone := hs.bump_brackets (by simp) (s.brackets + 1) (by rw [hs.brackets]; rfl)
  refine (ends_bind _ _).2 (ends_token.2 ((ends_bind _ _).2 (ends_openBracket.2 ?_)))
  refine (ends_bind _ _).2 (ends_kind.2 ?_)
  dsimp only
  split
  · exact quiet_failAt _ _
  refine Quiet.bind hone.errors (calm_expression ho.calm) ?_ (quiet_expression ho hone) ?_
  · intro e
    refine calm_bind calm_kind fun found => ?_
    split
    · exact calm_bind (calm_failHere _) fun _ => calm_bind calm_closeBracket fun _ => calm_pure _
    · exact calm_bind calm_closeBracket fun _ => calm_pure _
  rintro e t ⟨σ', rest, ht, hderives⟩
  refine (ends_bind _ _).2 (ends_kind.2 ?_)
  split
  · exact quiet_failHere _
  · next hk =>
    obtain ⟨rest, rfl⟩ := ht.cons
    rw [Decidable.not_not.1 hk] at ht hderives
    have hout := ht.bump_brackets (by simp) (t.brackets - 1) (by rw [ht.brackets]; rfl)
    exact (ends_bind _ _).2 (ends_closeBracket.2 fun _ => ⟨σ', rest, hout, .bracketed hderives⟩)

theorem quiet_operandWith (ho : SoundOperand w d operand) (hs : Stands w m σ toks s) :
    Quiet w.errors (operandWith operand) s fun e t => Read w m (d + 1) (.operand e) σ toks t := by
  unfold operandWith
  obtain ⟨input, rfl⟩ := hs.cons
  refine (ends_bind _ _).2 (ends_token.2 ?_)
  split
  · next hk =>
    rw [hk] at hs ⊢
    exact quiet_signed ho .minus hs
  · next hk =>
    rw [hk] at hs ⊢
    exact quiet_signed ho .plus hs
  · next hk =>
    rw [hk] at hs ⊢
    exact quiet_bracketed ho hs
  · next hk =>
    rw [hk] at hs ⊢
    refine (quiet_block ho hs).mono ?_
    rintro e t ⟨σ', rest, ht, hderives⟩
    exact ⟨σ', rest, ht, .block hderives⟩
  · next value hk =>
    rw [hk] at hs ⊢
    exact (ends_bind _ _).2 (ends_bump.2 fun _ => ⟨σ, input, hs.bump (by simp) rfl, .number⟩)
  · next name hk =>
    rw [hk] at hs ⊢
    have hone := hs.bump (by simp) rfl
    refine (ends_bind _ _).2 (ends_bump.2 ((ends_bind _ _).2 (ends_kind.2 ?_)))
    split
    · next hopen =>
      obtain ⟨input₁, rfl⟩ := hone.cons
      rw [hopen] at hone ⊢
      exact quiet_call ho name _ hone
    · exact quiet_readVariable name _ hone
  · next hk =>
    rw [hk] at hs ⊢
    exact quiet_conditional ho hs
  · exact quiet_failHere _

theorem soundOperand_operandWithin (w : World) (d : Nat) : SoundOperand w d (operandWithin d) := by
  induction d generalizing w with
  | zero => exact ⟨motion_louder.keeps_operandWithin 0, fun _ _ _ _ _ => quiet_failHere _⟩
  | succ d ih =>
    refine ⟨motion_louder.keeps_operandWithin (d + 1), fun m σ toks s hs => ?_⟩
    refine quiet_nested ((quiet_operandWith (ih _) hs.descend).mono ?_)
    rintro e t ⟨σ', rest, ht, hderives⟩
    exact ⟨σ', rest, ht.ascend, hderives⟩

end ScalarJit.Grammar
