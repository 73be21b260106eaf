import ScalarJit.Proofs.Language.Sound

/-! # Operators of all levels

What comes next decides where a reader stops, so each part is read before a token that cannot belong
to it. The two loops fold operators onto the first operand, whatever levels it is derived by. -/

namespace ScalarJit.Grammar

def Succeeds {α : Type} (m : ParseM α) (s : State) (Q : α → State → Prop) : Prop :=
  Ends m s Q fun _ _ => False

theorem Succeeds.run {α : Type} {m : ParseM α} {s : State} {Q : α → State → Prop}
    (h : Succeeds m s Q) : ∃ a t, m s = .ok a t ∧ Q a t := by
  obtain ⟨hok, herr⟩ := ends_iff.1 h
  cases hm : m s with
  | ok a t => exact ⟨a, t, rfl, hok a t hm⟩
  | error p t => exact (herr p t hm).elim

theorem Succeeds.mono {α : Type} {m : ParseM α} {s : State} {Q R : α → State → Prop}
    (h : Succeeds m s Q) (imp : ∀ a t, Q a t → R a t) : Succeeds m s R :=
  Ends.mono h imp fun _ _ he => he

theorem Succeeds.bind {α β : Type} {m : ParseM α} {f : α → ParseM β} {s : State}
    {Q : α → State → Prop} {R : β → State → Prop} (h : Succeeds m s Q)
    (next : ∀ a t, Q a t → Succeeds (f a) t R) : Succeeds (m >>= f) s R :=
  Ends.bind h next

theorem succeeds_typed {start : Token} {result : Except TypeFault Expr} {e : Expr} {s : State}
    {Q : Expr → State → Prop} (h : result = .ok e) (hq : Q e s) :
    Succeeds (typed start result) s Q := by
  subst h
  exact hq

/-- A reader reads a part, as one value. -/
def ReadsAs {α : Type} (w : World) (reader : ParseM α) (a : α) (σ : Scope) (input : List TokenKind)
    (σ' : Scope) (rest : List TokenKind) : Prop :=
  ∀ m s, Stands w m σ input s → Succeeds reader s fun a' t => a' = a ∧ Stands w m σ' rest t

theorem ReadsAs.bind {α β : Type} {w : World} {m : Mode} {reader : ParseM α} {f : α → ParseM β} {a : α}
    {σ σ' : Scope} {input rest : List TokenKind} {s : State} {Q : β → State → Prop}
    (h : ReadsAs w reader a σ input σ' rest) (hs : Stands w m σ input s)
    (next : ∀ t, Stands w m σ' rest t → Succeeds (f a) t Q) : Succeeds (reader >>= f) s Q := by
  refine Succeeds.bind (h m s hs) ?_
  intro a' t hread
  rw [hread.1]
  exact next t hread.2

/-! ### What may follow -/

/-- A token that does not belong to the operand before it. -/
def Follow (k : TokenKind) : Prop :=
  k ≠ .symbol .openBracket ∧ k ≠ .keyword .elifBranch ∧ k ≠ .keyword .elseBranch

def Followed (rest : List TokenKind) : Prop := ∀ k more, rest = k :: more → Follow k

/-- What comes after operands that are joined by operators of a level. -/
def Stopped (n : Nat) (rest : List TokenKind) : Prop :=
  ∀ k more, rest = k :: more → Follow k ∧ Compatible n k

def Finished (rest : List TokenKind) : Prop :=
  ∀ k more, rest = k :: more → Follow k ∧ Operator.ofToken? k = none

theorem follow_operator {sign : Symbol} {op : Operator} (h : Operator.ofSymbol? sign = some op) :
    Follow (.symbol sign) := by
  refine ⟨?_, by simp, by simp⟩
  intro heq
  cases heq
  cases h

theorem Stopped.followed {n : Nat} {rest : List TokenKind} (h : Stopped n rest) : Followed rest :=
  fun k more heq => (h k more heq).1

theorem Stopped.weaken {n q : Nat} {rest : List TokenKind} (h : Stopped n rest) (hq : n ≤ q) :
    Stopped q rest := by
  intro k more heq
  obtain ⟨hfollow, hcompatible⟩ := h k more heq
  refine ⟨hfollow, fun op hop => ?_⟩
  rcases hcompatible op hop with hlt | ⟨hprec, hleft⟩
  · exact .inl (by omega)
  · by_cases heq : op.precedence = q
    · exact .inr ⟨heq, hleft⟩
    · exact .inl (by omega)

theorem stopped_operator {n : Nat} {sign : Symbol} {op : Operator} {mid : List TokenKind}
    (h : Operator.ofSymbol? sign = some op)
    (hn : op.precedence < n ∨ op.precedence = n ∧ op.groupsRight = false) :
    Stopped n (.symbol sign :: mid) := by
  intro k more heq
  cases heq
  refine ⟨follow_operator h, fun op' hop' => ?_⟩
  have hop' : Operator.ofSymbol? sign = some op' := hop'
  rw [h, Option.some_inj] at hop'
  rw [← hop']
  exact hn

theorem Finished.stopped {rest : List TokenKind} (h : Finished rest) (n : Nat) : Stopped n rest := by
  intro k more heq
  obtain ⟨hfollow, hnone⟩ := h k more heq
  refine ⟨hfollow, fun op hop => ?_⟩
  rw [hnone] at hop
  cases hop

theorem finished_cons {k : TokenKind} {rest : List TokenKind} (hfollow : Follow k)
    (hnone : Operator.ofToken? k = none) : Finished (k :: rest) := by
  intro k' more heq
  cases heq
  exact ⟨hfollow, hnone⟩

theorem StatementEnd.finished {rest : List TokenKind} (h : StatementEnd rest) : Finished rest := by
  intro k more heq
  subst heq
  rcases h with hk | hk
  · cases hk
    exact ⟨⟨by simp, by simp, by simp⟩, rfl⟩
  · cases hk
    exact ⟨⟨by simp, by simp, by simp⟩, rfl⟩

/-! ### Operators -/

section
variable {w : World} {m : Mode} {d : Nat} {operand : ParseM Expr} {s t : State} {σ σ' : Scope}
  {toks rest : List TokenKind} {Q : Expr → State → Prop}

theorem succeeds_climb_iff {bound least : Nat} {e : Expr} (hbelow : Below least t.token.kind) :
    Succeeds (climb operand bound least e) t Q ↔ Q e t := by
  cases bound with
  | zero =>
    rw [climb]
    exact Iff.rfl
  | succ bound =>
    rw [climb]
    refine (ends_bind _ _).trans (ends_operator?.trans ?_)
    cases hop : Operator.ofToken? t.token.kind with
    | none => exact Iff.rfl
    | some op =>
      dsimp only
      rw [if_pos (hbelow op hop)]
      exact Iff.rfl

theorem succeeds_tighten_stop {bound : Nat} {op : Operator} {e : Expr}
    (hcompatible : Compatible op.precedence t.token.kind) (h : Q e t) :
    Succeeds (tighten operand bound op e) t Q := by
  cases bound with
  | zero =>
    rw [tighten]
    exact h
  | succ bound =>
    rw [tighten]
    refine (ends_bind _ _).2 (ends_operator?.2 ?_)
    cases hop : Operator.ofToken? t.token.kind with
    | none => exact h
    | some next =>
      dsimp only
      have hnext := hcompatible next hop
      rw [if_neg (by omega), if_neg]
      · exact h
      · rintro ⟨heq, hright⟩
        rcases hnext with hlt | ⟨-, hleft⟩
        · omega
        · rw [hleft] at hright
          cases hright

/-- Operands that are joined by operators of a level: the first of them, and how the loops fold what
follows onto it. -/
structure Folds (w : World) (d n : Nat) (e : Expr) (σ : Scope) (input : List TokenKind) (σ' : Scope)
    (rest : List TokenKind) (first : Expr) (σ₁ : Scope) (rest₁ : List TokenKind) : Prop where
  length : rest₁.length < input.length
  progress : rest₁ = rest ∨ rest.length < rest₁.length
  operand : ReadsAs w (operandWithin d) first σ input σ₁ rest₁
  climbs : ∀ m least bound t Q, least ≤ n → Stands w m σ₁ rest₁ t → rest₁.length ≤ bound →
    (∀ u bound', Stands w m σ' rest u → rest.length ≤ bound' →
      Succeeds (climb (operandWithin d) bound' least e) u Q) →
    Succeeds (climb (operandWithin d) bound least first) t Q
  tightens : ∀ m op bound t Q, op.tightness = n → Stopped op.precedence rest →
    Stands w m σ₁ rest₁ t → rest₁.length + 1 ≤ bound → (∀ u, Stands w m σ' rest u → Q e u) →
    Succeeds (tighten (operandWithin d) bound op first) t Q

theorem Stands.below (h : Stands w m σ rest t) {n : Nat} {op : Operator}
    (hstop : Stopped op.precedence rest) (hn : op.tightness = n) : Below n t.token.kind := by
  obtain ⟨more, rfl⟩ := h.cons
  intro next hnext
  have hcompatible := (hstop _ more rfl).2 next hnext
  rw [Operator.tightness] at hn
  cases hright : op.groupsRight with
  | true =>
    rw [if_pos hright] at hn
    rcases hcompatible with hlt | ⟨heq, hleft⟩
    · omega
    · rw [← Operator.groupsRight_eq heq.symm, hright] at hleft
      cases hleft
  | false =>
    rw [if_neg (by simp [hright])] at hn
    omega

theorem Stands.compatible (h : Stands w m σ rest t) {n : Nat} (hstop : Stopped n rest) :
    Compatible n t.token.kind := by
  obtain ⟨more, rfl⟩ := h.cons
  exact (hstop _ more rfl).2

theorem succeeds_tighten {bound : Nat} {op : Operator} {first e : Expr} {m : Mode} {t : State}
    {rest₁ : List TokenKind}
    (hclimb : ∀ bound, rest₁.length ≤ bound →
      Succeeds (climb operand bound (op.precedence + 1) first) t
        fun e' u => e' = e ∧ Stands w m σ' rest u)
    (hstop : Stopped op.precedence rest)
    (hbound : rest₁.length + 1 ≤ bound) (h : ∀ u, Stands w m σ' rest u → Q e u) :
    Succeeds (tighten operand bound op first) t Q := by
  by_cases hbelow : Below (op.precedence + 1) t.token.kind
  · obtain ⟨rfl, hrest⟩ := (succeeds_climb_iff hbelow).1 (hclimb _ (Nat.le_refl _))
    exact succeeds_tighten_stop (hrest.compatible hstop) (h t hrest)
  · obtain ⟨next, hnext⟩ := Classical.not_forall.1 hbelow
    obtain ⟨hop, hlt⟩ := Classical.not_imp.1 hnext
    obtain ⟨bound, rfl⟩ : ∃ b, bound = b + 1 := ⟨bound - 1, by omega⟩
    rw [tighten]
    refine (ends_bind _ _).2 (ends_operator?.2 ?_)
    rw [hop]
    dsimp only
    rw [if_pos (by omega)]
    refine Succeeds.bind (hclimb bound (by omega)) ?_
    rintro _ u ⟨rfl, hu⟩
    exact succeeds_tighten_stop (hu.compatible hstop) (h u hu)

theorem Folds.length_le {n : Nat} {e first : Expr} {σ₁ : Scope} {rest₁ : List TokenKind}
    (h : Folds w d n e σ toks σ' rest first σ₁ rest₁) : rest.length ≤ rest₁.length := by
  rcases h.progress with heq | hlt
  · exact Nat.le_of_eq (by rw [heq])
  · exact Nat.le_of_lt hlt

theorem Folds.join {least bound : Nat} {sign : Symbol} {op : Operator} {lhs rhs e first : Expr}
    {m : Mode} {t : State} {σ₁ σ₂ : Scope} {mid rest₁ : List TokenKind}
    (h : Folds w d op.tightness rhs σ₁ mid σ' rest first σ₂ rest₁)
    (hop : Operator.ofSymbol? sign = some op) (hstop : Stopped op.precedence rest)
    (hleast : least ≤ op.precedence) (he : Joined op lhs rhs e) (hlen : rest.length < mid.length)
    (ht : Stands w m σ₁ (.symbol sign :: mid) t) (hbound : mid.length + 1 ≤ bound)
    (hnext : ∀ u bound', Stands w m σ' rest u → rest.length ≤ bound' →
      Succeeds (climb (operandWithin d) bound' least e) u Q) :
    Succeeds (climb (operandWithin d) bound least lhs) t Q := by
  obtain ⟨bound, rfl⟩ : ∃ b, bound = b + 1 := ⟨bound - 1, by omega⟩
  have hkind : Operator.ofToken? t.token.kind = some op := by
    rw [ht.kind_eq]
    exact hop
  rw [climb]
  refine (ends_bind _ _).2 (ends_operator?.2 ?_)
  rw [hkind]
  dsimp only
  rw [if_neg (by omega)]
  refine (ends_bind _ _).2 (ends_token.2 ((ends_bind _ _).2 (ends_bump.2 ?_)))
  have hlength := h.length
  refine h.operand.bind (ht.bump (by simp) (Mode.after_operator hop m)) fun u hu => ?_
  refine Succeeds.bind (h.tightens m op bound u
    (fun e' v => e' = rhs ∧ Stands w m σ' rest v) rfl hstop hu (by omega) fun v hv => ⟨rfl, hv⟩) ?_
  rintro _ v ⟨rfl, hv⟩
  refine (ends_bind _ _).2 ((ends_combineAt _ _ _ _).2 ⟨fun e' he' => ?_, fun c hc => ?_⟩)
  · rw [joined_iff.2 he] at he'
    cases he'
    exact hnext v bound hv (by omega)
  · rw [joined_iff.2 he] at hc
    cases hc

theorem folds_tightest {e : Expr} (hlen : rest.length < toks.length)
    (h : ReadsAs w (operandWithin d) e σ toks σ' rest) :
    Folds w d 6 e σ toks σ' rest e σ' rest where
  length := hlen
  progress := .inl rfl
  operand := h
  climbs _ _ bound t _ _ ht hbound hnext := hnext t bound ht hbound
  tightens _ _ _ t _ _ hstop ht _ hq := succeeds_tighten_stop (ht.compatible hstop) (hq t ht)

theorem Folds.looser {n : Nat} {e first : Expr} {σ₁ : Scope} {rest₁ : List TokenKind}
    (h : Folds w d (n + 1) e σ toks σ' rest first σ₁ rest₁) :
    Folds w d n e σ toks σ' rest first σ₁ rest₁ where
  length := h.length
  progress := h.progress
  operand := h.operand
  climbs m least bound t Q hle := h.climbs m least bound t Q (Nat.le_succ_of_le hle)
  tightens m op bound t Q hn hstop ht hbound hq := by
    refine succeeds_tighten (fun bound hb => ?_) hstop hbound hq
    have hle : op.precedence + 1 ≤ n + 1 := hn ▸ Nat.succ_le_succ op.precedence_le_tightness
    exact h.climbs m (op.precedence + 1) bound t _ hle ht hb fun u _ hu _ =>
      (succeeds_climb_iff (hu.compatible hstop).below_succ).2 ⟨rfl, hu⟩

/-- What is folded onto the left-hand side, and then the operator with its right-hand side. -/
theorem Folds.climbs_join {n least bound : Nat} {sign : Symbol} {op : Operator}
    {lhs rhs e first second : Expr} {m : Mode} {t : State} {σ₁ σ₂ σ₃ : Scope}
    {mid rest₁ rest₂ : List TokenKind}
    (hl : Folds w d n lhs σ toks σ₁ (.symbol sign :: mid) first σ₂ rest₁)
    (hr : Folds w d op.tightness rhs σ₁ mid σ' rest second σ₃ rest₂)
    (hop : Operator.ofSymbol? sign = some op) (hn : op.precedence ≤ n) (he : Joined op lhs rhs e)
    (hlen : rest.length < mid.length) (hstop : Stopped op.precedence rest)
    (hleast : least ≤ op.precedence) (ht : Stands w m σ₂ rest₁ t) (hbound : rest₁.length ≤ bound)
    (hnext : ∀ u bound', Stands w m σ' rest u → rest.length ≤ bound' →
      Succeeds (climb (operandWithin d) bound' least e) u Q) :
    Succeeds (climb (operandWithin d) bound least first) t Q :=
  hl.climbs m least bound t Q (Nat.le_trans hleast hn) ht hbound fun _ _ hu hb =>
    hr.join hop hstop hleast he hlen hu hb hnext

theorem Folds.joinLeft {sign : Symbol} {op : Operator} {lhs rhs e first second : Expr}
    {σ₁ σ₂ σ₃ : Scope} {mid rest₁ rest₂ : List TokenKind}
    (hop : Operator.ofSymbol? sign = some op) (hleft : op.groupsRight = false)
    (hl : Folds w d op.precedence lhs σ toks σ₁ (.symbol sign :: mid) first σ₂ rest₁)
    (hr : Folds w d (op.precedence + 1) rhs σ₁ mid σ' rest second σ₃ rest₂)
    (he : Joined op lhs rhs e) (hlen : rest.length < mid.length)
    (hstop : Stopped op.precedence rest) :
    Folds w d op.precedence e σ toks σ' rest first σ₂ rest₁ := by
  have htight : op.tightness = op.precedence + 1 := by
    rw [Operator.tightness, if_neg (by simp [hleft])]
  have hmid : mid.length + 1 ≤ rest₁.length := hl.length_le
  rw [← htight] at hr
  refine ⟨hl.length, .inr (by omega), hl.operand, fun m least bound t Q hle ht hbound =>
    hl.climbs_join hr hop (Nat.le_refl _) he hlen hstop hle ht hbound, ?_⟩
  intro m op' bound t Q hn hstop' ht hbound hq
  -- An operator of this level that groups to the right there is not.
  have hprec : op'.precedence + 1 = op.precedence := by
    rw [Operator.tightness] at hn
    split at hn
    · next hright =>
      rw [Operator.groupsRight_eq hn, hleft] at hright
      cases hright
    · exact hn
  refine succeeds_tighten (fun bound hb => ?_) hstop' hbound hq
  exact hl.climbs_join hr hop (Nat.le_refl _) he hlen hstop (Nat.le_of_eq hprec) ht hb fun u _ hu _ =>
    (succeeds_climb_iff (hu.compatible hstop').below_succ).2 ⟨rfl, hu⟩

/-- An operator before another of its level that groups to the right: its right-hand side takes that
one too. -/
theorem Folds.tightens_join {bound : Nat} {sign : Symbol} {op op' : Operator}
    {lhs rhs e second : Expr} {m : Mode} {u : State} {σ₁ σ₃ : Scope} {mid rest₂ : List TokenKind}
    (hr : Folds w d op.tightness rhs σ₁ mid σ' rest second σ₃ rest₂)
    (hop : Operator.ofSymbol? sign = some op) (hright : op.groupsRight = true)
    (hsame : op'.precedence = op.precedence) (he : Joined op lhs rhs e)
    (hlen : rest.length < mid.length) (hstop : Stopped op.precedence rest)
    (hu : Stands w m σ₁ (.symbol sign :: mid) u) (hbound : mid.length + 2 ≤ bound)
    (hq : ∀ u, Stands w m σ' rest u → Q e u) :
    Succeeds (tighten (operandWithin d) bound op' lhs) u Q := by
  have htight : op.tightness = op.precedence := by rw [Operator.tightness, if_pos hright]
  obtain ⟨bound, rfl⟩ : ∃ b, bound = b + 1 := ⟨bound - 1, by omega⟩
  have hkind : Operator.ofToken? u.token.kind = some op := by
    rw [hu.kind_eq]
    exact hop
  rw [tighten]
  refine (ends_bind _ _).2 (ends_operator?.2 ?_)
  rw [hkind]
  dsimp only
  rw [if_neg (by omega), if_pos ⟨hsame.symm, hright⟩]
  have hfold : Succeeds (climb (operandWithin d) bound op'.precedence lhs) u
      fun e' v => e' = e ∧ Stands w m σ' rest v :=
    hr.join hop hstop (Nat.le_of_eq hsame) he hlen hu (by omega) fun v _ hv _ =>
      (succeeds_climb_iff (hsame ▸ hv.below hstop htight)).2 ⟨rfl, hv⟩
  refine Succeeds.bind hfold ?_
  rintro _ v ⟨rfl, hv⟩
  exact succeeds_tighten_stop (hv.compatible (hsame ▸ hstop)) (hq v hv)

theorem Folds.joinRight {sign : Symbol} {op : Operator} {lhs rhs e first second : Expr}
    {σ₁ σ₂ σ₃ : Scope} {mid rest₁ rest₂ : List TokenKind}
    (hop : Operator.ofSymbol? sign = some op) (hright : op.groupsRight = true)
    (hl : Folds w d (op.precedence + 1) lhs σ toks σ₁ (.symbol sign :: mid) first σ₂ rest₁)
    (hr : Folds w d op.precedence rhs σ₁ mid σ' rest second σ₃ rest₂)
    (he : Joined op lhs rhs e) (hlen : rest.length < mid.length)
    (hstop : Stopped op.precedence rest) :
    Folds w d op.precedence e σ toks σ' rest first σ₂ rest₁ := by
  have htight : op.tightness = op.precedence := by rw [Operator.tightness, if_pos hright]
  have hmid : mid.length + 1 ≤ rest₁.length := hl.length_le
  rw [← htight] at hr
  refine ⟨hl.length, .inr (by omega), hl.operand, fun m least bound t Q hle ht hbound =>
    hl.climbs_join hr hop (Nat.le_succ _) he hlen hstop hle ht hbound, ?_⟩
  intro m op' bound t Q hn hstop' ht hbound hq
  rw [Operator.tightness] at hn
  split at hn
  · -- Tighter operators make the left-hand side, and then this one is met.
    have hlhs : ∀ bound, rest₁.length ≤ bound →
        Succeeds (climb (operandWithin d) bound (op'.precedence + 1) first) t
          fun e' u => e' = lhs ∧ Stands w m σ₁ (.symbol sign :: mid) u := by
      intro bound hb
      rw [hn]
      refine hl.climbs m _ bound t _ (Nat.le_refl _) ht hb fun u _ hu _ => ?_
      refine (succeeds_climb_iff (below_of_lt ?_ (Nat.lt_succ_self _))).2 ⟨rfl, hu⟩
      rw [hu.kind_eq]
      exact hop
    by_cases hbelow : Below (op'.precedence + 1) t.token.kind
    · obtain ⟨rfl, hrest⟩ := (succeeds_climb_iff hbelow).1 (hlhs _ (Nat.le_refl _))
      exact hr.tightens_join hop hright hn he hlen hstop hrest (by omega) hq
    · obtain ⟨next, hnext⟩ := Classical.not_forall.1 hbelow
      obtain ⟨hop', hlt⟩ := Classical.not_imp.1 hnext
      obtain ⟨bound, rfl⟩ : ∃ b, bound = b + 1 := ⟨bound - 1, by omega⟩
      rw [tighten]
      refine (ends_bind _ _).2 (ends_operator?.2 ?_)
      rw [hop']
      dsimp only
      rw [if_pos (by omega)]
      refine Succeeds.bind (hlhs bound (by omega)) ?_
      rintro _ u ⟨rfl, hu⟩
      have hlt : (TokenKind.symbol sign :: mid).length < rest₁.length := by
        have hsucc : op.precedence < op'.precedence + 1 := Nat.lt_succ_of_le (Nat.le_of_eq hn.symm)
        refine hl.progress.resolve_left fun heq => hbelow (below_of_lt ?_ hsucc)
        rw [heq] at ht
        rw [ht.kind_eq]
        exact hop
      exact hr.tightens_join hop hright hn he hlen hstop hu
        (by simp only [List.length_cons] at hlt; omega) hq
  · refine succeeds_tighten (fun bound hb => ?_) hstop' hbound hq
    exact hl.climbs_join hr hop (Nat.le_succ _) he hlen hstop (Nat.le_of_eq hn) ht hb fun u _ hu _ =>
      (succeeds_climb_iff (hu.compatible hstop').below_succ).2 ⟨rfl, hu⟩

theorem Folds.reads_expression {e first : Expr} {σ₁ : Scope} {rest₁ : List TokenKind}
    (h : Folds w d 1 e σ toks σ' rest first σ₁ rest₁) (hfinished : Finished rest) :
    ReadsAs w (expression (operandWithin d)) e σ toks σ' rest := by
  intro m s hs
  unfold expression
  refine h.operand.bind hs fun t ht => (ends_bind _ _).2 (ends_get.2 ?_)
  have hle := ht.length_le
  refine h.climbs m 1 _ t _ (Nat.le_refl 1) ht (by omega) fun u _ hu _ => ?_
  refine (succeeds_climb_iff ?_).2 ⟨rfl, hu⟩
  obtain ⟨more, rfl⟩ := hu.cons
  intro op hop
  rw [(hfinished _ more rfl).2] at hop
  cases hop

end
end ScalarJit.Grammar
