import Mathlib.Data.List.Forall2
import ScalarJit.Proofs.Isolation.Ahead
import ScalarJit.Proofs.Language.SoundDeclarations
import ScalarJit.Proofs.Lockstep.Steps

/-! # Every reader goes in step

Every reader, from an operator to a whole program, ends in the same way for both. Loops have bounds
that depend on the length of a text; each is large enough for what the first reader has left, so that it
is never used up by either. -/

namespace ScalarJit.Grammar.Lockstep

variable {L : Lockstep} {s s' t t' : State} {bound bound' : Nat}

/-! ### Recovery -/

theorem meets_skipStatement (depth : Nat) (h : L.beside s s') (hbound : L.left s ≤ bound)
    (hbound' : L.left s ≤ bound') :
    L.Meets s (s.skipStatement bound depth) (s'.skipStatement bound' depth) := by
  have hpos := L.left_pos s
  induction bound generalizing bound' depth s s' with
  | zero => omega
  | succ bound ih =>
    obtain ⟨bound', rfl⟩ : ∃ n, bound' = n + 1 := ⟨bound' - 1, by omega⟩
    have next : ∀ depth : Nat, s.token.kind ≠ .endOfFile →
        L.Meets s (s.bump.skipStatement bound depth) (s'.bump.skipStatement bound' depth) := by
      intro depth hne
      have hlt := L.left_bump h hne
      exact Meets.next (g := fun t => t.skipStatement bound' depth) (meets_bump h)
        fun t' ht => ih depth ht (by omega) (by omega) (L.left_pos _)
    rw [State.skipStatement, State.skipStatement, L.kind_eq h]
    split
    · exact meets_refl h
    · next hk =>
      split
      · exact meets_refl h
      · exact next _ (by simp [hk])
    · next hk =>
      split
      · exact meets_refl h
      · exact next _ (by simp [hk])
    · next hk => exact next _ (by simp [hk])
    · next hend hnewline hclosed hopen => exact next _ hend

theorem meets_endStatement (h : L.beside s s') : L.Meets s s.endStatement s'.endStatement := by
  have hopen := L.setBrackets h 0
  have hroom := L.left_remaining hopen
  have hstill : L.passes s { s with brackets := 0 } := L.still h rfl rfl rfl
  exact (meets_skipStatement 0 hopen hroom.1 hroom.2).trans hstill (.inr rfl)

theorem left_endStatement (h : L.beside s s') (hk : endsStatement s.token.kind = false) :
    L.left s.endStatement < L.left s := by
  have hne : s.token.kind ≠ .endOfFile := by
    intro hend
    rw [hend] at hk
    cases hk
  have hopen := L.setBrackets h 0
  have hlt := L.left_bump hopen hne
  rw [left_brackets h] at hlt
  have hroom := (L.left_remaining h).1
  rw [State.remaining] at hroom
  have next : ∀ depth, L.left (({ s with brackets := 0 } : State).bump.skipStatement
      (s.lexer.rest.length + 1) depth) < L.left s := by
    intro depth
    obtain ⟨-, t', ht, -⟩ := L.bump_beside hopen
    have hbound : L.left ({ s with brackets := 0 } : State).bump ≤ s.lexer.rest.length + 1 := by omega
    have hskip := (meets_skipStatement depth ht hbound (Nat.le_refl _)).left_le
    exact Nat.lt_of_le_of_lt hskip hlt
  show L.left (({ s with brackets := 0 } : State).skipStatement (s.lexer.rest.length + 1 + 1) 0) <
    L.left s
  rw [State.skipStatement]
  split
  · next hend => exact absurd hend hne
  · next hnewline =>
    rw [show s.token.kind = .newline from hnewline] at hk
    cases hk
  · next hclosed =>
    rw [show s.token.kind = .symbol .closedCurly from hclosed] at hk
    cases hk
  · exact next _
  · exact next _

theorem meets_skipDeclaration (depth : Nat) (h : L.beside s s') (hbound : L.left s ≤ bound)
    (hbound' : L.left s ≤ bound') :
    L.Meets s (s.skipDeclaration bound depth) (s'.skipDeclaration bound' depth) := by
  have hpos := L.left_pos s
  induction bound generalizing bound' depth s s' with
  | zero => omega
  | succ bound ih =>
    obtain ⟨bound', rfl⟩ : ∃ n, bound' = n + 1 := ⟨bound' - 1, by omega⟩
    have next : ∀ depth : Nat, s.token.kind ≠ .endOfFile →
        L.Meets s (s.bump.skipDeclaration bound depth) (s'.bump.skipDeclaration bound' depth) := by
      intro depth hne
      have hlt := L.left_bump h hne
      exact Meets.next (g := fun t => t.skipDeclaration bound' depth) (meets_bump h)
        fun t' ht => ih depth ht (by omega) (by omega) (L.left_pos _)
    rw [State.skipDeclaration, State.skipDeclaration, L.kind_eq h]
    split
    · exact meets_refl h
    · next hk =>
      split
      · exact meets_refl h
      · exact next _ (by simp [hk])
    · next hk =>
      split
      · exact meets_bump h
      · exact next _ (by simp [hk])
    · next hk => exact next _ (by simp [hk])
    · next hend hnewline hclosed hopen => exact next _ hend

theorem meets_endDeclaration (h : L.beside s s') : L.Meets s s.endDeclaration s'.endDeclaration := by
  have hopen := L.setBrackets h 0
  have hroom := L.left_remaining hopen
  have hstill : L.passes s { s with brackets := 0 } := L.still h rfl rfl rfl
  exact (meets_skipDeclaration 0 hopen hroom.1 hroom.2).trans hstill (.inr rfl)

theorem meets_skipNewlines (h : L.beside s s') (hbound : L.left s ≤ bound)
    (hbound' : L.left s ≤ bound') : L.Meets s (skipNewlines bound s) (skipNewlines bound' s') := by
  have hpos := L.left_pos s
  induction bound generalizing bound' s s' with
  | zero => omega
  | succ bound ih =>
    obtain ⟨bound', rfl⟩ : ∃ n, bound' = n + 1 := ⟨bound' - 1, by omega⟩
    rw [skipNewlines, skipNewlines, L.kind_eq h]
    split
    · next hk =>
      have hlt := L.left_bump h (by simp [hk])
      exact Meets.next (g := skipNewlines bound') (meets_bump h)
        fun t' ht => ih ht (by omega) (by omega) (L.left_pos _)
    · exact meets_refl h

/-! ### Operators -/

def InStep (L : Lockstep) (operand : ParseM Expr) : Prop :=
  ∀ s s', L.beside s s' → L.Lock Same operand operand s s'

/-- The same value, behind an operator that binds tight enough if there was one. -/
def Folded (L : Lockstep) (s : State) (least : Nat) (a a' : Expr) (t : State) : Prop :=
  a' = a ∧ ∀ op, Operator.ofToken? s.token.kind = some op → least ≤ op.precedence →
    L.left t < L.left s

/-- Operators are folded in step as long as both bounds last: a fold takes two of a bound for every
token that it passes. -/
def Climbs (L : Lockstep) (operand : ParseM Expr) (bound : Nat) : Prop :=
  ∀ bound' least lhs s s', L.beside s s' → 2 * L.left s ≤ bound → 2 * L.left s ≤ bound' →
    L.Lock (L.Folded s least) (climb operand bound least lhs) (climb operand bound' least lhs) s s'

def Tightens (L : Lockstep) (operand : ParseM Expr) (bound : Nat) : Prop :=
  ∀ bound' op rhs s s', L.beside s s' → 2 * L.left s + 1 ≤ bound → 2 * L.left s + 1 ≤ bound' →
    L.Lock Same (tighten operand bound op rhs) (tighten operand bound' op rhs) s s'

section
variable {operand : ParseM Expr}

theorem Climbs.tightens (hclimbs : L.Climbs operand bound) (htightens : L.Tightens operand bound) :
    L.Tightens operand (bound + 1) := by
  intro bound' op rhs s s' h hbound hbound'
  obtain ⟨bound', rfl⟩ : ∃ n, bound' = n + 1 := ⟨bound' - 1, by omega⟩
  -- What is folded first passes the operator, so there is less left for the rest.
  have folds : ∀ least next, Operator.ofToken? s.token.kind = some next → least ≤ next.precedence →
      L.Lock Same (climb operand bound least rhs >>= fun rhs => tighten operand bound op rhs)
        (climb operand bound' least rhs >>= fun rhs => tighten operand bound' op rhs) s s' := by
    intro least next hnext hleast
    refine Lock.bindWith (hclimbs _ least rhs s s' h (by omega) (by omega)) ?_
    rintro _ e t t' - ⟨rfl, hlt⟩ ht
    have hlt := hlt next hnext hleast
    exact htightens _ op e t t' ht (by omega) (by omega)
  rw [tighten, tighten]
  refine lock_operator? h ?_
  cases hop : Operator.ofToken? s.token.kind with
  | none => exact lock_pure h rfl
  | some next =>
    dsimp only
    split
    · next hlt => exact folds _ next hop hlt
    split
    · next heq => exact folds _ next hop (Nat.le_of_eq heq.1.symm)
    · exact lock_pure h rfl

variable (ho : L.InStep operand)

include ho

theorem InStep.climbs_succ (hclimbs : L.Climbs operand bound) (htightens : L.Tightens operand bound) :
    L.Climbs operand (bound + 1) := by
  intro bound' least lhs s s' h hbound hbound'
  have hpos := L.left_pos s
  obtain ⟨bound', rfl⟩ : ∃ n, bound' = n + 1 := ⟨bound' - 1, by omega⟩
  rw [climb, climb]
  refine lock_operator? h ?_
  cases hop : Operator.ofToken? s.token.kind with
  | none =>
    refine lock_pure h ⟨rfl, fun op hop' => ?_⟩
    rw [hop] at hop'
    cases hop'
  | some op =>
    dsimp only
    split
    · next hloose =>
      refine lock_pure h ⟨rfl, fun op' hop' htight => ?_⟩
      rw [hop] at hop'
      cases hop'
      omega
    have hne : s.token.kind ≠ .endOfFile := by
      intro hend
      rw [hend] at hop
      cases hop
    have hlt := L.left_bump h hne
    refine lock_token h fun start hstart => ?_
    refine lock_bump_bind h fun t' _ ht => ?_
    refine Lock.bind (ho _ _ ht) fun rhs u u' hu hbu => ?_
    have hle₁ := L.left_le hu
    refine Lock.bind (htightens _ op rhs u u' hbu (by omega) (by omega)) fun rhs v v' hv hbv => ?_
    have hle₂ := L.left_le hv
    refine Lock.bind (lock_combineAt hbv hstart _ _ _) fun e x x' hx hbx => ?_
    have hle₃ := L.left_le hx
    refine (hclimbs _ least e x x' hbx (by omega) (by omega)).mono fun a a' z hz ha => ⟨ha.1, ?_⟩
    have hle₄ := L.left_le hz
    intro _ _ _
    omega

theorem InStep.climbs_tightens (bound : Nat) : L.Climbs operand bound ∧ L.Tightens operand bound := by
  induction bound with
  | zero =>
    constructor
    · intro bound' least lhs s s' h hbound
      have hpos := L.left_pos s
      omega
    · intro bound' op rhs s s' h hbound
      omega
  | succ bound ih => exact ⟨ho.climbs_succ ih.1 ih.2, ih.1.tightens ih.2⟩

theorem InStep.expression (h : L.beside s s') :
    L.Lock Same (expression operand) (expression operand) s s' := by
  unfold Grammar.expression
  refine Lock.bind (ho s s' h) fun lhs t t' _ ht => lock_get ?_
  have hroom := L.left_remaining ht
  have hbound := Nat.mul_le_mul_left 2 hroom.1
  have hbound' := Nat.mul_le_mul_left 2 hroom.2
  exact ((ho.climbs_tightens _).1 _ 1 lhs t t' ht hbound hbound').mono fun _ _ _ _ ha => ha.1

/-! ### Statements and blocks -/

theorem InStep.bindValue (h : L.beside s s') (mutable : Bool) {start start' : Token}
    (hstart : L.matched start start') (name : String) (given : Option Ty) :
    L.Lock Same (bindValue operand mutable start name given)
      (bindValue operand mutable start' name given) s s' := by
  unfold Grammar.bindValue
  refine Lock.bind (lock_expectSymbol h _ _) fun _ t t' _ ht => ?_
  refine Lock.bind (ho.expression ht) fun value u u' _ hu => ?_
  have hdeclare : L.Lock Same
      (do
        let var ← modifyGet fun s => s.declare name value.ty mutable
        return Expr.bind name var value)
      (do
        let var ← modifyGet fun s => s.declare name value.ty mutable
        return Expr.bind name var value) u u' :=
    Lock.bind (lock_declare hu name value.ty mutable) fun var x x' _ hx => lock_pure hx rfl
  dsimp only
  split
  · exact lock_failAt hu hstart _
  split
  · split
    · exact lock_failAt hu hstart _
    · exact hdeclare
  · exact hdeclare

theorem InStep.binding (h : L.beside s s') (mutable : Bool) :
    L.Lock Same (binding operand mutable) (binding operand mutable) s s' := by
  unfold Grammar.binding
  refine lock_bump_bind h fun t' _ ht => ?_
  refine lock_token ht fun start hstart => ?_
  refine Lock.bind (lock_identifier ht _) fun name u u' _ hu => ?_
  refine lock_kind hu ?_
  dsimp only
  split
  · refine lock_bump_bind hu fun v' _ hv => ?_
    refine Lock.bind (Lock.map (lock_typeName hv)) fun given x x' _ hx => ?_
    exact ho.bindValue hx mutable hstart name given
  · refine Lock.bind (lock_pure hu rfl) fun given x x' _ hx => ?_
    exact ho.bindValue hx mutable hstart name given

theorem InStep.returnStatement (h : L.beside s s') :
    L.Lock Same (returnStatement operand) (returnStatement operand) s s' := by
  unfold Grammar.returnStatement
  refine lock_token h fun start hstart => ?_
  have leave : ∀ (value : Option Expr) {t t' : State}, L.beside t t' → L.Lock Same
      (do typed s.token (Typing.leave value (← get).scope.signature.result))
      (do typed start (Typing.leave value (← get).scope.signature.result)) t t' := by
    intro value t t' ht
    refine lock_get ?_
    rw [L.scope_eq ht]
    exact lock_typed ht hstart _
  refine lock_bump_bind h fun t' _ ht => ?_
  refine lock_kind ht ?_
  dsimp only
  split
  · exact Lock.bind (lock_pure ht rfl) fun value u u' _ hu => leave value hu
  · exact Lock.bind (Lock.map (ho.expression ht)) fun value u u' _ hu => leave value hu

theorem InStep.statement (h : L.beside s s') :
    L.Lock Same (statement operand) (statement operand) s s' := by
  unfold Grammar.statement
  refine lock_kind h ?_
  split
  · exact ho.binding h false
  · exact ho.binding h true
  · exact ho.returnStatement h
  · exact lock_failHere h _
  · exact lock_failHere h _
  · exact ho.expression h

theorem InStep.behindStatement (id : BlockId) (h : L.beside s s')
    (hk : endsStatement s.token.kind = false) :
    L.Meets s (behindStatement operand id s) (behindStatement operand id s') ∧
      L.left (behindStatement operand id s) < L.left s := by
  have recovered : ∀ {t t' : State} {p p' q : Problem}, L.passes s t → L.beside t t' →
      L.blamed p p' → (L.lost t ∨ q = p') →
      (L.left t = L.left s → endsStatement t.token.kind = false) →
      L.Meets t (t.report p).endStatement (t'.report q).endStatement ∧
        L.left (t.report p).endStatement < L.left s := by
    intro t t' p p' q hst ht hp hq hstuck
    have hreport := L.report ht hp
    refine ⟨Meets.next (g := State.endStatement) (meets_report ht hp hq)
      fun _ hu => meets_endStatement hu, ?_⟩
    have hle := L.left_le hst
    have hle' := L.left_le (L.still ht rfl rfl rfl : L.passes t (t.report p))
    by_cases hsame : L.left t = L.left s
    · exact Nat.lt_of_lt_of_le (left_endStatement hreport (hstuck hsame)) (by omega)
    · have hend := (meets_endStatement hreport).left_le
      omega
  have hstatement := ends_iff.1 (ho.statement h)
  unfold Grammar.behindStatement
  split
  · next problem after hrun =>
    obtain ⟨hst, p', t', hp, ht, hrun'⟩ := hstatement.2 _ _ hrun
    have hback := recovered hst ht hp (.inr rfl) fun hsame => L.kind_of_left hst hsame ▸ hk
    exact ⟨hback.1.trans hst (hrun'.imp_right fun hrun' => by rw [EStateM.run, hrun']), hback.2⟩
  next e after hrun =>
  obtain ⟨hst, e', t', he, ht, hrun'⟩ := hstatement.1 _ _ hrun
  cases he
  suffices hafter : L.Meets after
      (if !endsStatement after.token.kind then
        (after.report ⟨.unfinishedStatement, after.token.position⟩).endStatement
      else if !e.useful then after.report ⟨.uselessStatement, s.token.position⟩
      else after.addStatement id e)
      (if !endsStatement t'.token.kind then
        (t'.report ⟨.unfinishedStatement, t'.token.position⟩).endStatement
      else if !e.useful then t'.report ⟨.uselessStatement, s'.token.position⟩
      else t'.addStatement id e) ∧
      L.left (if !endsStatement after.token.kind then
        (after.report ⟨.unfinishedStatement, after.token.position⟩).endStatement
      else if !e.useful then after.report ⟨.uselessStatement, s.token.position⟩
      else after.addStatement id e) < L.left s from
    ⟨hafter.1.trans hst (hrun'.imp_right fun hrun' => by rw [EStateM.run, hrun']), hafter.2⟩
  rw [L.kind_eq ht]
  split
  · next hunfinished =>
    obtain ⟨p, hblamed, hp⟩ := blamed_here ht .unfinishedStatement
    exact recovered hst ht hblamed hp fun _ => by simpa using hunfinished
  next hfinished =>
  have hlt : L.left after < L.left s := by
    refine Nat.lt_of_le_of_ne (L.left_le hst) fun hsame => hfinished ?_
    rw [L.kind_of_left hst hsame, hk]
    rfl
  split
  · obtain ⟨p, hblamed, hp⟩ := blamed_here h .uselessStatement
    have hmeets := meets_report ht hblamed (hp.imp_left (L.lost_passes · hst))
    exact ⟨hmeets, Nat.lt_of_le_of_lt hmeets.left_le hlt⟩
  · have hmeets := meets_of_beside (beside_addStatement ht id e) (L.still ht rfl rfl rfl)
    exact ⟨hmeets, Nat.lt_of_le_of_lt hmeets.left_le hlt⟩

theorem InStep.statements (id : BlockId) (h : L.beside s s') (hbound : L.left s ≤ bound)
    (hbound' : L.left s ≤ bound') :
    L.Meets s (statements operand id bound s) (statements operand id bound' s') := by
  have hpos := L.left_pos s
  induction bound generalizing bound' s s' with
  | zero => omega
  | succ bound ih =>
    obtain ⟨bound', rfl⟩ : ∃ n, bound' = n + 1 := ⟨bound' - 1, by omega⟩
    have next : ∀ {t x : State}, L.Meets s t x → L.left t < L.left s →
        L.Meets s (Grammar.statements operand id bound t) (Grammar.statements operand id bound' x) := by
      intro t x ht hlt
      exact Meets.next (g := Grammar.statements operand id bound') ht
        fun t' ht => ih ht (by omega) (by omega) (L.left_pos t)
    have hsame := L.kind_eq h
    rcases endsStatement_cases s.token.kind with hk | hk | hk | hk
    · rw [statements_newline hk, statements_newline (hsame.trans hk)]
      exact next (meets_bump h) (L.left_bump h (by simp [hk]))
    · rw [statements_closed hk, statements_closed (hsame.trans hk)]
      exact meets_refl h
    · rw [statements_end hk, statements_end (hsame.trans hk)]
      exact meets_reportHere h _
    · rw [statements_unended hk, statements_unended (by rwa [hsame])]
      obtain ⟨hbehind, hlt⟩ := ho.behindStatement id h hk
      exact next hbehind hlt

omit ho in
theorem lock_leaveBlock (id : BlockId) (outer : Nat) (h : L.beside s s') :
    L.Lock Same (modifyGet (leaveBlock id outer)) (modifyGet (leaveBlock id outer)) s s' := by
  have leave : ∀ {t x : State}, L.Meets s t x →
      leaveBlock id outer s = (t.scope.blockExpr id, t.closeBlock id) →
      leaveBlock id outer s' = (x.scope.blockExpr id, x.closeBlock id) →
      L.Lock Same (modifyGet (leaveBlock id outer)) (modifyGet (leaveBlock id outer)) s s' := by
    rintro t x ⟨hst, t', ht, hx⟩ hs hs'
    have hstill : L.passes t (t.closeBlock id) := L.still ht rfl rfl rfl
    refine (ends_modifyGet _).2 ?_
    rw [hs]
    refine ⟨L.trans hst hstill, _, _, rfl, beside_closeBlock ht id,
      hx.imp (L.lost_passes · hstill) fun hx => ?_⟩
    show EStateM.Result.ok (leaveBlock id outer s').1 (leaveBlock id outer s').2 = _
    rw [hs', hx, L.scope_eq ht]
  by_cases hk : s.token.kind = .symbol .closedCurly
  · refine leave (meets_bump_brackets h (rfl : outer = outer)) ?_ ?_
    · unfold leaveBlock
      dsimp only
      rw [if_pos hk]
    · unfold leaveBlock
      dsimp only
      rw [if_pos ((L.kind_eq h).trans hk)]
  · refine leave (meets_of_beside (L.setBrackets h outer) (L.still h rfl rfl rfl)) ?_ ?_
    · unfold leaveBlock
      dsimp only
      rw [if_neg hk]
    · unfold leaveBlock
      dsimp only
      rw [L.kind_eq h, if_neg hk]

theorem InStep.blockBody (id : BlockId) (h : L.beside s s') :
    L.Lock Same (modifyGet (Grammar.blockBody operand id)) (modifyGet (Grammar.blockBody operand id))
      s s' := by
  have hinside := Meets.next (g := fun t => Grammar.statements operand id t.remaining t)
    (meets_bump_brackets h (rfl : 0 = 0))
    fun t' ht => ho.statements id ht (L.left_remaining ht).1 (L.left_remaining ht).2
  have hbody : L.Lock Same
      (modify (fun s => Grammar.statements operand id { s with brackets := 0 }.bump.remaining
        { s with brackets := 0 }.bump) >>= fun _ => modifyGet (leaveBlock id s.brackets))
      (modify (fun s => Grammar.statements operand id { s with brackets := 0 }.bump.remaining
        { s with brackets := 0 }.bump) >>= fun _ => modifyGet (leaveBlock id s'.brackets)) s s' := by
    rw [L.brackets_eq h]
    exact Lock.bindWith (Meets.lock hinside) fun _ _ t t' _ _ ht => lock_leaveBlock id s.brackets ht
  exact hbody

theorem InStep.block (h : L.beside s s') : L.Lock Same (block operand) (block operand) s s' := by
  have hblock : L.Lock Same
      (modifyGet State.openBlock >>= fun id => modifyGet (Grammar.blockBody operand id))
      (modifyGet State.openBlock >>= fun id => modifyGet (Grammar.blockBody operand id)) s s' :=
    Lock.bind (lock_openBlock h) fun id t t' _ ht => ho.blockBody id ht
  exact hblock

/-! ### Operands -/

theorem InStep.callArguments (callee : String) (args : List Expr) (h : L.beside s s')
    (hbound : L.left s ≤ bound) (hbound' : L.left s ≤ bound') :
    L.Lock Same (callArguments operand callee bound args) (callArguments operand callee bound' args)
      s s' := by
  have hpos := L.left_pos s
  induction bound generalizing bound' args s s' with
  | zero => omega
  | succ bound ih =>
    obtain ⟨bound', rfl⟩ : ∃ n, bound' = n + 1 := ⟨bound' - 1, by omega⟩
    rw [Grammar.callArguments, Grammar.callArguments]
    refine Lock.bind (ho.expression h) fun arg t t' hst ht => ?_
    refine lock_kind ht ?_
    have hle := L.left_le hst
    split
    · next hk =>
      have hlt := L.left_bump ht (by simp [hk])
      refine lock_bump_bind ht fun u' _ hu => ?_
      exact ih _ hu (by omega) (by omega) (L.left_pos _)
    · exact lock_pure ht rfl
    · exact lock_failHere ht _

theorem InStep.call (callee : String) (h : L.beside s s') {start start' : Token}
    (hstart : L.matched start start') :
    L.Lock Same (call operand callee start) (call operand callee start') s s' := by
  have finish : ∀ (args : List Expr) {t t' : State}, L.beside t t' →
      L.Lock Same (finishCall callee start args) (finishCall callee start' args) t t' := by
    intro args t t' ht
    unfold finishCall
    refine Lock.bind (lock_closeBracket ht) fun _ u u' _ hu => ?_
    refine lock_get ?_
    rw [signature?_eq hu callee]
    split
    · exact lock_typed hu hstart _
    · exact lock_failAt hu hstart _
  unfold Grammar.call
  refine Lock.bind (lock_openBracket h) fun _ t t' _ ht => ?_
  refine lock_kind ht ?_
  dsimp only
  split
  · exact Lock.bind (lock_pure ht rfl) fun args u u' _ hu => finish args hu
  · refine lock_get ?_
    exact Lock.bind (ho.callArguments callee [] ht (L.left_remaining ht).1 (L.left_remaining ht).2)
      fun args u u' _ hu => finish args hu

omit ho in
theorem lock_readVariable (h : L.beside s s') (name : String) {start start' : Token}
    (hstart : L.matched start start') :
    L.Lock Same (readVariable name start) (readVariable name start') s s' := by
  unfold readVariable
  refine lock_get ?_
  dsimp only [State.here]
  rw [L.scope_eq h]
  split
  · exact lock_pure h rfl
  · exact lock_failAt h hstart _

def Branches (L : Lockstep) (bs bs' : List Branch) (_ : State) : Prop :=
  List.Forall₂ (fun b b' => b'.condition = b.condition ∧ b'.body = b.body ∧ L.matched b.start b'.start)
    bs bs'

theorem InStep.branch (keyword : Keyword) (h : L.beside s s') :
    L.Lock (fun b b' t => L.Branches [b] [b'] t ∧ L.passes s.bump t) (branch operand keyword)
      (branch operand keyword) s s' := by
  unfold Grammar.branch
  refine lock_token h fun start hstart => ?_
  refine lock_bump_bind h fun t' _ ht => ?_
  refine Lock.bind (ho.expression ht) fun condition u u' htu hu => ?_
  refine lock_kind hu ?_
  dsimp only
  split
  · exact lock_failHere hu _
  · exact Lock.bind (ho.block hu) fun body v v' huv hv =>
      lock_pure hv ⟨.cons ⟨rfl, rfl, hstart⟩ .nil, L.trans htu huv⟩

theorem InStep.furtherBranches {branches branches' : List Branch} (h : L.beside s s')
    (hbranches : L.Branches branches branches' s) (hbound : L.left s ≤ bound)
    (hbound' : L.left s ≤ bound') :
    L.Lock L.Branches (furtherBranches operand bound branches) (furtherBranches operand bound' branches')
      s s' := by
  have hpos := L.left_pos s
  induction bound generalizing bound' branches branches' s s' with
  | zero => omega
  | succ bound ih =>
    obtain ⟨bound', rfl⟩ : ∃ n, bound' = n + 1 := ⟨bound' - 1, by omega⟩
    rw [Grammar.furtherBranches, Grammar.furtherBranches]
    refine lock_kind h ?_
    split
    · next hk =>
      refine Lock.bindWith (ho.branch .elifBranch h) ?_
      rintro b b' t t' - ⟨hb, hbump⟩ ht
      have hlt := L.left_bump h (by simp [hk])
      have hle := L.left_le hbump
      have hmore : L.Branches (branches ++ [b]) (branches' ++ [b']) t := List.rel_append hbranches hb
      exact ih ht hmore (by omega) (by omega) (L.left_pos t)
    · exact lock_pure h hbranches

omit ho in
theorem lock_joinBranches (otherwise : Option Expr) {branches branches' : List Branch}
    (h : L.beside s s') (hbranches : L.Branches branches branches' s) :
    L.Lock Same (joinBranches otherwise branches) (joinBranches otherwise branches') s s' := by
  induction hbranches with
  | nil => exact lock_pure h rfl
  | cons hb _ ih =>
    rw [joinBranches, joinBranches, hb.1, hb.2.1]
    exact Lock.bind ih fun alternative t t' _ ht => Lock.map (lock_typed ht hb.2.2 _)

theorem InStep.conditional (h : L.beside s s') :
    L.Lock Same (conditional operand) (conditional operand) s s' := by
  unfold Grammar.conditional
  refine Lock.bindWith (ho.branch .ifBranch h) ?_
  rintro head head' t t' - ⟨hhead, -⟩ ht
  obtain ⟨hcondition, hbody, hstart⟩ := (List.forall₂_cons.1 hhead).1
  refine lock_get ?_
  have hnone : L.Branches [] [] t := .nil
  refine Lock.bindWith (ho.furtherBranches ht hnone (L.left_remaining ht).1 (L.left_remaining ht).2)
    fun further further' u u' _ hfurther hu => ?_
  have join : ∀ (otherwise : Option Expr) {v v' : State}, L.beside v v' → L.Lock Same
      (joinBranches otherwise further >>= fun alternative =>
        typed head.start (Typing.conditional head.condition head.body alternative))
      (joinBranches otherwise further' >>= fun alternative =>
        typed head'.start (Typing.conditional head'.condition head'.body alternative)) v v' := by
    intro otherwise v v' hv
    rw [hcondition, hbody]
    exact Lock.bind (lock_joinBranches otherwise hv hfurther)
      fun alternative x x' _ hx => lock_typed hx hstart _
  refine lock_kind hu ?_
  dsimp only
  split
  · refine lock_bump_bind hu fun v' _ hv => ?_
    refine lock_kind hv ?_
    split
    · exact lock_failHere hv _
    · exact Lock.bind (Lock.map (ho.block hv)) fun otherwise x x' _ hx => join otherwise hx
  · exact Lock.bind (lock_pure hu rfl) fun otherwise x x' _ hx => join otherwise hx

theorem InStep.signed (op : UnaryOp) (h : L.beside s s') :
    L.Lock Same (signed operand op) (signed operand op) s s' := by
  unfold Grammar.signed
  refine lock_token h fun start hstart => ?_
  refine lock_bump_bind h fun t' _ ht => ?_
  exact Lock.bind (ho _ _ ht) fun e u u' _ hu => lock_typed hu hstart _

theorem InStep.bracketed (h : L.beside s s') :
    L.Lock Same (bracketed operand) (bracketed operand) s s' := by
  unfold Grammar.bracketed
  refine lock_token h fun start hstart => ?_
  refine Lock.bind (lock_openBracket h) fun _ t t' _ ht => ?_
  refine lock_kind ht ?_
  dsimp only
  split
  · exact lock_failAt ht hstart _
  refine Lock.bind (ho.expression ht) fun e u u' _ hu => ?_
  refine lock_kind hu ?_
  split
  · exact lock_failHere hu _
  · exact Lock.bind (lock_closeBracket hu) fun _ v v' _ hv => lock_pure hv rfl

theorem InStep.operandWith : L.InStep (operandWith operand) := by
  intro s s' h
  unfold Grammar.operandWith
  refine lock_token h fun start hstart => ?_
  rw [L.matched_kind hstart]
  split
  · exact ho.signed .minus h
  · exact ho.signed .plus h
  · exact ho.bracketed h
  · exact ho.block h
  · exact lock_bump_bind h fun t' _ ht => lock_pure ht rfl
  · refine lock_bump_bind h fun t' _ ht => ?_
    refine lock_kind ht ?_
    split
    · exact ho.call _ ht hstart
    · exact lock_readVariable ht _ hstart
  · exact ho.conditional h
  · exact lock_failHere h _

end

theorem inStep_operandWithin (L : Lockstep) (depth : Nat) : L.InStep (operandWithin depth) := by
  induction depth with
  | zero => exact fun s s' h => lock_failHere h _
  | succ depth ih => exact fun s s' h => lock_nested h (ih.operandWith _ _ (beside_descend h))

/-! ### Declarations -/

theorem lock_declaredArguments (args : List (String × Ty)) (h : L.beside s s')
    (hbound : L.left s ≤ bound) (hbound' : L.left s ≤ bound') :
    L.Lock Same (declaredArguments bound args) (declaredArguments bound' args) s s' := by
  have hpos := L.left_pos s
  induction bound generalizing bound' args s s' with
  | zero => omega
  | succ bound ih =>
    obtain ⟨bound', rfl⟩ : ∃ n, bound' = n + 1 := ⟨bound' - 1, by omega⟩
    rw [declaredArguments, declaredArguments]
    refine lock_token h fun start hstart => ?_
    refine Lock.bind (lock_identifier h _) fun name t t' hst ht => ?_
    refine Lock.bind (lock_expectSymbol ht _ _) fun _ u u' htu hu => ?_
    refine Lock.bind (lock_typeName hu) fun ty v v' huv hv => ?_
    have hle := L.left_le (L.trans (L.trans hst htu) huv)
    dsimp only
    split
    · exact lock_failAt hv hstart _
    refine lock_kind hv ?_
    split
    · next hk =>
      have hlt := L.left_bump hv (by simp [hk])
      refine lock_bump_bind hv fun x' _ hx => ?_
      exact ih _ hx (by omega) (by omega) (L.left_pos _)
    · exact lock_pure hv rfl
    · exact lock_failHere hv _

theorem lock_signature (h : L.beside s s') : L.Lock Same signature signature s s' := by
  unfold signature
  refine Lock.bind (lock_identifier h _) fun name t t' _ ht => ?_
  have result : ∀ (args : List (String × Ty)) {u u' : State}, L.beside u u' → L.Lock Same
      (do
        closeBracket
        let result ←
          if (← kind) = .symbol .arrow then
            bump
            typeName
          else pure .void
        return (name, (⟨args, result⟩ : Signature)))
      (do
        closeBracket
        let result ←
          if (← kind) = .symbol .arrow then
            bump
            typeName
          else pure .void
        return (name, (⟨args, result⟩ : Signature))) u u' := by
    intro args u u' hu
    refine Lock.bind (lock_closeBracket hu) fun _ v v' _ hv => ?_
    refine lock_kind hv ?_
    dsimp only
    split
    · refine lock_bump_bind hv fun x' _ hx => ?_
      exact Lock.bind (lock_typeName hx) fun ty y y' _ hy => lock_pure hy rfl
    · exact Lock.bind (lock_pure hv rfl) fun ty y y' _ hy => lock_pure hy rfl
  refine lock_kind ht ?_
  dsimp only
  split
  · exact lock_failHere ht _
  refine Lock.bind (lock_openBracket ht) fun _ u u' _ hu => ?_
  refine lock_kind hu ?_
  split
  · exact Lock.bind (lock_pure hu rfl) fun args v v' _ hv => result args hv
  · refine lock_get ?_
    exact Lock.bind (lock_declaredArguments [] hu (L.left_remaining hu).1 (L.left_remaining hu).2)
      fun args v v' _ hv => result args hv

theorem lock_useDeclaration (h : L.beside s s') : L.Lock Same useDeclaration useDeclaration s s' := by
  unfold useDeclaration
  refine lock_token h fun start hstart => ?_
  refine lock_bump_bind h fun t' _ ht => ?_
  refine Lock.bind (lock_signature ht) fun head u u' _ hu => ?_
  refine lock_get ?_
  dsimp only
  rw [isDeclared_eq hu]
  split
  · exact lock_failAt hu hstart _
  have add : L.Lock Same
      (modify fun s : State => { s with externs := s.externs ++ [(head.1, head.2)] })
      (modify fun s : State => { s with externs := s.externs ++ [(head.1, head.2)] }) u u' := by
    have hmeets := meets_of_beside (L.use hu (head.1, head.2)) (L.still hu rfl rfl rfl)
    exact (Meets.lock hmeets).mono fun _ _ _ _ _ => rfl
  refine lock_kind hu ?_
  split
  · exact add
  · exact add
  · exact lock_failHere hu _

theorem lock_functionHead (h : L.beside s s') :
    L.Lock Same functionHead functionHead s s' := by
  unfold functionHead
  refine lock_token h fun start hstart => ?_
  refine lock_bump_bind h fun t' _ ht => ?_
  refine Lock.bind (lock_signature ht) fun head u u' _ hu => ?_
  refine lock_get ?_
  dsimp only
  rw [L.externs_eq hu]
  split
  · exact lock_failAt hu hstart _
  refine lock_get ?_
  rw [isSome_lookup hu]
  split
  · exact lock_failAt hu hstart _
  have hskip : L.Lock (fun _ _ t => t = skipNewlines u.remaining u)
      (modify fun s => skipNewlines s.remaining s) (modify fun s => skipNewlines s.remaining s) u u' :=
    Meets.lock (meets_skipNewlines hu (L.left_remaining hu).1 (L.left_remaining hu).2)
  refine Lock.bindWith hskip fun _ _ v v' _ _ hv => ?_
  refine lock_kind hv ?_
  split
  · exact lock_failHere hv _
  · exact lock_pure hv rfl

theorem beside_declareArguments (args : List (String × Ty)) (h : L.beside s s') :
    L.beside (declareArguments s args) (declareArguments s' args) := by
  induction args generalizing s s' with
  | nil => exact h
  | cons arg args ih => exact ih (beside_declare h arg.1 arg.2 false).2

theorem meets_atBody (h : L.beside s s') (name : String) (signature : Signature) :
    L.Meets s (atBody name signature s) (atBody name signature s') := by
  have hbeside : L.beside (atBody name signature s) (atBody name signature s') :=
    beside_declareArguments _ (beside_openBlock (L.setScope h _)).2
  refine meets_of_beside hbeside ?_
  obtain ⟨scope, heq⟩ := atBody_eq name signature s
  rw [heq]
  exact L.still h rfl rfl rfl

theorem meets_behindBody (h : L.beside s s') (name : String) (signature : Signature) (body : Expr) :
    L.Meets s (behindBody name signature body s) (behindBody name signature body s') := by
  have hbeside : L.beside (behindBody name signature body s) (behindBody name signature body s') := by
    unfold Grammar.behindBody
    rw [L.scope_eq h]
    exact L.setScope (L.function h _) .empty
  exact meets_of_beside hbeside (L.still h rfl rfl rfl)

theorem meets_functionBody (h : L.beside s s') (name : String) (signature : Signature) :
    L.Meets s (functionBody name signature s) (functionBody name signature s') := by
  rw [functionBody_eq_behindBody, functionBody_eq_behindBody]
  let body (t : State) := blockBody (operandWithin nestingLimit) rootBlock t
  refine Meets.next (g := fun t => behindBody name signature (body t).1 (body t).2)
    (meets_atBody h name signature) fun t' ht => ?_
  obtain ⟨hst, value, u', hvalue, hu, hrun⟩ := (ends_modifyGet _).1
    ((inStep_operandWithin L nestingLimit).blockBody rootBlock ht)
  cases hvalue
  refine (meets_behindBody hu name signature _).trans hst (hrun.imp_right fun hrun => ?_)
  have hsame : body t' = ((body (atBody name signature s)).1, u') :=
    Prod.ext (EStateM.Result.ok.inj hrun).1 (EStateM.Result.ok.inj hrun).2
  rw [hsame]

theorem meets_declaration (h : L.beside s s') : L.Meets s (declaration s) (declaration s') := by
  have recovered : ∀ {t t' : State} {p p' q : Problem}, L.beside t t' → L.blamed p p' →
      (L.lost t ∨ q = p') →
      L.Meets t (t.endDeclaration.report p) (t'.endDeclaration.report q) := by
    intro t t' p p' q ht hp hq
    have hmeets := meets_endDeclaration ht
    exact Meets.next (g := fun x => x.report q) hmeets
      fun u' hu => meets_report hu hp (hq.imp_left (L.lost_passes · hmeets.1))
  unfold declaration
  rw [L.kind_eq h]
  split
  · have hhead := ends_iff.1 (lock_functionHead h)
    split
    · next name signature t hrun =>
      obtain ⟨hst, head, t', hhead, ht, hrun'⟩ := hhead.1 _ _ hrun
      cases hhead
      exact (meets_functionBody ht name signature).trans hst
        (hrun'.imp_right fun hrun' => by rw [EStateM.run, hrun'])
    · next problem t hrun =>
      obtain ⟨hst, p', t', hp, ht, hrun'⟩ := hhead.2 _ _ hrun
      exact (recovered ht hp (.inr rfl)).trans hst
        (hrun'.imp_right fun hrun' => by rw [EStateM.run, hrun'])
  · have huse := ends_iff.1 (lock_useDeclaration h)
    split
    · next t hrun =>
      obtain ⟨hst, _, t', -, ht, hrun'⟩ := huse.1 _ _ hrun
      exact (meets_refl ht).trans hst (hrun'.imp_right fun hrun' => by rw [EStateM.run, hrun'])
    · next problem t hrun =>
      obtain ⟨hst, p', t', hp, ht, hrun'⟩ := huse.2 _ _ hrun
      exact (recovered ht hp (.inr rfl)).trans hst
        (hrun'.imp_right fun hrun' => by rw [EStateM.run, hrun'])
  · exact meets_bump h
  · obtain ⟨p, hblamed, hp⟩ := blamed_here h (.invalidTopLevel s.token.kind)
    exact recovered h hblamed hp

theorem meets_declarations (bound : Nat) (h : L.beside s s') :
    L.Meets s (declarations bound s) (declarations bound s') := by
  induction bound generalizing s s' with
  | zero => exact meets_refl h
  | succ bound ih =>
    rw [declarations, declarations, L.kind_eq h]
    split
    · exact meets_refl h
    · exact Meets.next (g := declarations bound) (meets_declaration h) fun t' ht => ih ht

end ScalarJit.Grammar.Lockstep
