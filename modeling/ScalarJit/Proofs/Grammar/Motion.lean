import ScalarJit.Proofs.Grammar.Steps

/-! # How reading moves

Every reader is made of few motions: the next token, a change of the count of brackets, an operand
inside an operand, a report, a block that is opened or closed, a statement or a name for use that is added, and a variable that is
declared behind the tokens that spell its binding. A relation that holds of these, and of two motions when it holds of
each, holds from the start of every reader to its end, whether it fails or not. -/

namespace ScalarJit.Grammar

/-- A relation between states that every motion keeps. -/
structure Motion (R : State → State → Prop) : Prop where
  refl : ∀ s, R s s
  trans : ∀ {s t u}, R s t → R t u → R s u
  bump : ∀ s, R s s.bump
  brackets : ∀ s count, R s { s with brackets := count }
  inside : ∀ {s t : State}, R s.descend t → R s t.ascend
  report : ∀ s p, R s (s.report p)
  openBlock : ∀ s, R s s.openBlock.2
  addStatement : ∀ s id e, R s (s.addStatement id e)
  closeBlock : ∀ s id, R s (s.closeBlock id)
  use : ∀ (s : State) (entry : Named Signature), R s { s with externs := s.externs ++ [entry] }
  /-- A binding: its keyword, its name, an annotation, the sign and the value. -/
  declare : ∀ {s u v : State} {bound name : String} {ty : Ty} {mutable : Bool},
    s.token.kind = .keyword .letBinding ∨ s.token.kind = .keyword .varBinding →
    s.bump.token.kind = .identifier bound → R s.bump.bump u → u.token.kind = .symbol .assign →
    R u.bump v → R s (v.declare name ty mutable).2

def Keeps (R : State → State → Prop) {α : Type} (m : ParseM α) (s : State) : Prop :=
  Ends m s (fun _ t => R s t) (fun _ t => R s t)

section
variable {R : State → State → Prop} (hR : Motion R) {α β : Type} {s : State}

theorem Keeps.bind {R : State → State → Prop} (hR : Motion R) {m : ParseM α} {f : α → ParseM β}
    (h : Keeps R m s) (next : ∀ a t, R s t → Keeps R (f a) t) : Keeps R (m >>= f) s := by
  refine (ends_bind m f).2 (Ends.mono h ?_ fun _ _ he => he)
  intro a t hst
  exact (next a t hst).mono (fun _ _ htu => hR.trans hst htu) fun _ _ htu => hR.trans hst htu

include hR

theorem Motion.keeps_pure (a : α) : Keeps R (pure a : ParseM α) s := hR.refl s

theorem Motion.keeps_failAt (t : Token) (c : Complaint) : Keeps R (failAt t c : ParseM α) s :=
  hR.refl s

theorem Motion.keeps_failHere (c : Complaint) : Keeps R (failHere c : ParseM α) s := hR.refl s

theorem Motion.keeps_token : Keeps R token s := hR.refl s

theorem Motion.keeps_kind : Keeps R kind s := hR.refl s

theorem Motion.keeps_get : Keeps R (get : ParseM State) s := hR.refl s

theorem Motion.keeps_bump : Keeps R Grammar.bump s := hR.bump s

theorem Motion.bump_brackets (s : State) (count : Nat) : R s { s with brackets := count }.bump :=
  hR.trans (hR.brackets s count) (hR.bump _)

theorem Motion.keeps_openBracket : Keeps R openBracket s := hR.bump_brackets s _

theorem Motion.keeps_closeBracket : Keeps R closeBracket s := hR.bump_brackets s _

theorem Motion.keeps_identifier (c : Complaint) : Keeps R (identifier c) s :=
  (ends_identifier c).2 ⟨fun _ _ => hR.bump s, fun _ => hR.refl s⟩

theorem Motion.keeps_expectSymbol (symbol : Symbol) (c : Complaint) :
    Keeps R (expectSymbol symbol c) s :=
  (ends_expectSymbol symbol c).2 ⟨fun _ => hR.bump s, fun _ => hR.refl s⟩

theorem Motion.keeps_typeName : Keeps R typeName s :=
  ends_typeName.2 ⟨fun _ _ _ _ => hR.bump s, fun _ _ _ => hR.bump s, fun _ => hR.refl s⟩

theorem Motion.keeps_typed (start : Token) (result : Except TypeFault Expr) :
    Keeps R (typed start result) s :=
  (ends_typed start result).2 ⟨fun _ _ => hR.refl s, fun _ _ => hR.refl s⟩

theorem Motion.keeps_combineAt (start : Token) (op : Operator) (lhs rhs : Expr) :
    Keeps R (combineAt start op lhs rhs) s :=
  (ends_combineAt start op lhs rhs).2 ⟨fun _ _ => hR.refl s, fun _ _ => hR.refl s⟩

end

/-! ### Recovery -/

section
variable {R : State → State → Prop} (hR : Motion R)

include hR

theorem Motion.skipStatement (bound depth : Nat) (s : State) : R s (s.skipStatement bound depth) := by
  induction bound generalizing depth s with
  | zero => exact hR.refl s
  | succ bound ih =>
    have next (depth : Nat) : R s (s.bump.skipStatement bound depth) :=
      hR.trans (hR.bump s) (ih depth s.bump)
    rw [State.skipStatement]
    split
    · exact hR.refl s
    · split
      · exact hR.refl s
      · exact next _
    · split
      · exact hR.refl s
      · exact next _
    · exact next _
    · exact next _

theorem Motion.endStatement (s : State) : R s s.endStatement :=
  hR.trans (hR.brackets s 0) (hR.skipStatement _ 0 _)

theorem Motion.skipDeclaration (bound depth : Nat) (s : State) :
    R s (s.skipDeclaration bound depth) := by
  induction bound generalizing depth s with
  | zero => exact hR.refl s
  | succ bound ih =>
    have next (depth : Nat) : R s (s.bump.skipDeclaration bound depth) :=
      hR.trans (hR.bump s) (ih depth s.bump)
    rw [State.skipDeclaration]
    split
    · exact hR.refl s
    · split
      · exact hR.refl s
      · exact next _
    · split
      · exact hR.bump s
      · exact next _
    · exact next _
    · exact next _

theorem Motion.endDeclaration (s : State) : R s s.endDeclaration :=
  hR.trans (hR.brackets s 0) (hR.skipDeclaration _ 0 _)

theorem Motion.skipNewlines (bound : Nat) (s : State) : R s (Grammar.skipNewlines bound s) := by
  induction bound generalizing s with
  | zero => exact hR.refl s
  | succ bound ih =>
    rw [Grammar.skipNewlines]
    split
    · exact hR.trans (hR.bump s) (ih s.bump)
    · exact hR.refl s


end

/-! ### Expressions -/

section
variable {R : State → State → Prop} (hR : Motion R) {operand : ParseM Expr}

include hR

theorem Motion.keeps_climb_tighten (ho : ∀ s, Keeps R operand s) (bound : Nat) :
    (∀ least lhs s, Keeps R (climb operand bound least lhs) s) ∧
      (∀ op rhs s, Keeps R (tighten operand bound op rhs) s) := by
  induction bound with
  | zero =>
    constructor
    · intro least lhs s
      rw [climb]
      exact hR.keeps_pure _
    · intro op rhs s
      rw [tighten]
      exact hR.keeps_pure _
  | succ bound ih =>
    obtain ⟨ihc, iht⟩ := ih
    constructor
    · intro least lhs s
      rw [climb]
      refine .bind hR (hR.refl s) fun op s _ => ?_
      split
      · exact hR.keeps_pure _
      split
      · exact hR.keeps_pure _
      refine .bind hR hR.keeps_token fun start s _ => ?_
      refine .bind hR hR.keeps_bump fun _ s _ => ?_
      refine .bind hR (ho s) fun rhs s _ => ?_
      refine .bind hR (iht _ rhs s) fun rhs s _ => ?_
      refine .bind hR (hR.keeps_combineAt ..) fun e s _ => ?_
      exact ihc least e s
    · intro op rhs s
      rw [tighten]
      refine .bind hR (hR.refl s) fun next s _ => ?_
      split
      · exact hR.keeps_pure _
      split
      · exact .bind hR (ihc _ rhs s) fun e s _ => iht op e s
      split
      · exact .bind hR (ihc _ rhs s) fun e s _ => iht op e s
      · exact hR.keeps_pure _

theorem Motion.keeps_expression (ho : ∀ s, Keeps R operand s) (s : State) :
    Keeps R (expression operand) s := by
  unfold expression
  refine .bind hR (ho s) fun lhs s _ => ?_
  exact .bind hR hR.keeps_get fun _ s _ => (hR.keeps_climb_tighten ho _).1 1 lhs s

/-! ### Statements -/

/-- A binding is the one reader that declares, and only behind its tokens. -/
theorem Motion.keeps_binding (ho : ∀ s, Keeps R operand s) (mutable : Bool)
    (hs : s.token.kind = .keyword .letBinding ∨ s.token.kind = .keyword .varBinding) :
    Keeps R (binding operand mutable) s := by
  unfold binding
  have hone : R s s.bump := hR.bump s
  refine (ends_bind _ _).2 (ends_bump.2 ?_)
  refine (ends_bind _ _).2 (ends_token.2 ?_)
  refine (ends_bind _ _).2 ((ends_identifier _).2 ⟨?_, fun _ => hone⟩)
  intro name hname
  have htwo : R s s.bump.bump := hR.trans hone (hR.bump _)
  refine (ends_bind _ _).2 (ends_kind.2 ?_)
  dsimp only
  have rest : ∀ (given : Option Ty) (u : State), R s.bump.bump u →
      Ends (bindValue operand mutable s.bump.token name given) u (fun _ t => R s t)
        (fun _ t => R s t) := by
    intro given u htu
    unfold bindValue
    have hu := hR.trans htwo htu
    refine (ends_bind _ _).2 ((ends_expectSymbol _ _).2 ⟨fun hassign => ?_, fun _ => hu⟩)
    have hsign := hR.trans hu (hR.bump u)
    refine (ends_bind _ _).2
      (Ends.mono (hR.keeps_expression ho u.bump) ?_ fun _ _ he => hR.trans hsign he)
    intro value v huv
    have hv := hR.trans hsign huv
    have hdeclare : R s (v.declare name value.ty mutable).2 := hR.declare hs hname htu hassign huv
    dsimp only
    split
    · exact hv
    split
    · split
      · exact hv
      · exact hdeclare
    · exact hdeclare
  split
  · refine (ends_bind _ _).2 (ends_bump.2 ?_)
    refine (ends_bind _ _).2 ((ends_map _ _).2 (Ends.mono hR.keeps_typeName ?_ ?_))
    · exact fun ty u htu => rest (some ty) u (hR.trans (hR.bump _) htu)
    · exact fun _ u htu => hR.trans (hR.trans htwo (hR.bump _)) htu
  · exact (ends_bind _ _).2 ((ends_pure _).2 (rest none _ (hR.refl _)))

theorem Motion.keeps_returnStatement (ho : ∀ s, Keeps R operand s) (s : State) :
    Keeps R (returnStatement operand) s := by
  unfold returnStatement
  refine .bind hR hR.keeps_token fun start s _ => ?_
  refine .bind hR hR.keeps_bump fun _ s _ => ?_
  refine .bind hR hR.keeps_kind fun found s _ => ?_
  dsimp only
  split
  · refine .bind hR (hR.keeps_pure _) fun value s _ => ?_
    exact .bind hR hR.keeps_get fun _ s _ => hR.keeps_typed ..
  · refine .bind hR ((ends_map _ _).2 (hR.keeps_expression ho s)) fun value s _ => ?_
    exact .bind hR hR.keeps_get fun _ s _ => hR.keeps_typed ..

theorem Motion.keeps_statement (ho : ∀ s, Keeps R operand s) (s : State) :
    Keeps R (statement operand) s := by
  unfold statement
  refine (ends_bind _ _).2 (ends_kind.2 ?_)
  split
  · next hk => exact hR.keeps_binding ho false (.inl hk)
  · next hk => exact hR.keeps_binding ho true (.inr hk)
  · exact hR.keeps_returnStatement ho s
  · exact hR.keeps_failHere _
  · exact hR.keeps_failHere _
  · exact hR.keeps_expression ho s

theorem Motion.statements (ho : ∀ s, Keeps R operand s) (id : BlockId) (bound : Nat) (s : State) :
    R s (Grammar.statements operand id bound s) := by
  induction bound generalizing s with
  | zero => exact hR.refl s
  | succ bound ih =>
    have next {t : State} (hst : R s t) : R s (Grammar.statements operand id bound t) :=
      hR.trans hst (ih t)
    have recovered {t : State} (p : Problem) (hst : R s t) : R s (t.report p).endStatement :=
      hR.trans hst (hR.trans (hR.report t p) (hR.endStatement _))
    have hstmt := ends_iff.1 (hR.keeps_statement ho s)
    rw [Grammar.statements]
    split
    · exact next (hR.bump s)
    · exact hR.refl s
    · exact hR.report s _
    split
    · next problem after hrun => exact next (recovered problem (hstmt.2 _ _ hrun))
    next e after hrun =>
    have hst := hstmt.1 _ _ hrun
    split
    · exact next (recovered _ hst)
    split
    · exact next (hR.trans hst (hR.report after _))
    · exact next (hR.trans hst (hR.addStatement after id e))

theorem Motion.blockBody (ho : ∀ s, Keeps R operand s) (id : BlockId) (s : State) :
    R s (Grammar.blockBody operand id s).2 := by
  have hopen := hR.bump_brackets s 0
  have hread := hR.trans hopen (hR.statements ho id { s with brackets := 0 }.bump.remaining _)
  unfold Grammar.blockBody
  dsimp only
  split
  · exact hR.trans hread (hR.trans (hR.bump_brackets _ s.brackets) (hR.closeBlock _ id))
  · exact hR.trans hread (hR.trans (hR.brackets _ s.brackets) (hR.closeBlock _ id))

theorem Motion.keeps_block (ho : ∀ s, Keeps R operand s) (s : State) :
    Keeps R (block operand) s :=
  ends_block.2 (hR.trans (hR.openBlock s) (hR.blockBody ho _ _))

/-! ### Operands -/

theorem Motion.keeps_callArguments (ho : ∀ s, Keeps R operand s) (callee : String) (bound : Nat)
    (args : List Expr) (s : State) : Keeps R (callArguments operand callee bound args) s := by
  induction bound generalizing args s with
  | zero =>
    rw [callArguments]
    exact hR.keeps_pure _
  | succ bound ih =>
    rw [callArguments]
    refine .bind hR (hR.keeps_expression ho s) fun arg s _ => ?_
    refine .bind hR hR.keeps_kind fun found s _ => ?_
    split
    · exact .bind hR hR.keeps_bump fun _ s _ => ih _ s
    · exact hR.keeps_pure _
    · exact hR.keeps_failHere _

theorem Motion.keeps_call (ho : ∀ s, Keeps R operand s) (callee : String) (start : Token)
    (s : State) : Keeps R (call operand callee start) s := by
  unfold call
  refine .bind hR hR.keeps_openBracket fun _ s _ => ?_
  refine .bind hR hR.keeps_kind fun found s _ => ?_
  have closing : ∀ (args : List Expr) (s : State), Keeps R (finishCall callee start args) s := by
    intro args s
    unfold finishCall
    refine .bind hR hR.keeps_closeBracket fun _ s _ => ?_
    refine .bind hR hR.keeps_get fun found s _ => ?_
    split
    · exact hR.keeps_typed ..
    · exact hR.keeps_failAt ..
  dsimp only
  split
  · exact .bind hR (hR.keeps_pure _) fun args s _ => closing args s
  · refine .bind hR hR.keeps_get fun _ s _ => ?_
    exact .bind hR (hR.keeps_callArguments ho callee _ [] s) fun args s _ => closing args s

theorem Motion.keeps_readVariable (name : String) (start : Token) (s : State) :
    Keeps R (readVariable name start) s := by
  unfold readVariable
  refine .bind hR hR.keeps_get fun found s _ => ?_
  dsimp only
  split
  · exact hR.keeps_pure _
  · exact hR.keeps_failAt ..

theorem Motion.keeps_branch (ho : ∀ s, Keeps R operand s) (keyword : Keyword) (s : State) :
    Keeps R (branch operand keyword) s := by
  unfold branch
  refine .bind hR hR.keeps_token fun start s _ => ?_
  refine .bind hR hR.keeps_bump fun _ s _ => ?_
  refine .bind hR (hR.keeps_expression ho s) fun condition s _ => ?_
  refine .bind hR hR.keeps_kind fun found s _ => ?_
  dsimp only
  split
  · exact hR.keeps_failHere _
  · exact .bind hR (hR.keeps_block ho s) fun body s _ => hR.keeps_pure _

theorem Motion.keeps_furtherBranches (ho : ∀ s, Keeps R operand s) (bound : Nat)
    (branches : List Branch) (s : State) : Keeps R (furtherBranches operand bound branches) s := by
  induction bound generalizing branches s with
  | zero =>
    rw [furtherBranches]
    exact hR.keeps_pure _
  | succ bound ih =>
    rw [furtherBranches]
    refine .bind hR hR.keeps_kind fun found s _ => ?_
    split
    · exact .bind hR (hR.keeps_branch ho _ s) fun next s _ => ih _ s
    · exact hR.keeps_pure _

theorem Motion.keeps_joinBranches (otherwise : Option Expr) (branches : List Branch) (s : State) :
    Keeps R (joinBranches otherwise branches) s := by
  induction branches generalizing s with
  | nil =>
    rw [joinBranches]
    exact hR.keeps_pure _
  | cons b branches ih =>
    rw [joinBranches]
    exact .bind hR (ih s) fun alternative s _ => (ends_map _ _).2 (hR.keeps_typed ..)

theorem Motion.keeps_conditional (ho : ∀ s, Keeps R operand s) (s : State) :
    Keeps R (conditional operand) s := by
  unfold conditional
  refine .bind hR (hR.keeps_branch ho _ s) fun head s _ => ?_
  refine .bind hR hR.keeps_get fun _ s _ => ?_
  refine .bind hR (hR.keeps_furtherBranches ho _ [] s) fun further s _ => ?_
  refine .bind hR hR.keeps_kind fun found s _ => ?_
  have joined : ∀ (otherwise : Option Expr) (s : State), Keeps R (do
      let alternative ← joinBranches otherwise further
      typed head.start (Typing.conditional head.condition head.body alternative)) s :=
    fun otherwise s => .bind hR (hR.keeps_joinBranches ..) fun _ _ _ => hR.keeps_typed ..
  dsimp only
  split
  · refine .bind hR hR.keeps_bump fun _ s _ => ?_
    refine .bind hR hR.keeps_kind fun found s _ => ?_
    split
    · exact hR.keeps_failHere _
    · exact .bind hR ((ends_map _ _).2 (hR.keeps_block ho s)) fun otherwise s _ => joined otherwise s
  · exact .bind hR (hR.keeps_pure _) fun otherwise s _ => joined otherwise s

theorem Motion.keeps_signed (ho : ∀ s, Keeps R operand s) (op : UnaryOp) (s : State) :
    Keeps R (signed operand op) s := by
  unfold signed
  refine .bind hR hR.keeps_token fun start s _ => ?_
  refine .bind hR hR.keeps_bump fun _ s _ => ?_
  exact .bind hR (ho s) fun e s _ => hR.keeps_typed ..

theorem Motion.keeps_bracketed (ho : ∀ s, Keeps R operand s) (s : State) :
    Keeps R (bracketed operand) s := by
  unfold bracketed
  refine .bind hR hR.keeps_token fun start s _ => ?_
  refine .bind hR hR.keeps_openBracket fun _ s _ => ?_
  refine .bind hR hR.keeps_kind fun found s _ => ?_
  dsimp only
  split
  · exact hR.keeps_failAt ..
  · refine .bind hR (hR.keeps_expression ho s) fun e s _ => ?_
    refine .bind hR hR.keeps_kind fun found s _ => ?_
    split
    · exact hR.keeps_failHere _
    · exact .bind hR hR.keeps_closeBracket fun _ s _ => hR.keeps_pure _

theorem Motion.keeps_operandWith (ho : ∀ s, Keeps R operand s) (s : State) :
    Keeps R (operandWith operand) s := by
  unfold operandWith
  refine .bind hR hR.keeps_token fun start s _ => ?_
  split
  · exact hR.keeps_signed ho _ s
  · exact hR.keeps_signed ho _ s
  · exact hR.keeps_bracketed ho s
  · exact hR.keeps_block ho s
  · exact .bind hR hR.keeps_bump fun _ s _ => hR.keeps_pure _
  · refine .bind hR hR.keeps_bump fun _ s _ => ?_
    refine .bind hR hR.keeps_kind fun found s _ => ?_
    split
    · exact hR.keeps_call ho _ _ s
    · exact hR.keeps_readVariable _ _ s
  · exact hR.keeps_conditional ho s
  · exact hR.keeps_failHere _

theorem Motion.keeps_nested (h : ∀ s, Keeps R operand s) (s : State) : Keeps R (nested operand) s :=
  ends_nested.2 ⟨fun _ => hR.refl s,
    fun _ => (h s.descend).mono (fun _ _ ht => hR.inside ht) fun _ _ ht => hR.inside ht⟩

theorem Motion.keeps_operandWithin (depth : Nat) (s : State) :
    Keeps R (operandWithin depth) s := by
  induction depth generalizing s with
  | zero => exact hR.keeps_failHere _
  | succ depth ih => exact hR.keeps_nested (hR.keeps_operandWith ih) s

/-! ### Heads of declarations -/

theorem Motion.keeps_declaredArguments (bound : Nat) (args : List (String × Ty)) (s : State) :
    Keeps R (declaredArguments bound args) s := by
  induction bound generalizing args s with
  | zero =>
    rw [declaredArguments]
    exact hR.keeps_pure _
  | succ bound ih =>
    rw [declaredArguments]
    refine .bind hR hR.keeps_token fun start s _ => ?_
    refine .bind hR (hR.keeps_identifier _) fun name s _ => ?_
    refine .bind hR (hR.keeps_expectSymbol _ _) fun _ s _ => ?_
    refine .bind hR hR.keeps_typeName fun ty s _ => ?_
    dsimp only
    split
    · exact hR.keeps_failAt ..
    · refine .bind hR hR.keeps_kind fun found s _ => ?_
      split
      · exact .bind hR hR.keeps_bump fun _ s _ => ih _ s
      · exact hR.keeps_pure _
      · exact hR.keeps_failHere _

theorem Motion.keeps_signature (s : State) : Keeps R signature s := by
  unfold signature
  refine .bind hR (hR.keeps_identifier _) fun name s _ => ?_
  refine .bind hR hR.keeps_kind fun found s _ => ?_
  have result : ∀ (args : List (String × Ty)) (s : State), Keeps R (do
      closeBracket
      let result ←
        if (← kind) = .symbol .arrow then
          Grammar.bump
          typeName
        else pure .void
      return (name, (⟨args, result⟩ : Signature))) s := by
    intro args s
    refine .bind hR hR.keeps_closeBracket fun _ s _ => ?_
    refine .bind hR hR.keeps_kind fun found s _ => ?_
    dsimp only
    split
    · refine .bind hR hR.keeps_bump fun _ s _ => ?_
      exact .bind hR hR.keeps_typeName fun ty s _ => hR.keeps_pure _
    · exact .bind hR (hR.keeps_pure _) fun ty s _ => hR.keeps_pure _
  dsimp only
  split
  · exact hR.keeps_failHere _
  · refine .bind hR hR.keeps_openBracket fun _ s _ => ?_
    refine .bind hR hR.keeps_kind fun found s _ => ?_
    split
    · exact .bind hR (hR.keeps_pure _) fun args s _ => result args s
    · refine .bind hR hR.keeps_get fun _ s _ => ?_
      exact .bind hR (hR.keeps_declaredArguments _ [] s) fun args s _ => result args s

theorem Motion.keeps_functionHead (s : State) : Keeps R functionHead s := by
  unfold functionHead
  refine .bind hR hR.keeps_token fun start s _ => ?_
  refine .bind hR hR.keeps_bump fun _ s _ => ?_
  refine .bind hR (hR.keeps_signature s) fun head s _ => ?_
  refine .bind hR hR.keeps_get fun _ s _ => ?_
  dsimp only
  split
  · exact hR.keeps_failAt ..
  refine .bind hR hR.keeps_get fun _ s _ => ?_
  split
  · exact hR.keeps_failAt ..
  refine .bind hR (hR.skipNewlines s.remaining s) fun _ s _ => ?_
  refine .bind hR hR.keeps_kind fun found s _ => ?_
  split
  · exact hR.keeps_failHere _
  · exact hR.keeps_pure _

theorem Motion.keeps_useDeclaration (s : State) : Keeps R useDeclaration s := by
  unfold useDeclaration
  refine .bind hR hR.keeps_token fun start s _ => ?_
  refine .bind hR hR.keeps_bump fun _ s _ => ?_
  refine .bind hR (hR.keeps_signature s) fun head s _ => ?_
  refine .bind hR hR.keeps_get fun _ s _ => ?_
  dsimp only
  split
  · exact hR.keeps_failAt ..
  refine .bind hR hR.keeps_kind fun found s _ => ?_
  split
  · exact hR.use s _
  · exact hR.use s _
  · exact hR.keeps_failHere _

end

/-- Each operand is counted up before it and down after it, however it ends. -/
theorem motion_nesting : Motion fun s t => t.nesting = s.nesting where
  refl _ := rfl
  trans h h' := h'.trans h
  bump _ := rfl
  brackets _ _ := rfl
  inside h := congrArg (· - 1) h
  report _ _ := rfl
  openBlock _ := rfl
  addStatement _ _ _ := rfl
  closeBlock _ _ := rfl
  use _ _ := rfl
  declare _ _ h _ h' := h'.trans h

end ScalarJit.Grammar
