import ScalarJit.Proofs.Isolation.Calls

/-! # Every block is read as a body

The readers that `Calls` and `Turns` lead to are all that there are: whichever block a function ends up
with, its body was reached. Each reader is followed along its own steps, and opens no block but those
whose bodies it calls for. -/

namespace ScalarJit.Grammar

def Covered (source : List Char) (name : String) (id : BlockId) : Prop :=
  ∃ callers d s, Reached source callers d (.body id) s ∧ s.scope.name = name

/-- The bodies of all blocks that were opened between two states are read. -/
structure Finds (source : List Char) (s t : State) : Prop where
  name : t.scope.name = s.scope.name
  opened : ∀ id, s.scope.blocks.length ≤ id → id < t.scope.blocks.length →
    Covered source s.scope.name id

section
variable {source : List Char} {s t u : State} {α β : Type}

theorem Finds.of_length (hname : t.scope.name = s.scope.name)
    (hlength : t.scope.blocks.length = s.scope.blocks.length) : Finds source s t :=
  ⟨hname, fun id hle hlt => by omega⟩

theorem Finds.of_untouched (h : Untouched s t) : Finds source s t :=
  .of_length (by rw [h.scope]) (by rw [h.scope])

theorem Finds.refl (s : State) : Finds source s s := .of_length rfl rfl

theorem Finds.trans (h : Finds source s t) (h' : Finds source t u) : Finds source s u := by
  refine ⟨h'.name.trans h.name, fun id hle hlt => ?_⟩
  by_cases hbefore : id < t.scope.blocks.length
  · exact h.opened id hle hbefore
  · have hcovered := h'.opened id (Nat.le_of_not_lt hbefore) hlt
    rwa [h.name] at hcovered

theorem finds_declare (s : State) (name : String) (ty : Ty) (mutable : Bool) :
    Finds source s (s.declare name ty mutable).2 := by
  refine .of_length rfl ?_
  simp [State.declare]

theorem finds_addStatement (s : State) (id : BlockId) (e : Expr) :
    Finds source s (s.addStatement id e) := by
  refine .of_length rfl ?_
  simp [State.addStatement]

theorem finds_bind {m : ParseM α} {f : α → ParseM β} (h : Keeps (Finds source) m s)
    (next : ∀ a t, m s = .ok a t → Keeps (Finds source) (f a) t) :
    Keeps (Finds source) (m >>= f) s := by
  have h := ends_iff.1 h
  refine (ends_bind m f).2 (ends_iff.2 ⟨fun a t hrun => ?_, h.2⟩)
  have hst := h.1 a t hrun
  exact Ends.mono (next a t hrun) (fun _ _ htu => hst.trans htu) fun _ _ htu => hst.trans htu

theorem finds_map {m : ParseM α} {f : α → β} (h : Keeps (Finds source) m s) :
    Keeps (Finds source) (f <$> m) s := (ends_map f m).2 h

theorem finds_passing {m : ParseM α} {Q : α → State → Prop} (h : Passing m s Q) :
    Keeps (Finds source) m s :=
  Ends.mono h (fun _ _ hst => .of_untouched hst.1) fun _ _ hst => .of_untouched hst

theorem finds_pure (a : α) : Keeps (Finds source) (pure a : ParseM α) s := Finds.refl s

theorem finds_failAt (start : Token) (c : Complaint) :
    Keeps (Finds source) (failAt start c : ParseM α) s := Finds.refl s

theorem finds_failHere (c : Complaint) : Keeps (Finds source) (failHere c : ParseM α) s := Finds.refl s

theorem finds_typed (start : Token) (result : Except TypeFault Expr) :
    Keeps (Finds source) (typed start result) s :=
  (ends_typed start result).2 ⟨fun _ _ => .refl s, fun _ _ => .refl s⟩

theorem finds_combineAt (start : Token) (op : Operator) (lhs rhs : Expr) :
    Keeps (Finds source) (combineAt start op lhs rhs) s :=
  (ends_combineAt start op lhs rhs).2 ⟨fun _ _ => .refl s, fun _ _ => .refl s⟩

theorem finds_afterArgument (args : List α) (c : Complaint) :
    Keeps (Finds source) (afterArgument args c) s := by
  unfold afterArgument
  refine finds_bind (finds_passing .kind) fun found t _ => ?_
  split
  · exact finds_bind (finds_passing .bump) fun _ t _ => finds_pure _
  · exact finds_pure _
  · exact finds_failHere _

theorem finds_readVariable (name : String) (start : Token) :
    Keeps (Finds source) (readVariable name start) s := by
  unfold readVariable
  refine finds_bind (finds_passing .get) fun here t _ => ?_
  dsimp only
  split
  · exact finds_pure _
  · exact finds_failAt _ _

theorem finds_joinBranches (otherwise : Option Expr) (branches : List Branch) (s : State) :
    Keeps (Finds source) (joinBranches otherwise branches) s := by
  induction branches generalizing s with
  | nil => exact finds_pure _
  | cons b branches ih =>
    rw [joinBranches]
    exact finds_bind (ih s) fun alternative t _ => finds_map (finds_typed _ _)

theorem finds_of_loops {turn : α → ParseM (α ⊕ β)} (task : α → Task) {callers : List Task} {d n : Nat}
    {m : ParseM β} {a : α} (hloops : Loops turn a s (m s))
    (hturn : ∀ a t, t.ahead.length ≤ n → Reached source callers d (task a) t →
      Keeps (Finds source) (turn a) t)
    (hnext : ∀ {a b t u}, turn a t = .ok (.inl b) u → Turns d (task a) t (task b) u)
    (hn : s.ahead.length ≤ n) (h : Reached source callers d (task a) s) : Keeps (Finds source) m s := by
  have hends : ∀ {result : EStateM.Result Problem State β} {a : α} {s : State},
      Loops turn a s result → s.ahead.length ≤ n → Reached source callers d (task a) s →
      (∀ b t, result = .ok b t → Finds source s t) ∧
        ∀ p t, result = .error p t → Finds source s t := by
    intro result a s hloops
    induction hloops with
    | ends hrun _ =>
      intro hn h
      refine ⟨fun b t hresult => ?_, fun p t hresult => (by cases hresult)⟩
      cases hresult
      exact (ends_iff.1 (hturn _ _ hn h)).1 _ _ hrun
    | fails hrun _ =>
      intro hn h
      refine ⟨fun b t hresult => (by cases hresult), fun p t hresult => ?_⟩
      cases hresult
      exact (ends_iff.1 (hturn _ _ hn h)).2 _ _ hrun
    | turns hrun hshorter _ ih =>
      intro hn h
      have hst := (ends_iff.1 (hturn _ _ hn h)).1 _ _ hrun
      have hlt := hshorter.2
      obtain ⟨hok, herror⟩ := ih (by omega) (h.turn (hnext hrun))
      exact ⟨fun b t hresult => hst.trans (hok b t hresult),
        fun p t hresult => hst.trans (herror p t hresult)⟩
  exact ends_iff.2 (hends hloops hn h)

end

/-- The reader of operands at one level opens no blocks but those whose bodies are reached. -/
def OperandFinds (source : List Char) (d : Nat) : Prop :=
  ∀ callers s, Reached source callers d .operand s → Keeps (Finds source) (operandWithin d) s

def ClimbFinds (source : List Char) (d n : Nat) : Prop :=
  ∀ callers least lhs s, s.ahead.length ≤ n → Reached source callers d (.climb least lhs) s →
    Keeps (Finds source) (climbAll (operandWithin d) least lhs) s

def TightenFinds (source : List Char) (d n : Nat) : Prop :=
  ∀ callers op rhs s, s.ahead.length ≤ n → Reached source callers d (.tighten op rhs) s →
    Keeps (Finds source) (tightenAll (operandWithin d) op rhs) s

section
variable {source : List Char} {callers : List Task} {d n : Nat} {s t : State}

theorem Reached.placed {task : Task} (h : Reached source callers d task s) : s.Placed := by
  obtain ⟨id, hsits⟩ := h.sits
  exact hsits.placed

/-! ### Operators -/

theorem ClimbFinds.tighten (hclimb : ClimbFinds source d n) : TightenFinds source d n := by
  intro callers op rhs s hn h
  refine finds_of_loops (Task.tighten op) ((onward_operandWithin d).loops_tighten op rhs h.placed)
    (fun rhs t hn h => ?_) (fun hrun => .tighten hrun) hn h
  unfold tightenTurn
  refine (ends_bind _ _).2 (ends_operator?.2 ?_)
  cases hnext : Operator.ofToken? t.token.kind with
  | none => exact finds_pure _
  | some next =>
    dsimp only
    split
    · next htighter =>
      exact finds_bind (hclimb _ _ _ t hn (h.call (.tighter hnext htighter))) fun _ _ _ => finds_pure _
    split
    · next hsame =>
      exact finds_bind (hclimb _ _ _ t hn (h.call (.asTight hnext hsame))) fun _ _ _ => finds_pure _
    · exact finds_pure _

theorem OperandFinds.climb (ho : OperandFinds source d) (htighten : TightenFinds source d n) :
    ClimbFinds source d (n + 1) := by
  intro callers least lhs s hn h
  refine finds_of_loops (Task.climb least) ((onward_operandWithin d).loops_climb least lhs h.placed)
    (fun lhs t hn h => ?_) (fun hrun => .climb hrun) hn h
  unfold climbTurn
  refine (ends_bind _ _).2 (ends_operator?.2 ?_)
  cases hop : Operator.ofToken? t.token.kind with
  | none => exact finds_pure _
  | some op =>
    dsimp only
    split
    · exact finds_pure _
    next hleast =>
    have hleast := Nat.le_of_not_lt hleast
    have hbump := shorter_bump h.placed (ne_end_of_operator hop)
    refine finds_bind (finds_passing .token) fun start u hu => ?_
    cases hu
    refine finds_bind (finds_passing .bump) fun _ u hu => ?_
    cases hu
    refine finds_bind (ho _ _ (h.call (.rhs hop hleast))) fun rhs u hrhs => ?_
    have hlt := ((ends_iff.1 ((onward_operandWithin d).further hbump)).1 rhs u hrhs).2
    have hreached := h.call (.tighten hop hleast hrhs)
    refine finds_bind (htighten _ op rhs u (by omega) hreached) fun rhs v _ => ?_
    exact finds_bind (finds_combineAt _ _ _ _) fun _ _ _ => finds_pure _

/-- Along the tokens ahead: what belongs to a right-hand side is behind its operator. -/
theorem OperandFinds.folds (ho : OperandFinds source d) (n : Nat) : ClimbFinds source d n := by
  induction n with
  | zero =>
    intro callers least lhs s hn
    have hpos := s.length_ahead_pos
    omega
  | succ n ih => exact ho.climb ih.tighten

theorem OperandFinds.expression (ho : OperandFinds source d)
    (h : Reached source callers d .expression s) :
    Keeps (Finds source) (expression (operandWithin d)) s := by
  refine finds_bind (ho _ s (h.call .lhs)) fun lhs t hlhs => ?_
  exact ho.folds _ _ 1 lhs t (Nat.le_refl _) (h.call (.fold hlhs))

/-! ### Statements -/

def bindTo (mutable : Bool) (start : Token) (name : String) (given : Option Ty) (value : Expr) :
    ParseM Expr := do
  if value.ty = .void then failAt start (.boundToNothing name)
  match given with
  | some ty =>
    if ty ≠ value.ty then failAt start (.annotationMismatch name ty value.ty)
  | none => pure ()
  let var ← modifyGet fun s => s.declare name value.ty mutable
  return .bind name var value

theorem binding_eq (operand : ParseM Expr) (mutable : Bool) :
    binding operand mutable = (do
      let (start, name, given) ← bindingHead
      let value ← expression operand
      bindTo mutable start name given value) := by
  unfold binding bindingHead
  simp only [bind_assoc]
  refine bind_congr fun _ => bind_congr fun start => bind_congr fun name => bind_congr fun found => ?_
  split
  · simp only [bind_assoc, pure_bind]
    rfl
  · simp only [bind_assoc, pure_bind]
    rfl

theorem finds_bindTo (mutable : Bool) (start : Token) (name : String) (given : Option Ty)
    (value : Expr) : Keeps (Finds source) (bindTo mutable start name given value) s := by
  have hdeclare : ∀ t, Keeps (Finds source) (do
      let var ← modifyGet fun s => s.declare name value.ty mutable
      return Expr.bind name var value) t :=
    fun t => finds_bind (finds_declare t name value.ty mutable) fun _ _ _ => finds_pure _
  unfold bindTo
  dsimp only
  split
  · exact finds_bind (finds_failAt _ _) fun _ _ hrun => (by cases hrun)
  cases given with
  | none => exact hdeclare s
  | some ty =>
    dsimp only
    split
    · exact finds_bind (finds_failAt _ _) fun _ _ hrun => (by cases hrun)
    · exact hdeclare s

theorem OperandFinds.statement (ho : OperandFinds source d)
    (h : Reached source callers d .statement s) :
    Keeps (Finds source) (statement (operandWithin d)) s := by
  have hbinding : ∀ mutable, s.token.kind = .keyword .letBinding ∨ s.token.kind = .keyword .varBinding →
      Keeps (Finds source) (binding (operandWithin d) mutable) s := by
    intro mutable hk
    rw [binding_eq]
    refine finds_bind (finds_passing (passing_bindingHead s)) fun head t hhead => ?_
    exact finds_bind (ho.expression (h.call (.value hk hhead))) fun value u _ => finds_bindTo _ _ _ _ _
  unfold Grammar.statement
  refine (ends_bind _ _).2 (ends_kind.2 ?_)
  -- What is called from here is reached from here, which is all that `ho` asks for.
  split
  · next hk => exact hbinding false (.inl hk)
  · next hk => exact hbinding true (.inr hk)
  · next hk =>
    unfold returnStatement
    refine finds_bind (finds_passing .token) fun start t ht => ?_
    cases ht
    refine finds_bind (finds_passing .bump) fun _ t ht => ?_
    cases ht
    refine finds_bind (finds_passing .kind) fun found t ht => ?_
    cases ht
    have htyped : ∀ (value : Option Expr) (t : State), Keeps (Finds source) (do
        typed s.token (Typing.leave value (← get).scope.signature.result)) t :=
      fun value t => finds_bind (finds_passing .get) fun _ _ _ => finds_typed _ _
    split
    · exact finds_bind (finds_pure _) fun value t _ => htyped value t
    · next hmore =>
      have hmore := Bool.eq_false_iff.2 hmore
      exact finds_bind (finds_map (ho.expression (h.call (.returned hk hmore))))
        fun value t _ => htyped value t
  · exact finds_failHere _
  · exact finds_failHere _
  · next hlet hvar hreturns hfunction huses =>
    refine ho.expression (h.call (.plain fun word hword => ?_))
    simp only [List.mem_cons, List.not_mem_nil, or_false] at hword
    rcases hword with rfl | rfl | rfl | rfl | rfl
    · exact hlet
    · exact hvar
    · exact hreturns
    · exact hfunction
    · exact huses

theorem OperandFinds.behindStatement (ho : OperandFinds source d) {id : BlockId}
    (h : Reached source callers d (.statements id) s) (hk : endsStatement s.token.kind = false) :
    Finds source s (behindStatement (operandWithin d) id s) := by
  have hread := ends_iff.1 (ho.statement (h.call (.statement hk)))
  have recovered : ∀ (t : State) (p : Problem), Finds source s t →
      Finds source s (t.report p).endStatement := fun t p ht =>
    ht.trans (.of_untouched ((Untouched.report t p).trans (.endStatement _)))
  unfold Grammar.behindStatement
  split
  · next problem after hrun => exact recovered after problem (hread.2 _ _ hrun)
  next e after hrun =>
  have hst := hread.1 _ _ hrun
  split
  · exact recovered after _ hst
  split
  · exact hst.trans (.of_untouched (.report _ _))
  · exact hst.trans (finds_addStatement after id e)

theorem OperandFinds.statements (ho : OperandFinds source d) {id : BlockId}
    (h : Reached source callers d (.statements id) s) :
    Finds source s (statements (operandWithin d) id s.remaining s) := by
  have hloops := (onward_operandWithin d).loops_statements id h.placed
  refine finds_of_loops (m := modify fun s => Grammar.statements (operandWithin d) id s.remaining s)
    (fun _ => .statements id) hloops (fun u t _ h => ?_) (fun hrun => .statements hrun) (Nat.le_refl _) h
  rcases statementTurn_cases (operandWithin d) id t with ⟨-, hrun⟩ | ⟨-, hrun⟩ | ⟨-, hrun⟩ | ⟨hk, hrun⟩
  · exact (ends_of_ok hrun).2 (.of_untouched (.bump t))
  · exact (ends_of_ok hrun).2 (.refl t)
  · exact (ends_of_ok hrun).2 (.of_untouched (.report t _))
  · exact (ends_of_ok hrun).2 (ho.behindStatement h hk)

theorem OperandFinds.body (ho : OperandFinds source d) {id : BlockId}
    (h : Reached source callers d (.body id) s) :
    Finds source s (blockBody (operandWithin d) id s).2 := by
  have hopen : Finds source s { s with brackets := 0 }.bump := .of_untouched (.bump_brackets s 0)
  have hread := hopen.trans (ho.statements (h.call .inside))
  unfold blockBody
  dsimp only
  split
  · exact hread.trans (.of_length rfl rfl)
  · exact hread.trans (.of_length rfl rfl)

theorem OperandFinds.block (ho : OperandFinds source d)
    (h : Reached source callers d (.body s.openBlock.1) s.openBlock.2) :
    Keeps (Finds source) (block (operandWithin d)) s := by
  have hbody := ho.body h
  have hlength : s.openBlock.2.scope.blocks.length = s.scope.blocks.length + 1 := List.length_append
  refine ends_block.2 ⟨hbody.name, fun id hle hlt => ?_⟩
  rcases Nat.eq_or_lt_of_le hle with rfl | hlater
  · exact ⟨_, _, _, h, rfl⟩
  · exact hbody.opened id (by omega) hlt

/-! ### Operands -/

theorem OperandFinds.callArguments (ho : OperandFinds source d) {callee : String} {args : List Expr}
    (h : Reached source callers d (.arguments callee args) s) :
    Keeps (Finds source) (callArguments (operandWithin d) callee s.remaining args) s := by
  refine finds_of_loops (Task.arguments callee)
    ((onward_operandWithin d).loops_callArguments callee args h.placed)
    (fun args t _ h => ?_) (fun hrun => .arguments hrun) (Nat.le_refl _) h
  exact finds_bind (ho.expression (h.call .argument)) fun arg u _ => finds_afterArgument _ _

theorem OperandFinds.branch (ho : OperandFinds source d) {keyword : Keyword}
    (h : Reached source callers d (.branch keyword) s) :
    Keeps (Finds source) (branch (operandWithin d) keyword) s := by
  unfold Grammar.branch
  refine finds_bind (finds_passing .token) fun start t ht => ?_
  cases ht
  refine finds_bind (finds_passing .bump) fun _ t ht => ?_
  cases ht
  refine finds_bind (ho.expression (h.call .condition)) fun condition t hcondition => ?_
  refine finds_bind (finds_passing .kind) fun found u hu => ?_
  cases hu
  dsimp only
  split
  · exact finds_bind (finds_failHere _) fun _ _ hrun => (by cases hrun)
  · next hopen =>
    have hbody := h.call (.branchBlock hcondition (Decidable.of_not_not hopen))
    exact finds_bind (ho.block hbody) fun _ _ _ => finds_pure _

theorem OperandFinds.furtherBranches (ho : OperandFinds source d) {branches : List Branch}
    (h : Reached source callers d (.branches branches) s) :
    Keeps (Finds source) (furtherBranches (operandWithin d) s.remaining branches) s := by
  refine finds_of_loops Task.branches
    ((onward_operandWithin d).loops_furtherBranches branches h.placed)
    (fun branches t _ h => ?_) (fun hrun => .branches hrun) (Nat.le_refl _) h
  unfold branchTurn
  refine finds_bind (finds_passing .kind) fun found u hu => ?_
  cases hu
  split
  · next hk => exact finds_bind (ho.branch (h.call (.furtherBranch hk))) fun _ _ _ => finds_pure _
  · exact finds_pure _

theorem OperandFinds.conditional (ho : OperandFinds source d)
    (h : Reached source callers d .counted s) (hk : s.token.kind = .keyword .ifBranch) :
    Keeps (Finds source) (conditional (operandWithin d)) s := by
  unfold Grammar.conditional
  refine finds_bind (ho.branch (h.call (.conditional hk))) fun head t hhead => ?_
  refine finds_bind (finds_passing .get) fun here u hu => ?_
  cases hu
  refine finds_bind (ho.furtherBranches (h.call (.further hk hhead))) fun more u hmore => ?_
  have hjoin : ∀ (otherwise : Option Expr) (v : State), Keeps (Finds source) (do
      let alternative ← joinBranches otherwise more
      typed head.start (Typing.conditional head.condition head.body alternative)) v := fun otherwise v =>
    finds_bind (finds_joinBranches otherwise more v) fun _ _ _ => finds_typed _ _
  refine finds_bind (finds_passing .kind) fun found v hv => ?_
  cases hv
  dsimp only
  split
  · next helse =>
    refine finds_bind (finds_passing .bump) fun _ v hv => ?_
    cases hv
    refine finds_bind (finds_passing .kind) fun found v hv => ?_
    cases hv
    split
    · exact finds_bind (finds_failHere _) fun _ _ hrun => (by cases hrun)
    · next hopen =>
      have hbody := h.call (.otherwise hk hhead hmore helse (Decidable.of_not_not hopen))
      exact finds_bind (finds_map (ho.block hbody)) fun otherwise v _ => hjoin otherwise v
  · exact finds_bind (finds_pure _) fun otherwise v _ => hjoin otherwise v

theorem OperandFinds.bracketed (ho : OperandFinds source d)
    (h : Reached source callers d .counted s) (hk : s.token.kind = .symbol .openBracket) :
    Keeps (Finds source) (bracketed (operandWithin d)) s := by
  unfold Grammar.bracketed
  refine finds_bind (finds_passing .token) fun start t ht => ?_
  cases ht
  refine finds_bind (finds_passing .openBracket) fun _ t ht => ?_
  cases ht
  refine finds_bind (finds_passing .kind) fun found t ht => ?_
  cases ht
  dsimp only
  split
  · exact finds_bind (finds_failAt _ _) fun _ _ hrun => (by cases hrun)
  next hsome =>
  refine finds_bind (ho.expression (h.call (.bracketed hk rfl hsome))) fun e t _ => ?_
  refine finds_bind (finds_passing .kind) fun found t ht => ?_
  split
  · exact finds_bind (finds_failHere _) fun _ _ hrun => (by cases hrun)
  · exact finds_bind (finds_passing .closeBracket) fun _ _ _ => finds_pure _

theorem OperandFinds.call (ho : OperandFinds source d) {callee : String}
    (h : Reached source callers d .counted s) (hk : s.token.kind = .identifier callee)
    (hopen : s.bump.token.kind = .symbol .openBracket) (start : Token) :
    Keeps (Finds source) (call (operandWithin d) callee start) s.bump := by
  have hfinish : ∀ (args : List Expr) (t : State),
      Keeps (Finds source) (finishCall callee start args) t := by
    intro args t
    unfold finishCall
    refine finds_bind (finds_passing .closeBracket) fun _ t _ => ?_
    refine finds_bind (finds_passing .get) fun here t _ => ?_
    split
    · exact finds_typed _ _
    · exact finds_failAt _ _
  unfold Grammar.call
  refine finds_bind (finds_passing .openBracket) fun _ t ht => ?_
  cases ht
  refine finds_bind (finds_passing .kind) fun found t ht => ?_
  cases ht
  dsimp only
  split
  · exact finds_bind (finds_pure _) fun args t _ => hfinish args t
  · next hsome =>
    refine finds_bind (finds_passing .get) fun here t ht => ?_
    cases ht
    exact finds_bind (ho.callArguments (h.call (.call hk hopen rfl hsome))) fun args t _ => hfinish args t

theorem OperandFinds.operandWith (ho : OperandFinds source d)
    (h : Reached source callers d .counted s) :
    Keeps (Finds source) (operandWith (operandWithin d)) s := by
  have hsigned : ∀ op, s.token.kind = .symbol .minus ∨ s.token.kind = .symbol .plus →
      Keeps (Finds source) (signed (operandWithin d) op) s := by
    intro op hk
    unfold signed
    refine finds_bind (finds_passing .token) fun start t ht => ?_
    cases ht
    refine finds_bind (finds_passing .bump) fun _ t ht => ?_
    cases ht
    exact finds_bind (ho _ _ (h.call (.signed hk))) fun e t _ => finds_typed _ _
  unfold Grammar.operandWith
  refine finds_bind (finds_passing .token) fun start t ht => ?_
  cases ht
  split
  · next hk => exact hsigned .minus (.inl hk)
  · next hk => exact hsigned .plus (.inr hk)
  · next hk => exact ho.bracketed h hk
  · next hk => exact ho.block (h.call (.block hk))
  · exact finds_bind (finds_passing .bump) fun _ _ _ => finds_pure _
  · next hk =>
    refine finds_bind (finds_passing .bump) fun _ t ht => ?_
    cases ht
    refine finds_bind (finds_passing .kind) fun found t ht => ?_
    cases ht
    split
    · next hopen => exact ho.call h hk hopen _
    · exact finds_readVariable _ _
  · next hk => exact ho.conditional h hk
  · exact finds_failHere _

end

theorem operandFinds (source : List Char) (d : Nat) : OperandFinds source d := by
  induction d with
  | zero => exact fun _ _ _ => finds_failHere _
  | succ d ih =>
    intro callers s h
    refine ends_nested.2 ⟨fun _ => .refl s, fun hroom => ?_⟩
    have hcounted := ih.operandWith (h.call (.counted hroom))
    exact Ends.mono hcounted (fun _ _ ht => ⟨ht.name, ht.opened⟩) fun _ _ ht => ⟨ht.name, ht.opened⟩

/-! ### Functions -/

theorem atBody_scope (name : String) (signature : Signature) (s : State) :
    (atBody name signature s).scope.name = name ∧ (atBody name signature s).scope.blocks.length = 1 ∧
      (atBody name signature s).functions = s.functions := by
  have hdeclared : ∀ (args : List (String × Ty)) (s : State),
      (declareArguments s args).scope.name = s.scope.name ∧
        (declareArguments s args).scope.blocks.length = s.scope.blocks.length ∧
        (declareArguments s args).functions = s.functions := by
    intro args
    induction args with
    | nil => exact fun s => ⟨rfl, rfl, rfl⟩
    | cons arg args ih =>
      intro s
      obtain ⟨hname, hlength, hfunctions⟩ := ih (s.declare arg.1 arg.2 false).2
      refine ⟨hname, hlength.trans ?_, hfunctions⟩
      simp [State.declare]
  exact hdeclared signature.args _

theorem functions_functionBody (name : String) (signature : Signature) (s : State) :
    ∃ f : Function, (functionBody name signature s).functions = s.functions ++ [(name, f)] ∧
      f.blocks = (blockBody (operandWithin nestingLimit) rootBlock
        (atBody name signature s)).2.scope.blocks := by
  obtain ⟨t, hadvance, heq⟩ :=
    blockBody_eq (reads_operandWithin nestingLimit) (inside_atBody name signature s)
  obtain ⟨-, -, hfunctions⟩ := atBody_scope name signature s
  have hsame : (t.closeBlock rootBlock).functions = s.functions := hadvance.functions.trans hfunctions
  rw [functionBody_eq_behindBody, heq]
  exact ⟨_, congrArg (· ++ _) hsame, rfl⟩

theorem functions_declaration (s : State) : (declaration s).functions = s.functions ∨
    ∃ name signature t, s.token.kind = .keyword .function ∧ functionHead s = .ok (name, signature) t ∧
      t.functions = s.functions ∧ declaration s = functionBody name signature t := by
  have skip : ∀ {t : State} (p : Problem), Untouched s t →
      (t.endDeclaration.report p).functions = s.functions := fun p hst =>
    (hst.trans ((Untouched.endDeclaration _).trans (.report _ p))).functions
  unfold declaration
  split
  · next hk =>
    have hhead := ends_iff.1 (passing_functionHead s)
    split
    · next name signature t hrun =>
      exact .inr ⟨name, signature, t, hk, hrun, (hhead.1 _ _ hrun).1.functions, rfl⟩
    · next problem t hrun => exact .inl (skip problem (hhead.2 _ _ hrun))
  · have huse := ends_iff.1 (ends_useDeclaration s)
    split
    · next t hrun => exact .inl (huse.1 _ _ hrun).1
    · next problem t hrun => exact .inl (skip problem (huse.2 _ _ hrun))
  · exact .inl (Untouched.bump s).functions
  · exact .inl (skip _ (.refl s))

theorem covered_declarations (source : List Char) (n : Nat) {name : String} {f : Function}
    (h : (name, f) ∈ (declarations n (State.ofSource source)).functions) {id : BlockId}
    (hid : id < f.blocks.length) : Covered source name id := by
  induction n with
  | zero => cases h
  | succ n ih =>
    rw [declarations_add, declarations, declarations] at h
    split at h
    · exact ih h
    rcases functions_declaration (declarations n (State.ofSource source)) with
      hsame | ⟨called, signature, t, hk, hhead, hfunctions, hbody⟩
    · rw [hsame] at h
      exact ih h
    obtain ⟨g, hadded, hblocks⟩ := functions_functionBody called signature t
    rw [hbody, hadded, hfunctions] at h
    rcases List.mem_append.1 h with h | h
    · exact ih h
    obtain ⟨rfl, rfl⟩ := Prod.mk.inj (List.mem_singleton.1 h)
    rw [hblocks] at hid
    have hreached : Reached source [] nestingLimit (.body rootBlock) (atBody name signature t) :=
      .function rfl hk hhead
    obtain ⟨hname, hlength, -⟩ := atBody_scope name signature t
    rcases Nat.eq_zero_or_pos id with rfl | hpos
    · exact ⟨_, _, _, hreached, hname⟩
    · have hcovered := ((operandFinds source nestingLimit).body hreached).opened id (by omega) hid
      rwa [hname] at hcovered

end ScalarJit.Grammar
