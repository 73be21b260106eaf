import ScalarJit.Proofs.Grammar.Progress

/-! # Loops of reading make progress

The loops of reading run under bounds, so that they are functions. Here each loop is given by what one
turn of it does, without a bound: a turn goes on, or it ends the loop with a value or a problem. On
every source, whatever is wrong in it, a turn that goes on has passed the token that it started at, so
no loop turns for ever, and what the bounded loops answer is what these turns lead to: a bound is never
used up. -/

namespace ScalarJit.Grammar

/-! ### Turns -/

section
variable {α β : Type}

def Shorter (s t : State) : Prop := Passes s t ∧ t.ahead.length < s.ahead.length

/-- What a loop leads to. Each of its turns goes on with some of what was ahead passed, or is the
last. -/
inductive Loops (turn : α → ParseM (α ⊕ β)) : α → State → EStateM.Result Problem State β → Prop where
  | ends {a : α} {b : β} {s t : State} (h : turn a s = .ok (.inr b) t) (passes : Passes s t) :
    Loops turn a s (.ok b t)
  | fails {a : α} {p : Problem} {s t : State} (h : turn a s = .error p t) (passes : Passes s t) :
    Loops turn a s (.error p t)
  | turns {a b : α} {s t : State} {result : EStateM.Result Problem State β}
    (h : turn a s = .ok (.inl b) t) (shorter : Shorter s t) (rest : Loops turn b t result) :
    Loops turn a s result

def thenTurn (turn : α → ParseM (α ⊕ β)) (rest : α → ParseM β) (a : α) : ParseM β := do
  match (← turn a) with
  | .inl b => rest b
  | .inr b => return b

/-- However the rest of a turn ends, some has been passed since a state before, and the token there
if the turn goes on. -/
def Moves (s : State) (turn : ParseM (α ⊕ β)) (here : State) : Prop :=
  Ends turn here (fun next t => Passes s t ∧ (next.isLeft → t.ahead.length < s.ahead.length))
    fun _ t => Passes s t

theorem loops_of_thenTurn {turn : α → ParseM (α ⊕ β)} (loop : Nat → α → ParseM β) {share : Nat}
    (hshare : 0 < share)
    (hloop : ∀ bound a s, s.Placed → share * s.ahead.length ≤ bound + 1 →
      loop (bound + 1) a s = thenTurn turn (loop bound) a s)
    (hturn : ∀ a s, s.Placed → Moves s (turn a) s) {bound : Nat} {a : α} {s : State} (h : s.Placed)
    (hbound : share * s.ahead.length ≤ bound) : Loops turn a s (loop bound a s) := by
  induction bound generalizing a s with
  | zero =>
    have hpos := Nat.mul_pos hshare s.length_ahead_pos
    omega
  | succ bound ih =>
    have hmoves := ends_iff.1 (hturn a s h)
    rw [hloop bound a s h hbound]
    show Loops turn a s (EStateM.bind (turn a) _ s)
    rw [EStateM.bind]
    cases hrun : turn a s with
    | error p t => exact .fails hrun (hmoves.2 p t hrun)
    | ok next t =>
      obtain ⟨hpasses, hlt⟩ := hmoves.1 next t hrun
      cases next with
      | inr b => exact .ends hrun hpasses
      | inl b =>
        have hlt := hlt rfl
        have hrest : share * t.ahead.length ≤ bound := by
          have hmul := Nat.mul_le_mul_left share (Nat.succ_le_of_lt hlt)
          rw [Nat.mul_succ] at hmul
          omega
        exact .turns hrun ⟨hpasses, hlt⟩ (ih hpasses.placed hrest)

theorem loops_of_modify {turn : α → ParseM (α ⊕ Unit)} (loop : Nat → α → State → State)
    (hloop : ∀ bound a s, .ok () (loop (bound + 1) a s) =
      thenTurn turn (fun a => modify (loop bound a)) a s)
    (hturn : ∀ a s, s.Placed → Moves s (turn a) s) {a : α} {s : State} (h : s.Placed) :
    Loops turn a s (.ok () (loop s.remaining a s)) := by
  refine loops_of_thenTurn (fun bound a => modify (loop bound a)) Nat.one_pos
    (fun bound a s _ _ => hloop bound a s) hturn h ?_
  rw [Nat.one_mul]
  exact s.length_ahead_le

theorem loops_of_loop {turn : α → ParseM (α ⊕ β)} (loop : Nat → α → ParseM β)
    (hloop : ∀ bound a, loop (bound + 1) a = thenTurn turn (loop bound) a)
    (hturn : ∀ a s, s.Placed → Moves s (turn a) s) {a : α} {s : State} (h : s.Placed) :
    Loops turn a s (loop s.remaining a s) := by
  refine loops_of_thenTurn loop Nat.one_pos (fun bound a s _ _ => by rw [hloop]) hturn h ?_
  rw [Nat.one_mul]
  exact s.length_ahead_le

/-- A reader that passes some of what is ahead, wherever it starts and however it ends. -/
def Onward (m : ParseM α) : Prop := ∀ s, Keeps (fun s t => s.Placed → Passes s t) m s

theorem Onward.ends {m : ParseM α} (hm : Onward m) {s : State} (h : s.Placed) :
    Ends m s (fun _ t => Passes s t) fun _ t => Passes s t :=
  Ends.mono (hm s) (fun _ _ hst => hst h) fun _ _ hst => hst h

theorem Onward.since {m : ParseM α} (hm : Onward m) {s t : State} (hst : Passes s t) :
    Ends m t (fun _ u => Passes s u) fun _ u => Passes s u :=
  Ends.mono (hm.ends hst.placed) (fun _ _ htu => hst.trans htu) fun _ _ htu => hst.trans htu

theorem kind_bind (f : TokenKind → ParseM β) (s : State) : (kind >>= f) s = f s.token.kind s := rfl

theorem get_bind (f : State → ParseM β) (s : State) : (get >>= f) s = f s s := rfl

theorem operator_bind (f : Option Operator → ParseM β) (s : State) :
    (operator? >>= f) s = f (Operator.ofToken? s.token.kind) s := rfl

theorem Shorter.passes {s t : State} (h : Shorter s t) : Passes s t := h.1

theorem Shorter.trans {s t u : State} (h : Shorter s t) (htu : Passes t u) : Shorter s u :=
  ⟨h.1.trans htu, Nat.lt_of_le_of_lt htu.length_le h.2⟩

theorem shorter_bump {s : State} (h : s.Placed) (hne : s.token.kind ≠ .endOfFile) :
    Shorter s s.bump := ⟨.bump h, h.length_ahead_bump hne⟩

theorem Onward.further {m : ParseM α} (hm : Onward m) {s t : State} (hst : Shorter s t) :
    Ends m t (fun _ u => Shorter s u) fun _ u => Shorter s u :=
  Ends.mono (hm.ends hst.passes.placed) (fun _ _ htu => hst.trans htu) fun _ _ htu => hst.trans htu

/-- Steps agree whose first parts agree, and whose other parts agree wherever the first one leads. -/
theorem bind_congr_of_ends {m m' : ParseM α} {f g : α → ParseM β} {s : State} {ok : α → State → Prop}
    {err : Problem → State → Prop} (hm : m s = m' s) (h : Ends m' s ok err)
    (hnext : ∀ a t, ok a t → f a t = g a t) : (m >>= f) s = (m' >>= g) s := by
  have h := ends_iff.1 h
  show EStateM.bind m f s = EStateM.bind m' g s
  rw [EStateM.bind, EStateM.bind, hm]
  cases hrun : m' s with
  | error p t => rfl
  | ok a t => exact hnext a t (h.1 a t hrun)

end

/-! ### Recovery -/

def skipStatementTurn (depth : Nat) : ParseM (Nat ⊕ Unit) := do
  match (← kind) with
  | .endOfFile => return .inr ()
  | .newline =>
    if depth = 0 then return .inr ()
    bump
    return .inl depth
  | .symbol .closedCurly =>
    match depth with
    | 0 => return .inr ()
    | outer + 1 =>
      bump
      return .inl outer
  | .symbol .openCurly =>
    bump
    return .inl (depth + 1)
  | _ =>
    bump
    return .inl depth

def skipDeclarationTurn (depth : Nat) : ParseM (Nat ⊕ Unit) := do
  match (← kind) with
  | .endOfFile => return .inr ()
  | .newline =>
    if depth = 0 then return .inr ()
    bump
    return .inl depth
  | .symbol .closedCurly =>
    bump
    if depth ≤ 1 then return .inr ()
    return .inl (depth - 1)
  | .symbol .openCurly =>
    bump
    return .inl (depth + 1)
  | _ =>
    bump
    return .inl depth

def skipNewlineTurn (_ : Unit) : ParseM (Unit ⊕ Unit) := do
  if (← kind) = .newline then
    bump
    return .inl ()
  else return .inr ()

section
variable {s : State}

theorem moves_bump (h : s.Placed) (hne : s.token.kind ≠ .endOfFile) {α β : Type} (next : α ⊕ β) :
    Moves s (do bump; return next) s := by
  refine (ends_bind _ _).2 (ends_bump.2 ((ends_pure _).2 ⟨.bump h, fun _ => ?_⟩))
  exact h.length_ahead_bump hne

theorem moves_last (h : s.Placed) {α β : Type} (b : β) : Moves s (return .inr b : ParseM (α ⊕ β)) s :=
  (ends_pure _).2 ⟨.refl h, fun hleft => (by cases hleft)⟩

theorem moves_of_further {α β : Type} {turn : ParseM (α ⊕ β)} {t : State}
    (h : Ends turn t (fun _ u => Shorter s u) fun _ u => Shorter s u) : Moves s turn t :=
  Ends.mono h (fun _ _ hu => ⟨hu.1, fun _ => hu.2⟩) fun _ _ hu => hu.1

theorem moves_skipStatementTurn (depth : Nat) (h : s.Placed) : Moves s (skipStatementTurn depth) s := by
  unfold skipStatementTurn
  refine (ends_bind _ _).2 (ends_kind.2 ?_)
  split
  · exact moves_last h ()
  · next hk =>
    split
    · exact moves_last h ()
    · exact moves_bump h (by simp [hk]) _
  · next hk =>
    split
    · exact moves_last h ()
    · exact moves_bump h (by simp [hk]) _
  · next hk => exact moves_bump h (by simp [hk]) _
  · next hk _ _ _ => exact moves_bump h hk _

theorem moves_skipDeclarationTurn (depth : Nat) (h : s.Placed) :
    Moves s (skipDeclarationTurn depth) s := by
  unfold skipDeclarationTurn
  refine (ends_bind _ _).2 (ends_kind.2 ?_)
  split
  · exact moves_last h ()
  · next hk =>
    split
    · exact moves_last h ()
    · exact moves_bump h (by simp [hk]) _
  · next hk =>
    have hlt := h.length_ahead_bump (by simp [hk])
    refine (ends_bind _ _).2 (ends_bump.2 ?_)
    split
    · exact ⟨.bump h, fun _ => hlt⟩
    · exact ⟨.bump h, fun _ => hlt⟩
  · next hk => exact moves_bump h (by simp [hk]) _
  · next hk _ _ _ => exact moves_bump h hk _

theorem moves_skipNewlineTurn (u : Unit) (h : s.Placed) : Moves s (skipNewlineTurn u) s := by
  unfold skipNewlineTurn
  refine (ends_bind _ _).2 (ends_kind.2 ?_)
  split
  · next hk => exact moves_bump h (by simp [hk]) _
  · exact moves_last h ()

theorem loops_skipStatement (h : s.Placed) (depth : Nat) :
    Loops skipStatementTurn depth s (.ok () (s.skipStatement s.remaining depth)) := by
  refine loops_of_modify (fun bound depth s => s.skipStatement bound depth) ?_
    (fun depth _ => moves_skipStatementTurn depth) h
  intro bound depth s
  rw [State.skipStatement]
  unfold thenTurn skipStatementTurn
  rw [bind_assoc, kind_bind]
  generalize s.token.kind = found
  cases found with
  | newline => cases depth <;> rfl
  | symbol symbol =>
    cases symbol with
    | closedCurly => cases depth <;> rfl
    | _ => rfl
  | _ => rfl

theorem loops_skipDeclaration (h : s.Placed) (depth : Nat) :
    Loops skipDeclarationTurn depth s (.ok () (s.skipDeclaration s.remaining depth)) := by
  refine loops_of_modify (fun bound depth s => s.skipDeclaration bound depth) ?_
    (fun depth _ => moves_skipDeclarationTurn depth) h
  intro bound depth s
  rw [State.skipDeclaration]
  unfold thenTurn skipDeclarationTurn
  rw [bind_assoc, kind_bind]
  generalize s.token.kind = found
  cases found with
  | newline => cases depth <;> rfl
  | symbol symbol =>
    cases symbol with
    | closedCurly =>
      dsimp only
      split <;> rfl
    | _ => rfl
  | _ => rfl

theorem loops_skipNewlines (h : s.Placed) :
    Loops skipNewlineTurn () s (.ok () (skipNewlines s.remaining s)) := by
  refine loops_of_modify (fun bound _ s => skipNewlines bound s) ?_
    (fun u _ => moves_skipNewlineTurn u) h
  intro bound u s
  rw [skipNewlines]
  unfold thenTurn skipNewlineTurn
  rw [bind_assoc, kind_bind]
  split <;> rfl

end

/-! ### Statements and declarations -/

def statementTurn (operand : ParseM Expr) (id : BlockId) (_ : Unit) : ParseM (Unit ⊕ Unit) := do
  match (← kind) with
  | .newline =>
    bump
    return .inl ()
  | .symbol .closedCurly => return .inr ()
  | .endOfFile =>
    modify fun s => s.report ⟨.unclosedBlock, s.token.position⟩
    return .inr ()
  | _ =>
    modify (behindStatement operand id)
    return .inl ()

def declarationTurn (_ : Unit) : ParseM (Unit ⊕ Unit) := do
  if (← kind) = .endOfFile then return .inr ()
  modify declaration
  return .inl ()

section
variable {operand : ParseM Expr} {s : State}

theorem passes_recovered {t : State} (hst : Passes s t) (p : Problem) :
    Passes s (t.report p).endStatement := by
  have hreport : Passes s (t.report p) := hst.trans (.still hst.placed rfl rfl rfl)
  exact hreport.trans (motion_passes.endStatement _ hreport.placed)

theorem Onward.behindStatement (ho : Onward operand) (id : BlockId) (h : s.Placed)
    (hk : endsStatement s.token.kind = false) : Shorter s (behindStatement operand id s) := by
  have hstatement : Onward (statement operand) := motion_passes.keeps_statement ho
  refine ⟨?_, length_ahead_behindStatement hk (hstatement.ends h) id⟩
  have hread := ends_iff.1 (hstatement.ends h)
  unfold Grammar.behindStatement
  split
  · next problem after hrun => exact passes_recovered (hread.2 _ _ hrun) problem
  next e after hrun =>
  have hst := hread.1 _ _ hrun
  split
  · exact passes_recovered hst _
  split
  · exact hst.trans (.still hst.placed rfl rfl rfl)
  · exact hst.trans (.still hst.placed rfl rfl rfl)

theorem endsStatement_of_ne {kind : TokenKind} (hline : kind ≠ .newline)
    (hclosed : kind ≠ .symbol .closedCurly) (hend : kind ≠ .endOfFile) :
    endsStatement kind = false := by
  rcases endsStatement_cases kind with hk | hk | hk | hk
  · exact absurd hk hline
  · exact absurd hk hclosed
  · exact absurd hk hend
  · exact hk

theorem Onward.moves_statementTurn (ho : Onward operand) (id : BlockId) (u : Unit) (h : s.Placed) :
    Moves s (statementTurn operand id u) s := by
  unfold statementTurn
  refine (ends_bind _ _).2 (ends_kind.2 ?_)
  split
  · next hk => exact moves_bump h (by simp [hk]) _
  · exact moves_last h ()
  · refine (ends_bind _ _).2 ((ends_modify _).2 ?_)
    exact ⟨.still h rfl rfl rfl, fun hleft => (by cases hleft)⟩
  · next hline hclosed hend =>
    obtain ⟨hpasses, hlt⟩ := ho.behindStatement id h (endsStatement_of_ne hline hclosed hend)
    exact (ends_bind _ _).2 ((ends_modify _).2 ⟨hpasses, fun _ => hlt⟩)

theorem Onward.loops_statements (ho : Onward operand) (id : BlockId) (h : s.Placed) :
    Loops (statementTurn operand id) () s (.ok () (statements operand id s.remaining s)) := by
  refine loops_of_modify (fun bound _ s => statements operand id bound s) ?_
    (fun u _ => ho.moves_statementTurn id u) h
  intro bound u s
  unfold thenTurn statementTurn
  rw [bind_assoc, kind_bind]
  split
  · next hk =>
    rw [statements_newline hk]
    rfl
  · next hk =>
    rw [statements_closed hk]
    rfl
  · next hk =>
    rw [statements_end hk]
    rfl
  · next hline hclosed hend =>
    rw [statements_unended (endsStatement_of_ne hline hclosed hend)]
    rfl

theorem moves_declarationTurn (u : Unit) (h : s.Placed) : Moves s (declarationTurn u) s := by
  unfold declarationTurn
  refine (ends_bind _ _).2 (ends_kind.2 ?_)
  split
  · exact moves_last h ()
  · next hne =>
    refine (ends_bind _ _).2 ((ends_modify _).2 ⟨passes_declaration h, fun _ => ?_⟩)
    exact length_ahead_declaration h hne

theorem loops_declarations (h : s.Placed) :
    Loops declarationTurn () s (.ok () (declarations s.remaining s)) := by
  refine loops_of_modify (fun bound _ s => declarations bound s) ?_
    (fun u _ => moves_declarationTurn u) h
  intro bound u s
  rw [declarations]
  unfold thenTurn declarationTurn
  rw [bind_assoc, kind_bind]
  split <;> rfl

end

/-! ### Arguments and branches -/

def afterArgument {α : Type} (args : List α) (c : Complaint) : ParseM (List α ⊕ List α) := do
  match (← kind) with
  | .symbol .comma =>
    bump
    return .inl args
  | .symbol .closedBracket => return .inr args
  | _ => failHere c

def declaredArgumentTurn (args : List (String × Ty)) :
    ParseM (List (String × Ty) ⊕ List (String × Ty)) := do
  let start ← token
  let name ← identifier .expectedArgumentName
  expectSymbol .colon .expectedArgumentType
  let ty ← typeName
  if args.any (·.1 == name) then failAt start (.repeatedArgument name)
  afterArgument (args ++ [(name, ty)]) .unfinishedArgumentList

def callArgumentTurn (operand : ParseM Expr) (callee : String) (args : List Expr) :
    ParseM (List Expr ⊕ List Expr) := do
  let arg ← expression operand
  afterArgument (args ++ [arg]) (.unfinishedCall callee)

def branchTurn (operand : ParseM Expr) (branches : List Branch) :
    ParseM (List Branch ⊕ List Branch) := do
  if (← kind) = .keyword .elifBranch then
    let next ← branch operand .elifBranch
    return .inl (branches ++ [next])
  else return .inr branches

section
variable {operand : ParseM Expr} {s t : State}

theorem moves_afterArgument {α : Type} (hst : Passes s t) (args : List α) (c : Complaint) :
    Moves s (afterArgument args c) t := by
  unfold afterArgument
  refine (ends_bind _ _).2 (ends_kind.2 ?_)
  split
  · next hcomma =>
    have hlt := hst.placed.length_ahead_bump (by simp [hcomma])
    refine (ends_bind _ _).2 (ends_bump.2 ⟨hst.trans (.bump hst.placed), fun _ => ?_⟩)
    exact Nat.lt_of_lt_of_le hlt hst.length_le
  · exact ⟨hst, fun hleft => (by cases hleft)⟩
  · exact hst

theorem afterArgument_bind {α β : Type} (args : List α) (c : Complaint)
    (rest : List α ⊕ List α → ParseM β) :
    afterArgument args c >>= rest = (do
      match (← kind) with
      | .symbol .comma =>
        bump
        rest (.inl args)
      | .symbol .closedBracket => rest (.inr args)
      | _ => failHere c) := by
  rw [afterArgument, bind_assoc]
  refine bind_congr fun found => ?_
  cases found with
  | symbol symbol => cases symbol <;> rfl
  | _ => rfl

theorem Onward.moves_callArgumentTurn (ho : Onward operand) (callee : String) (args : List Expr)
    (h : s.Placed) : Moves s (callArgumentTurn operand callee args) s := by
  have hexpression : Onward (expression operand) := motion_passes.keeps_expression ho
  exact Ends.bind (hexpression.ends h) fun arg t ht => moves_afterArgument ht _ _

theorem Onward.loops_callArguments (ho : Onward operand) (callee : String) (args : List Expr)
    (h : s.Placed) :
    Loops (callArgumentTurn operand callee) args s
      (callArguments operand callee s.remaining args s) := by
  refine loops_of_loop (callArguments operand callee) ?_
    (fun args _ => ho.moves_callArgumentTurn callee args) h
  intro bound args
  rw [callArguments, thenTurn, callArgumentTurn, bind_assoc]
  refine bind_congr fun arg => Eq.trans ?_ (afterArgument_bind _ _ _).symm
  rfl

theorem moves_declaredArgumentTurn (args : List (String × Ty)) (h : s.Placed) :
    Moves s (declaredArgumentTurn args) s := by
  have hidentifier : ∀ c, Onward (identifier c) := fun c _ => motion_passes.keeps_identifier c
  have hcolon : ∀ c, Onward (expectSymbol .colon c) := fun c _ => motion_passes.keeps_expectSymbol _ c
  have htype : Onward typeName := fun _ => motion_passes.keeps_typeName
  unfold declaredArgumentTurn
  refine (ends_bind _ _).2 (ends_token.2 ?_)
  refine Ends.bind ((hidentifier _).ends h) fun name t ht => ?_
  refine Ends.bind ((hcolon _).since ht) fun _ t ht => ?_
  refine Ends.bind (htype.since ht) fun ty t ht => ?_
  dsimp only
  split
  · exact ht
  · exact moves_afterArgument ht _ _

theorem loops_declaredArguments (args : List (String × Ty)) (h : s.Placed) :
    Loops declaredArgumentTurn args s (declaredArguments s.remaining args s) := by
  refine loops_of_loop declaredArguments ?_ (fun args _ => moves_declaredArgumentTurn args) h
  intro bound args
  simp only [declaredArguments, thenTurn, declaredArgumentTurn, bind_assoc]
  refine bind_congr fun start => bind_congr fun name => bind_congr fun _ => bind_congr fun ty => ?_
  split
  · rfl
  · refine Eq.trans ?_ (afterArgument_bind _ _ _).symm
    rfl

theorem Onward.ends_branch (ho : Onward operand) (keyword : Keyword) (h : s.Placed)
    (hne : s.token.kind ≠ .endOfFile) :
    Ends (branch operand keyword) s (fun _ t => Shorter s t) fun _ t => Shorter s t := by
  have hexpression : Onward (expression operand) := motion_passes.keeps_expression ho
  have hblock : Onward (block operand) := motion_passes.keeps_block ho
  unfold branch
  refine (ends_bind _ _).2 (ends_token.2 ((ends_bind _ _).2 (ends_bump.2 ?_)))
  refine Ends.bind (hexpression.further (shorter_bump h hne)) fun condition t ht => ?_
  refine (ends_bind _ _).2 (ends_kind.2 ?_)
  dsimp only
  split
  · exact ht
  · exact Ends.bind (hblock.further ht) fun body u hu => hu

theorem Onward.moves_branchTurn (ho : Onward operand) (branches : List Branch) (h : s.Placed) :
    Moves s (branchTurn operand branches) s := by
  unfold branchTurn
  refine (ends_bind _ _).2 (ends_kind.2 ?_)
  split
  · next hk =>
    have hbranch := ho.ends_branch .elifBranch h (by simp [hk])
    exact moves_of_further (Ends.bind hbranch fun next t ht => ht)
  · exact moves_last h _

theorem Onward.loops_furtherBranches (ho : Onward operand) (branches : List Branch) (h : s.Placed) :
    Loops (branchTurn operand) branches s (furtherBranches operand s.remaining branches s) := by
  refine loops_of_loop (furtherBranches operand) ?_
    (fun branches _ => ho.moves_branchTurn branches) h
  intro bound branches
  rw [furtherBranches, thenTurn, branchTurn, bind_assoc]
  refine bind_congr fun found => ?_
  split
  · rw [bind_assoc]
    rfl
  · rfl

end

/-! ### Operators -/

/-- Folding operators onto an expression, under the bound that it is started with. -/
def climbAll (operand : ParseM Expr) (least : Nat) (lhs : Expr) : ParseM Expr := do
  climb operand (2 * (← get).remaining) least lhs

def tightenAll (operand : ParseM Expr) (op : Operator) (rhs : Expr) : ParseM Expr := do
  tighten operand (2 * (← get).remaining) op rhs

def climbTurn (operand : ParseM Expr) (least : Nat) (lhs : Expr) : ParseM (Expr ⊕ Expr) := do
  match (← operator?) with
  | none => return .inr lhs
  | some op =>
    if op.precedence < least then return .inr lhs
    else
      let start ← token
      bump
      let rhs ← operand
      let rhs ← tightenAll operand op rhs
      let lhs ← combineAt start op lhs rhs
      return .inl lhs

def tightenTurn (operand : ParseM Expr) (op : Operator) (rhs : Expr) : ParseM (Expr ⊕ Expr) := do
  match (← operator?) with
  | none => return .inr rhs
  | some next =>
    if op.precedence < next.precedence then
      let rhs ← climbAll operand (op.precedence + 1) rhs
      return .inl rhs
    else if next.precedence = op.precedence ∧ next.groupsRight then
      let rhs ← climbAll operand op.precedence rhs
      return .inl rhs
    else return .inr rhs

theorem ne_end_of_operator {kind : TokenKind} {op : Operator} (h : Operator.ofToken? kind = some op) :
    kind ≠ .endOfFile := by
  rintro rfl
  cases h

theorem onward_combineAt (start : Token) (op : Operator) (lhs rhs : Expr) :
    Onward (combineAt start op lhs rhs) := fun _ => motion_passes.keeps_combineAt start op lhs rhs

/-- Bounds of twice the tokens ahead are as good as any: each operator takes two at most. -/
def ClimbSettles (operand : ParseM Expr) (n : Nat) : Prop :=
  ∀ (bound bound' least : Nat) (lhs : Expr) (s : State), s.Placed → s.ahead.length ≤ n →
    2 * n ≤ bound + 1 → 2 * n ≤ bound' + 1 →
    climb operand bound least lhs s = climb operand bound' least lhs s

def TightenSettles (operand : ParseM Expr) (n : Nat) : Prop :=
  ∀ (bound bound' : Nat) (op : Operator) (rhs : Expr) (s : State), s.Placed → s.ahead.length ≤ n →
    2 * n ≤ bound → 2 * n ≤ bound' →
    tighten operand bound op rhs s = tighten operand bound' op rhs s

section
variable {operand : ParseM Expr} (ho : Onward operand) {s : State}
include ho

theorem Onward.climb (bound least : Nat) (lhs : Expr) : Onward (climb operand bound least lhs) :=
  (motion_passes.keeps_climb_tighten ho bound).1 least lhs

theorem Onward.tighten (bound : Nat) (op : Operator) (rhs : Expr) :
    Onward (tighten operand bound op rhs) :=
  (motion_passes.keeps_climb_tighten ho bound).2 op rhs

theorem Onward.ends_climb {op : Operator} (h : s.Placed)
    (hop : Operator.ofToken? s.token.kind = some op) {least : Nat} (hleast : least ≤ op.precedence)
    {bound : Nat} (hbound : 0 < bound) (lhs : Expr) :
    Ends (Grammar.climb operand bound least lhs) s (fun _ t => Shorter s t)
      fun _ t => Shorter s t := by
  obtain ⟨bound, rfl⟩ := Nat.exists_eq_add_one_of_ne_zero (Nat.ne_of_gt hbound)
  rw [Grammar.climb]
  refine (ends_bind _ _).2 (ends_operator?.2 ?_)
  rw [hop]
  dsimp only
  rw [if_neg (Nat.not_lt.2 hleast)]
  refine (ends_bind _ _).2 (ends_token.2 ((ends_bind _ _).2 (ends_bump.2 ?_)))
  have hbump := shorter_bump h (ne_end_of_operator hop)
  refine Ends.bind (ho.further hbump) fun rhs t ht => ?_
  refine Ends.bind ((ho.tighten bound op rhs).further ht) fun rhs t ht => ?_
  refine Ends.bind ((onward_combineAt _ op lhs rhs).further ht) fun e t ht => ?_
  exact (ho.climb bound least e).further ht

theorem Onward.climbSettles {n : Nat} (hclimb : ClimbSettles operand n)
    (htighten : TightenSettles operand n) : ClimbSettles operand (n + 1) := by
  intro bound bound' least lhs s h hlength hbound hbound'
  obtain ⟨bound, rfl⟩ := Nat.exists_eq_add_one_of_ne_zero (n := bound) (by omega)
  obtain ⟨bound', rfl⟩ := Nat.exists_eq_add_one_of_ne_zero (n := bound') (by omega)
  have hless : ∀ {t : State}, Shorter s t → t.ahead.length ≤ n := by
    intro t ht
    have hlt := ht.2
    omega
  rw [Grammar.climb, Grammar.climb, operator_bind, operator_bind]
  cases hop : Operator.ofToken? s.token.kind with
  | none => rfl
  | some op =>
    dsimp only
    split
    · rfl
    have hbump := shorter_bump h (ne_end_of_operator hop)
    show (operand >>= _) s.bump = (operand >>= _) s.bump
    refine bind_congr_of_ends rfl (ho.further hbump) fun rhs t ht => ?_
    have hrhs := htighten bound bound' op rhs t ht.passes.placed (hless ht) (by omega) (by omega)
    refine bind_congr_of_ends hrhs ((ho.tighten bound' op rhs).further ht) fun rhs t ht => ?_
    refine bind_congr_of_ends rfl ((onward_combineAt _ op lhs rhs).further ht) fun e t ht => ?_
    exact hclimb bound bound' least e t ht.passes.placed (hless ht) (by omega) (by omega)

theorem Onward.tightenSettles {n : Nat} (hclimb : ClimbSettles operand (n + 1))
    (htighten : TightenSettles operand n) : TightenSettles operand (n + 1) := by
  intro bound bound' op rhs s h hlength hbound hbound'
  obtain ⟨bound, rfl⟩ := Nat.exists_eq_add_one_of_ne_zero (n := bound) (by omega)
  obtain ⟨bound', rfl⟩ := Nat.exists_eq_add_one_of_ne_zero (n := bound') (by omega)
  have hturn : ∀ {next : Operator} {least : Nat}, Operator.ofToken? s.token.kind = some next →
      least ≤ next.precedence →
      (Grammar.climb operand bound least rhs >>= Grammar.tighten operand bound op) s =
        (Grammar.climb operand bound' least rhs >>= Grammar.tighten operand bound' op) s := by
    intro next least hnext hleast
    refine bind_congr_of_ends (hclimb bound bound' least rhs s h hlength hbound hbound')
      (ho.ends_climb h hnext hleast (by omega) rhs) fun e t ht => ?_
    have hlt := ht.2
    exact htighten bound bound' op e t ht.passes.placed (by omega) (by omega) (by omega)
  rw [Grammar.tighten, Grammar.tighten, operator_bind, operator_bind]
  cases hnext : Operator.ofToken? s.token.kind with
  | none => rfl
  | some next =>
    dsimp only
    split
    · next htighter => exact hturn hnext htighter
    split
    · next hsame => exact hturn hnext (Nat.le_of_eq hsame.1.symm)
    · rfl

theorem Onward.settles (n : Nat) : ClimbSettles operand n ∧ TightenSettles operand n := by
  induction n with
  | zero =>
    have hnone : ∀ s : State, ¬s.ahead.length ≤ 0 := fun s => Nat.not_le_of_lt s.length_ahead_pos
    constructor
    · intro bound bound' least lhs s _ hlength
      exact absurd hlength (hnone s)
    · intro bound bound' op rhs s _ hlength
      exact absurd hlength (hnone s)
  | succ n ih =>
    have hclimb := ho.climbSettles ih.1 ih.2
    exact ⟨hclimb, ho.tightenSettles hclimb ih.2⟩

theorem Onward.climb_eq_climbAll (h : s.Placed) {bound : Nat} (hbound : 2 * s.ahead.length ≤ bound + 1)
    (least : Nat) (lhs : Expr) :
    Grammar.climb operand bound least lhs s = climbAll operand least lhs s := by
  have hremaining := s.length_ahead_le
  rw [climbAll, get_bind]
  exact (ho.settles s.ahead.length).1 _ _ least lhs s h (Nat.le_refl _) hbound (by omega)

theorem Onward.tighten_eq_tightenAll (h : s.Placed) {bound : Nat} (hbound : 2 * s.ahead.length ≤ bound)
    (op : Operator) (rhs : Expr) :
    Grammar.tighten operand bound op rhs s = Grammar.tightenAll operand op rhs s := by
  have hremaining := s.length_ahead_le
  rw [tightenAll, get_bind]
  exact (ho.settles s.ahead.length).2 _ _ op rhs s h (Nat.le_refl _) hbound (by omega)

theorem Onward.tightenAll (op : Operator) (rhs : Expr) : Onward (tightenAll operand op rhs) := by
  intro s
  unfold Grammar.tightenAll
  exact .bind motion_passes motion_passes.keeps_get fun _ t _ => ho.tighten _ op rhs t

theorem Onward.ends_climbAll {op : Operator} (h : s.Placed)
    (hop : Operator.ofToken? s.token.kind = some op) {least : Nat} (hleast : least ≤ op.precedence)
    (lhs : Expr) :
    Ends (climbAll operand least lhs) s (fun _ t => Shorter s t) fun _ t => Shorter s t := by
  have hpos : 0 < 2 * s.remaining := Nat.mul_pos (by decide) (Nat.succ_pos _)
  unfold climbAll
  exact (ends_bind _ _).2 (ends_get.2 (ho.ends_climb h hop hleast hpos lhs))

theorem Onward.moves_climbTurn (least : Nat) (lhs : Expr) (h : s.Placed) :
    Moves s (climbTurn operand least lhs) s := by
  unfold climbTurn
  refine (ends_bind _ _).2 (ends_operator?.2 ?_)
  split
  · exact moves_last h lhs
  next op hop =>
  split
  · exact moves_last h lhs
  refine (ends_bind _ _).2 (ends_token.2 ((ends_bind _ _).2 (ends_bump.2 ?_)))
  have hbump := shorter_bump h (ne_end_of_operator hop)
  refine moves_of_further (Ends.bind (ho.further hbump) fun rhs t ht => ?_)
  refine Ends.bind ((ho.tightenAll op rhs).further ht) fun rhs t ht => ?_
  exact Ends.bind ((onward_combineAt _ op lhs rhs).further ht) fun e t ht => ht

theorem Onward.moves_tightenTurn (op : Operator) (rhs : Expr) (h : s.Placed) :
    Moves s (tightenTurn operand op rhs) s := by
  unfold tightenTurn
  refine (ends_bind _ _).2 (ends_operator?.2 ?_)
  split
  · exact moves_last h rhs
  next next hnext =>
  split
  · next htighter =>
    exact moves_of_further (Ends.bind (ho.ends_climbAll h hnext htighter rhs) fun e t ht => ht)
  split
  · next hsame =>
    have hleast := Nat.le_of_eq hsame.1.symm
    exact moves_of_further (Ends.bind (ho.ends_climbAll h hnext hleast rhs) fun e t ht => ht)
  · exact moves_last h rhs

theorem Onward.climb_succ (h : s.Placed) {bound : Nat} (hbound : 2 * s.ahead.length ≤ bound + 1)
    (least : Nat) (lhs : Expr) :
    Grammar.climb operand (bound + 1) least lhs s =
      thenTurn (climbTurn operand least) (Grammar.climb operand bound least) lhs s := by
  rw [Grammar.climb, thenTurn, climbTurn, bind_assoc, operator_bind, operator_bind]
  cases hop : Operator.ofToken? s.token.kind with
  | none => rfl
  | some op =>
    dsimp only
    split
    · rfl
    have hbump := shorter_bump h (ne_end_of_operator hop)
    simp only [bind_assoc, pure_bind]
    show (operand >>= _) s.bump = (operand >>= _) s.bump
    refine bind_congr_of_ends rfl (ho.further hbump) fun rhs t ht => ?_
    have hlt := ht.2
    have hrest : 2 * t.ahead.length ≤ bound := by omega
    have hrhs := ho.tighten_eq_tightenAll ht.passes.placed hrest op rhs
    exact bind_congr_of_ends hrhs ((ho.tightenAll op rhs).further ht) fun _ _ _ => rfl

theorem Onward.tighten_succ (h : s.Placed) {bound : Nat} (hbound : 2 * s.ahead.length ≤ bound + 1)
    (op : Operator) (rhs : Expr) :
    Grammar.tighten operand (bound + 1) op rhs s =
      thenTurn (tightenTurn operand op) (Grammar.tighten operand bound op) rhs s := by
  have hclimb : ∀ least, Grammar.climb operand bound least rhs s = climbAll operand least rhs s :=
    fun least => ho.climb_eq_climbAll h hbound least rhs
  rw [Grammar.tighten, thenTurn, tightenTurn, bind_assoc, operator_bind, operator_bind]
  cases hnext : Operator.ofToken? s.token.kind with
  | none => rfl
  | some next =>
    dsimp only
    split
    · next htighter =>
      simp only [bind_assoc, pure_bind]
      exact bind_congr_of_ends (hclimb _) (ho.ends_climbAll h hnext htighter rhs) fun _ _ _ => rfl
    split
    · next hsame =>
      have hleast := Nat.le_of_eq hsame.1.symm
      simp only [bind_assoc, pure_bind]
      exact bind_congr_of_ends (hclimb _) (ho.ends_climbAll h hnext hleast rhs) fun _ _ _ => rfl
    · rfl

theorem Onward.loops_climb (least : Nat) (lhs : Expr) (h : s.Placed) :
    Loops (climbTurn operand least) lhs s (climbAll operand least lhs s) := by
  have hremaining := s.length_ahead_le
  rw [climbAll, get_bind]
  exact loops_of_thenTurn (fun bound => Grammar.climb operand bound least) Nat.two_pos
    (fun bound lhs s h hbound => ho.climb_succ h hbound least lhs)
    (fun lhs s => ho.moves_climbTurn least lhs) h (by omega)

theorem Onward.loops_tighten (op : Operator) (rhs : Expr) (h : s.Placed) :
    Loops (tightenTurn operand op) rhs s (Grammar.tightenAll operand op rhs s) := by
  have hremaining := s.length_ahead_le
  rw [Grammar.tightenAll, get_bind]
  exact loops_of_thenTurn (fun bound => Grammar.tighten operand bound op) Nat.two_pos
    (fun bound rhs s h hbound => ho.tighten_succ h hbound op rhs)
    (fun rhs s => ho.moves_tightenTurn op rhs) h (by omega)

end

/-! ### All loops -/

/-- What loops do from one place in a source, given a reader of operands. -/
structure Progresses (operand : ParseM Expr) (s : State) : Prop where
  declarations : Loops declarationTurn () s (.ok () (declarations s.remaining s))
  newlines : Loops skipNewlineTurn () s (.ok () (skipNewlines s.remaining s))
  arguments : ∀ args, Loops declaredArgumentTurn args s (declaredArguments s.remaining args s)
  statements : ∀ id, Loops (statementTurn operand id) () s
    (.ok () (statements operand id s.remaining s))
  callArguments : ∀ callee args, Loops (callArgumentTurn operand callee) args s
    (callArguments operand callee s.remaining args s)
  branches : ∀ branches, Loops (branchTurn operand) branches s
    (furtherBranches operand s.remaining branches s)
  climb : ∀ least lhs, Loops (climbTurn operand least) lhs s (climbAll operand least lhs s)
  tighten : ∀ op rhs, Loops (tightenTurn operand op) rhs s (tightenAll operand op rhs s)
  expression : ∀ lhs t, operand s = .ok lhs t → Loops (climbTurn operand 1) lhs t (expression operand s)
  endStatement : Loops skipStatementTurn 0 { s with brackets := 0 } (.ok () s.endStatement)
  endDeclaration : Loops skipDeclarationTurn 0 { s with brackets := 0 } (.ok () s.endDeclaration)
  /-- The count of open braces goes down by exactly one at a closing brace. -/
  depth : ∀ depth next t, s.token.kind = .symbol .closedCurly →
    skipStatementTurn depth s = .ok (.inl next) t → depth = next + 1
  /-- What follows a statement with a problem starts behind its first token, if not further on. -/
  failedStatement : endsStatement s.token.kind = false → ∀ p t, statement operand s = .error p t →
    Shorter s (t.report p).endStatement
  /-- The same behind a declaration, and behind what is none. -/
  failedDeclaration : s.token.kind ≠ .newline → s.token.kind ≠ .endOfFile →
    Shorter s s.endDeclaration ∧ ∀ p t, functionHead s = .error p t ∨ useDeclaration s = .error p t →
      Shorter s (t.endDeclaration.report p)

section
variable {operand : ParseM Expr} {s t : State}

theorem shorter_endDeclaration (hst : Passes s t) (hline : s.token.kind ≠ .newline)
    (hend : s.token.kind ≠ .endOfFile) : Shorter s t.endDeclaration := by
  have hpasses := motion_passes.endDeclaration t hst.placed
  refine ⟨hst.trans hpasses, ?_⟩
  by_cases hsame : t.ahead.length = s.ahead.length
  · have hkind := hst.kind_eq hsame
    rw [← hsame]
    exact length_ahead_endDeclaration hst.placed (by rwa [hkind]) (by rwa [hkind])
  · have hle := hst.length_le
    have hle' := hpasses.length_le
    omega

theorem depth_skipStatementTurn {depth next : Nat} (hk : s.token.kind = .symbol .closedCurly)
    (h : skipStatementTurn depth s = .ok (.inl next) t) : depth = next + 1 := by
  unfold skipStatementTurn at h
  rw [kind_bind, hk] at h
  cases depth with
  | zero => cases h
  | succ outer =>
    cases h
    rfl

theorem Onward.progresses (ho : Onward operand) (h : s.Placed) : Progresses operand s := by
  have hstill : Passes s { s with brackets := 0 } := .still h rfl rfl rfl
  refine
    { declarations := loops_declarations h
      newlines := loops_skipNewlines h
      arguments := fun args => loops_declaredArguments args h
      statements := fun id => ho.loops_statements id h
      callArguments := fun callee args => ho.loops_callArguments callee args h
      branches := fun branches => ho.loops_furtherBranches branches h
      climb := fun least lhs => ho.loops_climb least lhs h
      tighten := fun op rhs => ho.loops_tighten op rhs h
      expression := fun lhs t hrun => ?_
      endStatement := loops_skipStatement hstill.placed 0
      endDeclaration := loops_skipDeclaration hstill.placed 0
      depth := fun depth next t => depth_skipStatementTurn
      failedStatement := fun hk p t hrun => ?_
      failedDeclaration := fun hline hend => ⟨shorter_endDeclaration (.refl h) hline hend, ?_⟩ }
  · have hexpression : Grammar.expression operand s = climbAll operand 1 lhs t := by
      show EStateM.bind operand _ s = _
      rw [EStateM.bind, hrun]
      rfl
    rw [hexpression]
    exact ho.loops_climb 1 lhs ((ends_iff.1 (ho.ends h)).1 lhs t hrun).placed
  · have hstatement : Onward (statement operand) := motion_passes.keeps_statement ho
    have hst := (ends_iff.1 (hstatement.ends h)).2 p t hrun
    refine ⟨passes_recovered hst p, hst.length_recovered p fun hsame => ?_⟩
    rw [hst.kind_eq hsame, hk]
  · intro p t hrun
    have hst : Passes s t := by
      rcases hrun with hrun | hrun
      · exact (ends_iff.1 (motion_passes.keeps_functionHead s)).2 p t hrun h
      · exact (ends_iff.1 (motion_passes.keeps_useDeclaration s)).2 p t hrun h
    have hrecovered := shorter_endDeclaration hst hline hend
    exact hrecovered.trans (.still hrecovered.passes.placed rfl rfl rfl)

theorem onward_operandWithin (depth : Nat) : Onward (operandWithin depth) :=
  motion_passes.keeps_operandWithin depth

end

/-- Whatever a source holds, it is read to its end in finitely many declarations, and at every place in
it, however deep operands are nested there, each turn of each loop ends the loop or passes the token
that it started at. -/
theorem progresses_parse (source : List Char) :
    (State.ofSource source).Placed ∧
    (∃ t, Loops declarationTurn () (State.ofSource source) (.ok () t) ∧ t.token.kind = .endOfFile ∧
      Program.parse source = ⟨t.functions, t.externs, t.diagnostics.toList⟩) ∧
    ∀ depth s, s.Placed → Progresses (operandWithin depth) s := by
  have hstart := placed_ofSource source
  refine ⟨hstart, ⟨_, loops_declarations hstart, ?_, rfl⟩, fun depth s h => ?_⟩
  · exact end_declarations hstart (State.length_ahead_le _)
  · exact (onward_operandWithin depth).progresses h

def garbled : List Char := "\x7d func\nf(((".toList

theorem progresses_parse_garbled :
    (State.ofSource garbled).Placed ∧ Progresses (operandWithin nestingLimit) (State.ofSource garbled) ∧
    Shorter (State.ofSource garbled) (State.ofSource garbled).endDeclaration := by
  obtain ⟨hstart, -, hloops⟩ := progresses_parse garbled
  have hprogresses := hloops nestingLimit _ hstart
  exact ⟨hstart, hprogresses,
    (hprogresses.failedDeclaration (by decide +kernel) (by decide +kernel)).1⟩

end ScalarJit.Grammar
