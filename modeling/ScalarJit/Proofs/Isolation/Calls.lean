import ScalarJit.Proofs.Grammar.Loops
import ScalarJit.Proofs.Grammar.WellFormed
import ScalarJit.Proofs.Isolation.Braces

/-! # Readers that are reached

Readers call one another down to the bodies of blocks. `Calls` says which reader calls which, where,
and how many levels of operands are left for it; `Turns` says where a loop goes on. A reader that is
reached so, from the head of a function on, stands in the source with a block open, and the state counts
the operands that are being read above it. -/

namespace ScalarJit.Grammar

/-! ### Calls -/

inductive Task where
  | operand
  /-- What an operand is, once it is counted. -/
  | counted
  | expression
  | climb (least : Nat) (lhs : Expr)
  | tighten (op : Operator) (rhs : Expr)
  | arguments (callee : String) (args : List Expr)
  | branch (keyword : Keyword)
  | branches (branches : List Branch)
  | statement
  | statements (id : BlockId)
  | body (id : BlockId)

def Task.isOperand : Task → Bool
  | .operand => true
  | _ => false

def bindingHead : ParseM (Token × String × Option Ty) := do
  bump
  let start ← token
  let name ← identifier .expectedVariableName
  let given ←
    if (← kind) = .symbol .colon then
      bump
      some <$> typeName
    else pure none
  expectSymbol .assign .expectedInitialValue
  return (start, name, given)

/-- One reader calls another. The numbers are the levels of operands that may still be opened. -/
inductive Calls : Nat → Task → State → Nat → Task → State → Prop where
  | counted {d : Nat} {s : State} (h : s.nesting < nestingLimit) :
    Calls (d + 1) .operand s d .counted s.descend
  | signed {d : Nat} {s : State}
    (h : s.token.kind = .symbol .minus ∨ s.token.kind = .symbol .plus) :
    Calls d .counted s d .operand s.bump
  | bracketed {d : Nat} {s t : State} (h : s.token.kind = .symbol .openBracket)
    (ht : t = { s with brackets := s.brackets + 1 }.bump)
    (hsome : t.token.kind ≠ .symbol .closedBracket) : Calls d .counted s d .expression t
  | block {d : Nat} {s : State} (h : s.token.kind = .symbol .openCurly) :
    Calls d .counted s d (.body s.openBlock.1) s.openBlock.2
  | call {d : Nat} {s t : State} {callee : String} (h : s.token.kind = .identifier callee)
    (hopen : s.bump.token.kind = .symbol .openBracket)
    (ht : t = { s.bump with brackets := s.bump.brackets + 1 }.bump)
    (hsome : t.token.kind ≠ .symbol .closedBracket) :
    Calls d .counted s d (.arguments callee []) t
  | conditional {d : Nat} {s : State} (h : s.token.kind = .keyword .ifBranch) :
    Calls d .counted s d (.branch .ifBranch) s
  | further {d : Nat} {s t : State} {head : Branch} (h : s.token.kind = .keyword .ifBranch)
    (hhead : branch (operandWithin d) .ifBranch s = .ok head t) :
    Calls d .counted s d (.branches []) t
  | otherwise {d : Nat} {s t u : State} {head : Branch} {more : List Branch}
    (h : s.token.kind = .keyword .ifBranch)
    (hhead : branch (operandWithin d) .ifBranch s = .ok head t)
    (hmore : furtherBranches (operandWithin d) t.remaining [] t = .ok more u)
    (helse : u.token.kind = .keyword .elseBranch)
    (hopen : u.bump.token.kind = .symbol .openCurly) :
    Calls d .counted s d (.body u.bump.openBlock.1) u.bump.openBlock.2
  | condition {d : Nat} {s : State} {keyword : Keyword} :
    Calls d (.branch keyword) s d .expression s.bump
  | branchBlock {d : Nat} {s t : State} {keyword : Keyword} {condition : Expr}
    (hcondition : expression (operandWithin d) s.bump = .ok condition t)
    (hopen : t.token.kind = .symbol .openCurly) :
    Calls d (.branch keyword) s d (.body t.openBlock.1) t.openBlock.2
  | furtherBranch {d : Nat} {s : State} {branches : List Branch}
    (h : s.token.kind = .keyword .elifBranch) :
    Calls d (.branches branches) s d (.branch .elifBranch) s
  | argument {d : Nat} {s : State} {callee : String} {args : List Expr} :
    Calls d (.arguments callee args) s d .expression s
  | lhs {d : Nat} {s : State} : Calls d .expression s d .operand s
  | fold {d : Nat} {s t : State} {lhs : Expr} (hlhs : operandWithin d s = .ok lhs t) :
    Calls d .expression s d (.climb 1 lhs) t
  | rhs {d least : Nat} {s : State} {lhs : Expr} {op : Operator}
    (hop : Operator.ofToken? s.token.kind = some op) (hleast : least ≤ op.precedence) :
    Calls d (.climb least lhs) s d .operand s.bump
  | tighten {d least : Nat} {s t : State} {lhs rhs : Expr} {op : Operator}
    (hop : Operator.ofToken? s.token.kind = some op) (hleast : least ≤ op.precedence)
    (hrhs : operandWithin d s.bump = .ok rhs t) :
    Calls d (.climb least lhs) s d (.tighten op rhs) t
  | tighter {d : Nat} {s : State} {rhs : Expr} {op next : Operator}
    (hnext : Operator.ofToken? s.token.kind = some next) (h : op.precedence < next.precedence) :
    Calls d (.tighten op rhs) s d (.climb (op.precedence + 1) rhs) s
  | asTight {d : Nat} {s : State} {rhs : Expr} {op next : Operator}
    (hnext : Operator.ofToken? s.token.kind = some next)
    (h : next.precedence = op.precedence ∧ next.groupsRight) :
    Calls d (.tighten op rhs) s d (.climb op.precedence rhs) s
  | value {d : Nat} {s t : State} {head : Token × String × Option Ty}
    (h : s.token.kind = .keyword .letBinding ∨ s.token.kind = .keyword .varBinding)
    (hhead : bindingHead s = .ok head t) : Calls d .statement s d .expression t
  | returned {d : Nat} {s : State} (h : s.token.kind = .keyword .returns)
    (hmore : endsStatement s.bump.token.kind = false) : Calls d .statement s d .expression s.bump
  | plain {d : Nat} {s : State}
    (h : ∀ word ∈ [Keyword.letBinding, .varBinding, .returns, .function, .uses],
      s.token.kind ≠ .keyword word) : Calls d .statement s d .expression s
  | statement {d : Nat} {s : State} {id : BlockId} (h : endsStatement s.token.kind = false) :
    Calls d (.statements id) s d .statement s
  | inside {d : Nat} {s : State} {id : BlockId} :
    Calls d (.body id) s d (.statements id) { s with brackets := 0 }.bump

inductive Turns (d : Nat) : Task → State → Task → State → Prop where
  | climb {least : Nat} {lhs e : Expr} {s t : State}
    (h : climbTurn (operandWithin d) least lhs s = .ok (.inl e) t) :
    Turns d (.climb least lhs) s (.climb least e) t
  | tighten {op : Operator} {rhs e : Expr} {s t : State}
    (h : tightenTurn (operandWithin d) op rhs s = .ok (.inl e) t) :
    Turns d (.tighten op rhs) s (.tighten op e) t
  | arguments {callee : String} {args more : List Expr} {s t : State}
    (h : callArgumentTurn (operandWithin d) callee args s = .ok (.inl more) t) :
    Turns d (.arguments callee args) s (.arguments callee more) t
  | branches {branches more : List Branch} {s t : State}
    (h : branchTurn (operandWithin d) branches s = .ok (.inl more) t) :
    Turns d (.branches branches) s (.branches more) t
  | statements {id : BlockId} {s t : State}
    (h : statementTurn (operandWithin d) id () s = .ok (.inl ()) t) :
    Turns d (.statements id) s (.statements id) t

/-- A reader is reached while a source is read, below the readers of `callers`. It starts at the body
of a function. -/
inductive Reached (source : List Char) : List Task → Nat → Task → State → Prop where
  | function {n : Nat} {name : String} {signature : Signature} {s t : State}
    (hs : s = declarations n (State.ofSource source)) (h : s.token.kind = .keyword .function)
    (hhead : functionHead s = .ok (name, signature) t) :
    Reached source [] nestingLimit (.body rootBlock) (atBody name signature t)
  | call {callers : List Task} {d d' : Nat} {task callee : Task} {s t : State}
    (h : Reached source callers d task s) (hcall : Calls d task s d' callee t) :
    Reached source (task :: callers) d' callee t
  | turn {callers : List Task} {d : Nat} {task next : Task} {s t : State}
    (h : Reached source callers d task s) (hturn : Turns d task s next t) :
    Reached source callers d next t

/-- Each operand that is being read takes one level, and there are as many as may nest. -/
theorem Reached.levels {source : List Char} {callers : List Task} {d : Nat} {task : Task} {s : State}
    (h : Reached source callers d task s) : callers.countP Task.isOperand + d = nestingLimit := by
  induction h with
  | function _ _ _ => rfl
  | call _ hcall ih =>
    rw [List.countP_cons]
    cases hcall <;> simp only [Task.isOperand, if_true, Bool.false_eq_true, if_false] <;> omega
  | turn _ _ ih => exact ih

/-! ### The count of operands -/

section
variable {R : State → State → Prop} (hR : Motion R) {operand : ParseM Expr}
include hR

theorem Motion.keeps_bindingHead (s : State) : Keeps R bindingHead s := by
  have hassign : ∀ (start : Token) (name : String) (given : Option Ty) (s : State), Keeps R (do
      expectSymbol .assign .expectedInitialValue
      return (start, name, given)) s :=
    fun _ _ _ _ => .bind hR (hR.keeps_expectSymbol _ _) fun _ _ _ => hR.keeps_pure _
  unfold bindingHead
  refine .bind hR hR.keeps_bump fun _ t _ => ?_
  refine .bind hR hR.keeps_token fun start t _ => ?_
  refine .bind hR (hR.keeps_identifier _) fun name t _ => ?_
  refine .bind hR hR.keeps_kind fun _ t _ => ?_
  dsimp only
  split
  · refine .bind hR hR.keeps_bump fun _ t _ => ?_
    exact .bind hR ((ends_map _ _).2 hR.keeps_typeName) fun given t _ => hassign start name given t
  · exact .bind hR (hR.keeps_pure _) fun given t _ => hassign start name given t

theorem Motion.keeps_climbAll (ho : ∀ s, Keeps R operand s) (least : Nat) (lhs : Expr) (s : State) :
    Keeps R (climbAll operand least lhs) s :=
  .bind hR hR.keeps_get fun _ s _ => (hR.keeps_climb_tighten ho _).1 least lhs s

theorem Motion.keeps_climbTurn (ho : ∀ s, Keeps R operand s) (least : Nat) (lhs : Expr) (s : State) :
    Keeps R (climbTurn operand least lhs) s := by
  unfold climbTurn
  refine .bind hR (hR.refl s) fun op s _ => ?_
  split
  · exact hR.keeps_pure _
  split
  · exact hR.keeps_pure _
  refine .bind hR hR.keeps_token fun start s _ => ?_
  refine .bind hR hR.keeps_bump fun _ s _ => ?_
  refine .bind hR (ho s) fun rhs s _ => ?_
  refine .bind hR (.bind hR hR.keeps_get fun _ s _ => (hR.keeps_climb_tighten ho _).2 _ rhs s)
    fun rhs s _ => ?_
  exact .bind hR (hR.keeps_combineAt ..) fun e s _ => hR.keeps_pure _

theorem Motion.keeps_tightenTurn (ho : ∀ s, Keeps R operand s) (op : Operator) (rhs : Expr)
    (s : State) : Keeps R (tightenTurn operand op rhs) s := by
  unfold tightenTurn
  refine .bind hR (hR.refl s) fun next s _ => ?_
  split
  · exact hR.keeps_pure _
  split
  · exact .bind hR (hR.keeps_climbAll ho _ rhs s) fun e s _ => hR.keeps_pure _
  split
  · exact .bind hR (hR.keeps_climbAll ho _ rhs s) fun e s _ => hR.keeps_pure _
  · exact hR.keeps_pure _

theorem Motion.keeps_callArgumentTurn (ho : ∀ s, Keeps R operand s) (callee : String)
    (args : List Expr) (s : State) : Keeps R (callArgumentTurn operand callee args) s := by
  unfold callArgumentTurn afterArgument
  refine .bind hR (hR.keeps_expression ho s) fun arg s _ => ?_
  refine .bind hR hR.keeps_kind fun found s _ => ?_
  split
  · exact .bind hR hR.keeps_bump fun _ s _ => hR.keeps_pure _
  · exact hR.keeps_pure _
  · exact hR.keeps_failHere _

theorem Motion.keeps_branchTurn (ho : ∀ s, Keeps R operand s) (branches : List Branch) (s : State) :
    Keeps R (branchTurn operand branches) s := by
  unfold branchTurn
  refine .bind hR hR.keeps_kind fun found s _ => ?_
  split
  · exact .bind hR (hR.keeps_branch ho _ s) fun next s _ => hR.keeps_pure _
  · exact hR.keeps_pure _

theorem Motion.behindStatement (ho : ∀ s, Keeps R operand s) (id : BlockId) {s : State}
    (hk : endsStatement s.token.kind = false) : R s (behindStatement operand id s) := by
  have hone := hR.statements ho id 1 s
  rwa [statements_unended hk] at hone

end

theorem statementTurn_cases (operand : ParseM Expr) (id : BlockId) (s : State) :
    (s.token.kind = .newline ∧ statementTurn operand id () s = .ok (.inl ()) s.bump) ∨
    (s.token.kind = .symbol .closedCurly ∧ statementTurn operand id () s = .ok (.inr ()) s) ∨
    (s.token.kind = .endOfFile ∧ statementTurn operand id () s =
      .ok (.inr ()) (s.report ⟨.unclosedBlock, s.token.position⟩)) ∨
    (endsStatement s.token.kind = false ∧ statementTurn operand id () s =
      .ok (.inl ()) (behindStatement operand id s)) := by
  rw [statementTurn, kind_bind]
  rcases endsStatement_cases s.token.kind with hk | hk | hk | hk
  · rw [hk]
    exact .inl ⟨rfl, rfl⟩
  · rw [hk]
    exact .inr (.inl ⟨rfl, rfl⟩)
  · rw [hk]
    exact .inr (.inr (.inl ⟨rfl, rfl⟩))
  · refine .inr (.inr (.inr ⟨hk, ?_⟩))
    generalize s.token.kind = found at hk ⊢
    cases found with
    | newline => cases hk
    | endOfFile => cases hk
    | symbol symbol =>
      cases symbol with
      | closedCurly => cases hk
      | _ => rfl
    | _ => rfl

theorem nesting_of_ok {α : Type} {m : ParseM α} {s t : State} {a : α}
    (h : Keeps (fun s t => t.nesting = s.nesting) m s) (hrun : m s = .ok a t) :
    t.nesting = s.nesting := (ends_iff.1 h).1 a t hrun

theorem Calls.nesting {d d' : Nat} {task callee : Task} {s t : State} (h : Calls d task s d' callee t) :
    t.nesting = s.nesting + if task.isOperand then 1 else 0 := by
  have ho := motion_nesting.keeps_operandWithin d
  cases h with
  | counted _ => rfl
  | bracketed _ ht _ => rw [ht]; rfl
  | call _ _ ht _ => rw [ht]; rfl
  | further _ hhead => exact nesting_of_ok (motion_nesting.keeps_branch ho _ s) hhead
  | otherwise _ hhead hmore _ _ =>
    have hthen := nesting_of_ok (motion_nesting.keeps_branch ho _ s) hhead
    exact (nesting_of_ok (motion_nesting.keeps_furtherBranches ho _ [] _) hmore).trans hthen
  | branchBlock hcondition _ =>
    have hread := nesting_of_ok (motion_nesting.keeps_expression ho s.bump) hcondition
    exact hread
  | fold hlhs => exact nesting_of_ok (ho s) hlhs
  | tighten _ _ hrhs =>
    have hread := nesting_of_ok (ho s.bump) hrhs
    exact hread
  | value _ hhead => exact nesting_of_ok (motion_nesting.keeps_bindingHead s) hhead
  | _ => rfl

theorem Turns.nesting {d : Nat} {task next : Task} {s t : State} (h : Turns d task s next t) :
    t.nesting = s.nesting := by
  have ho := motion_nesting.keeps_operandWithin d
  cases h with
  | climb hrun => exact nesting_of_ok (motion_nesting.keeps_climbTurn ho _ _ s) hrun
  | tighten hrun => exact nesting_of_ok (motion_nesting.keeps_tightenTurn ho _ _ s) hrun
  | arguments hrun => exact nesting_of_ok (motion_nesting.keeps_callArgumentTurn ho _ _ s) hrun
  | branches hrun => exact nesting_of_ok (motion_nesting.keeps_branchTurn ho _ s) hrun
  | @statements id _ _ hrun =>
    rcases statementTurn_cases (operandWithin d) id s with
      ⟨-, hturn⟩ | ⟨-, hturn⟩ | ⟨-, hturn⟩ | ⟨hk, hturn⟩
    · cases hrun.symm.trans hturn
      rfl
    · cases hrun.symm.trans hturn
    · cases hrun.symm.trans hturn
    · cases hrun.symm.trans hturn
      exact motion_nesting.behindStatement ho id hk

/-- The state counts the operands that are being read above a reader. -/
theorem Reached.nesting {source : List Char} {callers : List Task} {d : Nat} {task : Task} {s : State}
    (h : Reached source callers d task s) : s.nesting = callers.countP Task.isOperand := by
  induction h with
  | @function n name signature s t hs _ hhead =>
    have hstart := motion_nesting.declarations (fun _ _ _ => rfl) n (State.ofSource source)
    have ht := nesting_of_ok (motion_nesting.keeps_functionHead s) hhead
    obtain ⟨scope, heq⟩ := atBody_eq name signature t
    rw [heq]
    rw [← hs] at hstart
    exact ht.trans hstart
  | call _ hcall ih => rw [hcall.nesting, ih, List.countP_cons]
  | turn _ hturn ih => exact hturn.nesting.trans ih

/-! ### Where readers start -/

def Task.Fits (id : BlockId) (s : State) : Task → Prop
  | .climb _ e => Grammar.Fits id e s
  | .tighten _ e => Grammar.Fits id e s
  | .arguments _ args => ∀ arg ∈ args, Grammar.Fits id arg s
  | .branches read => ∀ b ∈ read, b.Fits id s
  | .statements within => within = id
  | .body within => within = id ∧ s.token.kind = .symbol .openCurly
  | _ => True

structure Sits (id : BlockId) (task : Task) (s : State) : Prop where
  placed : s.Placed
  inside : s.Inside id
  fits : task.Fits id s

section
variable {operand : ParseM Expr} {id : BlockId} {s t : State} {α : Type}

theorem Branch.Fits.advance {b : Branch} (h : b.Fits id s) (hst : Advance id s t) : b.Fits id t :=
  ⟨hst.fits h.1, hst.fits h.2⟩

theorem Sits.move {task next : Task} (h : Sits id task s) (hadvance : Advance id s t)
    (hpasses : Passes s t) (hfits : next.Fits id t) : Sits id next t :=
  ⟨hpasses.placed, hadvance.inside h.inside, hfits⟩

theorem Sits.still {task next : Task} (h : Sits id task s) (hfits : next.Fits id s) : Sits id next s :=
  ⟨h.placed, h.inside, hfits⟩

theorem Sits.bump {task next : Task} (h : Sits id task s) (hfits : next.Fits id s.bump) :
    Sits id next s.bump := h.move (advance_bump id s) (.bump h.placed) hfits

theorem Sits.bump_brackets {task next : Task} (h : Sits id task s) (count : Nat)
    (hfits : next.Fits id { s with brackets := count }.bump) :
    Sits id next { s with brackets := count }.bump :=
  h.move (advance_bump_brackets id s count) (motion_passes.bump_brackets s count h.placed) hfits

theorem Sits.openBlock {task : Task} (h : Sits id task s) (hk : s.token.kind = .symbol .openCurly) :
    Sits s.openBlock.1 (.body s.openBlock.1) s.openBlock.2 := by
  have hpasses : Passes s s.openBlock.2 := .still h.placed rfl rfl rfl
  exact ⟨hpasses.placed, inside_openBlock s, rfl, hk⟩

theorem Sits.read {task next : Task} (h : Sits id task s) {m : ParseM α} {Q : α → State → Prop}
    (hm : Onward m) (hread : Reading id m s Q) {a : α} (hrun : m s = .ok a t)
    (hfits : Q a t → next.Fits id t) : Sits id next t := by
  obtain ⟨hadvance, ha⟩ := (ends_iff.1 hread).1 a t hrun
  exact h.move hadvance ((ends_iff.1 (hm.ends h.placed)).1 a t hrun) (hfits ha)

theorem Sits.turn {task next : Task} (h : Sits id task s) {α β : Type} {turn : ParseM (α ⊕ β)}
    {Q : α ⊕ β → State → Prop} (hmoves : Moves s turn s) (hread : Reading id turn s Q) {a : α}
    (hrun : turn s = .ok (.inl a) t) (hfits : Q (.inl a) t → next.Fits id t) : Sits id next t := by
  obtain ⟨hadvance, ha⟩ := (ends_iff.1 hread).1 _ t hrun
  exact h.move hadvance ((ends_iff.1 hmoves).1 _ t hrun).1 (hfits ha)

theorem Reads.climbAll (ho : Reads operand) (hs : s.Inside id) (least : Nat) {lhs : Expr}
    (hl : Fits id lhs s) : Reading id (climbAll operand least lhs) s (Fits id) := by
  unfold Grammar.climbAll
  refine .bind hs (.get (Q := fun _ _ => True) trivial) fun _ t hst ht _ => ?_
  exact (reading_climb_tighten ho _).1 least lhs t ht (hst.fits hl)

theorem Reads.tightenAll (ho : Reads operand) (hs : s.Inside id) (op : Operator) {rhs : Expr}
    (hr : Fits id rhs s) : Reading id (tightenAll operand op rhs) s (Fits id) := by
  unfold Grammar.tightenAll
  refine .bind hs (.get (Q := fun _ _ => True) trivial) fun _ t hst ht _ => ?_
  exact (reading_climb_tighten ho _).2 op rhs t ht (hst.fits hr)

theorem Reads.climbTurn (ho : Reads operand) (hs : s.Inside id) (least : Nat) {lhs : Expr}
    (hl : Fits id lhs s) :
    Reading id (climbTurn operand least lhs) s fun next t => ∀ e, next = .inl e → Fits id e t := by
  unfold Grammar.climbTurn
  refine .bind hs .operator? fun op t hst ht _ => ?_
  have hl := hst.fits hl
  split
  · exact .pure fun e he => (by cases he)
  split
  · exact .pure fun e he => (by cases he)
  refine .bind ht .token fun start u htu hu _ => ?_
  have hl := htu.fits hl
  refine .bind hu .bump fun _ v huv hv _ => ?_
  have hl := huv.fits hl
  refine .bind hv (ho id v hv) fun rhs w hvw hw hr => ?_
  have hl := hvw.fits hl
  refine .bind hw (ho.tightenAll hw _ hr) fun rhs x hwx hx hr => ?_
  have hl := hwx.fits hl
  refine .bind hx (reading_combineAt hl hr start _) fun e y _ _ he => .pure fun e' heq => ?_
  cases heq
  exact he

theorem Reads.tightenTurn (ho : Reads operand) (hs : s.Inside id) (op : Operator) {rhs : Expr}
    (hr : Fits id rhs s) :
    Reading id (tightenTurn operand op rhs) s fun next t => ∀ e, next = .inl e → Fits id e t := by
  have hclimb : ∀ (least : Nat) (t : State), t.Inside id → Fits id rhs t →
      Reading id (do
        let rhs ← Grammar.climbAll operand least rhs
        return (.inl rhs : Expr ⊕ Expr)) t fun next u => ∀ e, next = .inl e → Fits id e u := by
    intro least t ht hr
    refine .bind ht (ho.climbAll ht least hr) fun e u _ _ he => .pure fun e' heq => ?_
    cases heq
    exact he
  unfold Grammar.tightenTurn
  refine .bind hs .operator? fun next t hst ht _ => ?_
  have hr := hst.fits hr
  split
  · exact .pure fun e he => (by cases he)
  split
  · exact hclimb _ t ht hr
  split
  · exact hclimb _ t ht hr
  · exact .pure fun e he => (by cases he)

theorem Reads.callArgumentTurn (ho : Reads operand) (hs : s.Inside id) (callee : String)
    {args : List Expr} (hargs : ∀ arg ∈ args, Fits id arg s) :
    Reading id (callArgumentTurn operand callee args) s
      fun next t => ∀ more, next = .inl more → ∀ arg ∈ more, Fits id arg t := by
  unfold Grammar.callArgumentTurn afterArgument
  refine .bind hs (ho.expression id s hs) fun arg t hst ht harg => ?_
  refine .bind ht .kind fun found u htu hu _ => ?_
  split
  · refine .bind hu .bump fun _ v huv _ _ => .pure fun more heq other hmem => ?_
    cases heq
    rcases List.mem_append.1 hmem with hmem | hmem
    · exact huv.fits (htu.fits (hst.fits (hargs other hmem)))
    · rw [List.mem_singleton.1 hmem]
      exact huv.fits (htu.fits harg)
  · exact .pure fun more heq => (by cases heq)
  · exact .failHere _

theorem Reads.branchTurn (ho : Reads operand) (hs : s.Inside id) {branches : List Branch}
    (hbranches : ∀ b ∈ branches, b.Fits id s) :
    Reading id (branchTurn operand branches) s
      fun next t => ∀ more, next = .inl more → ∀ b ∈ more, b.Fits id t := by
  unfold Grammar.branchTurn
  refine .bind hs .kind fun found t hst ht _ => ?_
  split
  · refine .bind ht (reading_branch ho ht _) fun b u htu _ hb => .pure fun more heq other hmem => ?_
    cases heq
    rcases List.mem_append.1 hmem with hmem | hmem
    · exact ((hbranches other hmem).advance hst).advance htu
    · rw [List.mem_singleton.1 hmem]
      exact hb
  · exact .pure fun more heq => (by cases heq)

theorem Passing.reading {m : ParseM α} {Q : α → State → Prop} (h : Passing m s Q) : Reading id m s Q :=
  Ends.mono h (fun _ _ hst => ⟨.of_untouched hst.1, hst.2⟩) fun _ _ hst => .of_untouched hst

theorem passing_bindingHead (s : State) : Passing bindingHead s fun _ _ => True := by
  have hassign : ∀ (start : Token) (name : String) (given : Option Ty) (t : State),
      Passing (do expectSymbol .assign .expectedInitialValue; return (start, name, given)) t
        fun _ _ => True :=
    fun _ _ _ _ => .bind (.expectSymbol _ _) fun _ _ _ _ => .pure trivial
  unfold bindingHead
  refine .bind .bump fun _ t _ _ => .bind .token fun start t _ _ => ?_
  refine .bind (.identifier _) fun name t _ _ => .bind .kind fun _ t _ _ => ?_
  dsimp only
  split
  · refine .bind .bump fun _ t _ _ => ?_
    exact .bind (Q := fun _ _ => True) ((ends_map _ _).2 Passing.typeName)
      fun given t _ _ => hassign start name given t
  · exact .bind (.pure (Q := fun _ _ => True) trivial) fun given t _ _ => hassign start name given t

theorem onward_bindingHead : Onward bindingHead := motion_passes.keeps_bindingHead

theorem Calls.sits {d d' : Nat} {task callee : Task} (h : Calls d task s d' callee t)
    (hs : Sits id task s) : ∃ within, Sits within callee t := by
  have ho : ∀ d, Onward (operandWithin d) := onward_operandWithin
  have hr : ∀ d, Reads (operandWithin d) := reads_operandWithin
  have hexpression : ∀ d, Onward (expression (operandWithin d)) :=
    fun d => motion_passes.keeps_expression (ho d)
  have hbranch : ∀ d keyword, Onward (branch (operandWithin d) keyword) :=
    fun d keyword => motion_passes.keeps_branch (ho d) keyword
  have hfurther : ∀ d bound branches, Onward (furtherBranches (operandWithin d) bound branches) :=
    fun d bound branches => motion_passes.keeps_furtherBranches (ho d) bound branches
  -- What is read before the callee only adds to the scope, so the block around it is still there.
  cases h with
  | counted _ => exact ⟨id, hs.move (advance_descend id s) (.still hs.placed rfl rfl rfl) trivial⟩
  | signed _ => exact ⟨id, hs.bump trivial⟩
  | bracketed _ ht _ =>
    subst ht
    exact ⟨id, hs.bump_brackets _ trivial⟩
  | block hk => exact ⟨_, hs.openBlock hk⟩
  | call _ _ ht _ =>
    subst ht
    have hname : Sits id .operand s.bump := hs.bump trivial
    exact ⟨id, hname.bump_brackets _ fun _ hmem => (by cases hmem)⟩
  | conditional _ => exact ⟨id, hs.still trivial⟩
  | further _ hhead =>
    exact ⟨id, hs.read (hbranch _ _) (reading_branch (hr _) hs.inside _) hhead
      fun _ _ hmem => (by cases hmem)⟩
  | otherwise _ hhead hmore helse hopen =>
    have hthen : Sits id .operand _ :=
      hs.read (hbranch _ _) (reading_branch (hr _) hs.inside _) hhead fun _ => trivial
    have helif : Sits id .operand _ := hthen.read (hfurther _ _ _)
      (reading_furtherBranches (hr _) _ [] _ hthen.inside fun _ hmem => (by cases hmem)) hmore
      fun _ => trivial
    have hword : Sits id .operand _ := helif.bump trivial
    exact ⟨_, hword.openBlock hopen⟩
  | condition => exact ⟨id, hs.bump trivial⟩
  | branchBlock hcondition hopen =>
    have hword : Sits id .expression s.bump := hs.bump trivial
    have hthen : Sits id .expression _ :=
      hword.read (hexpression _) ((hr _).expression id _ hword.inside) hcondition fun _ => trivial
    exact ⟨_, hthen.openBlock hopen⟩
  | furtherBranch _ => exact ⟨id, hs.still trivial⟩
  | argument => exact ⟨id, hs.still trivial⟩
  | lhs => exact ⟨id, hs.still trivial⟩
  | fold hlhs => exact ⟨id, hs.read (ho _) (hr _ id s hs.inside) hlhs fun he => he⟩
  | rhs _ _ => exact ⟨id, hs.bump trivial⟩
  | tighten _ _ hrhs =>
    have hword : Sits id .operand s.bump := hs.bump trivial
    exact ⟨id, hword.read (ho _) (hr _ id _ hword.inside) hrhs fun he => he⟩
  | tighter _ _ => exact ⟨id, hs.still hs.fits⟩
  | asTight _ _ => exact ⟨id, hs.still hs.fits⟩
  | value _ hhead =>
    exact ⟨id, hs.read onward_bindingHead (passing_bindingHead s).reading hhead fun _ => trivial⟩
  | returned _ _ => exact ⟨id, hs.bump trivial⟩
  | plain _ => exact ⟨id, hs.still trivial⟩
  | statement _ => exact ⟨id, hs.still trivial⟩
  | inside => exact ⟨id, hs.bump_brackets 0 hs.fits.1⟩

theorem Reads.behindStatement (ho : Reads operand) (hs : s.Inside id)
    (hk : endsStatement s.token.kind = false) : Advance id s (behindStatement operand id s) := by
  have hone := advance_statements ho 1 s hs
  rwa [statements_unended hk] at hone

theorem Reads.statementTurn (ho : Reads operand) (hs : s.Inside id) :
    Reading id (statementTurn operand id ()) s fun _ _ => True := by
  rcases statementTurn_cases operand id s with ⟨-, hrun⟩ | ⟨-, hrun⟩ | ⟨-, hrun⟩ | ⟨hk, hrun⟩
  · exact (ends_of_ok hrun).2 ⟨advance_bump id s, trivial⟩
  · exact (ends_of_ok hrun).2 ⟨.refl id s, trivial⟩
  · exact (ends_of_ok hrun).2 ⟨advance_report id s _, trivial⟩
  · exact (ends_of_ok hrun).2 ⟨ho.behindStatement hs hk, trivial⟩

theorem Turns.sits {d : Nat} {task next : Task} (h : Turns d task s next t) (hs : Sits id task s) :
    Sits id next t := by
  have ho := onward_operandWithin d
  have hr := reads_operandWithin d
  cases h with
  | climb hrun =>
    exact hs.turn (ho.moves_climbTurn _ _ hs.placed) (hr.climbTurn hs.inside _ hs.fits) hrun
      fun he => he _ rfl
  | tighten hrun =>
    exact hs.turn (ho.moves_tightenTurn _ _ hs.placed) (hr.tightenTurn hs.inside _ hs.fits) hrun
      fun he => he _ rfl
  | arguments hrun =>
    exact hs.turn (ho.moves_callArgumentTurn _ _ hs.placed)
      (hr.callArgumentTurn hs.inside _ hs.fits) hrun fun he => he _ rfl
  | branches hrun =>
    exact hs.turn (ho.moves_branchTurn _ hs.placed) (hr.branchTurn hs.inside hs.fits) hrun
      fun he => he _ rfl
  | statements hrun =>
    have hid := hs.fits
    subst hid
    exact hs.turn (ho.moves_statementTurn _ _ hs.placed) (hr.statementTurn hs.inside) hrun
      fun _ => rfl

end

theorem inside_atBody (name : String) (signature : Signature) (s : State) :
    (atBody name signature s).Inside rootBlock := by
  have hopen : (enter name signature s).openBlock.2.Inside rootBlock := inside_openBlock _
  exact (advance_declareArguments signature.args _ hopen).inside hopen

theorem sits_atBody {s : State} (h : s.Placed) (hk : s.token.kind = .symbol .openCurly) (name : String)
    (signature : Signature) : Sits rootBlock (.body rootBlock) (atBody name signature s) := by
  have hpasses := passes_atBody h name signature
  obtain ⟨scope, heq⟩ := atBody_eq name signature s
  refine ⟨hpasses.placed, inside_atBody name signature s, rfl, ?_⟩
  rw [heq]
  exact hk

theorem Reached.sits {source : List Char} {callers : List Task} {d : Nat} {task : Task} {s : State}
    (h : Reached source callers d task s) : ∃ id, Sits id task s := by
  induction h with
  | @function n name signature s t hs _ hhead =>
    subst hs
    have hpasses := passes_declarations n (placed_ofSource source)
    have hplaced := (ends_iff.1 (motion_passes.keeps_functionHead _)).1 _ _ hhead hpasses.placed
    have hkind := (ends_iff.1 (ends_functionHead_kind _)).1 _ _ hhead
    exact ⟨rootBlock, sits_atBody hplaced.placed hkind name signature⟩
  | call _ hcall ih =>
    obtain ⟨id, hsits⟩ := ih
    exact hcall.sits hsits
  | turn _ hturn ih =>
    obtain ⟨id, hsits⟩ := ih
    exact ⟨id, hturn.sits hsits⟩

theorem Reached.sits_body {source : List Char} {callers : List Task} {d : Nat} {id : BlockId}
    {s : State} (h : Reached source callers d (.body id) s) : Sits id (.body id) s := by
  obtain ⟨within, hsits⟩ := h.sits
  have hid := hsits.fits.1
  subst hid
  exact hsits

end ScalarJit.Grammar
