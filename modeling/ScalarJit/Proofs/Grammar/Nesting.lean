import ScalarJit.Proofs.Grammar.WellFormed
import ScalarJit.Proofs.Tree.Levels

/-! # How deep operands nest

The reader of operands is given how deep they may nest, and hands one less to what stands inside them.
Each block is labelled with what was left when it was opened. Labels never change and the statements of
a block keep below its label, whatever is wrong in the source. -/

namespace ScalarJit
namespace Grammar

/-- What the labels leave for each block; a block without a label has all. -/
def roomOf (labels : List Nat) (id : BlockId) : Nat := labels.getD id nestingLimit

/-- Labels are added behind those there are, and leave no more. -/
structure Narrows (labels more : List Nat) : Prop where
  grows : labels <+: more
  room : ∀ id, roomOf more id ≤ roomOf labels id

theorem Narrows.refl (labels : List Nat) : Narrows labels labels :=
  ⟨List.prefix_rfl, fun _ => Nat.le_refl _⟩

theorem Narrows.trans {labels more last : List Nat} (h : Narrows labels more) (h' : Narrows more last) :
    Narrows labels last :=
  ⟨h.grows.trans h'.grows, fun id => Nat.le_trans (h'.room id) (h.room id)⟩

theorem Narrows.label {labels more : List Nat} (h : Narrows labels more) {id d : Nat}
    (hd : labels[id]? = some d) : more[id]? = some d := by
  obtain ⟨added, rfl⟩ := h.grows
  rw [List.getElem?_append_left (List.getElem?_eq_some_iff.1 hd).1, hd]

theorem roomOf_eq {labels : List Nat} {id d : Nat} (hd : labels[id]? = some d) :
    roomOf labels id = d := by
  rw [roomOf, List.getD_eq_getElem?_getD, hd, Option.getD_some]

theorem narrows_append (labels : List Nat) {d : Nat} (hd : d ≤ nestingLimit) :
    Narrows labels (labels ++ [d]) := by
  refine ⟨List.prefix_append .., fun id => ?_⟩
  simp only [roomOf, List.getD_eq_getElem?_getD, List.getElem?_append]
  by_cases hid : id < labels.length
  · rw [if_pos hid]
  · rw [if_neg hid, List.getElem?_eq_none (Nat.le_of_not_lt hid)]
    cases hnew : [d][id - labels.length]? with
    | none => exact Nat.le_refl _
    | some r =>
      have hmem := List.mem_singleton.1 (List.mem_of_getElem? hnew)
      exact hmem ▸ hd

/-- The expression nests so deep at most. -/
def Shallow (n : Nat) (labels : List Nat) (e : Expr) : Prop := e.nesting (roomOf labels) ≤ n

theorem Shallow.narrows {n : Nat} {labels more : List Nat} {e : Expr} (h : Shallow n labels e)
    (hmore : Narrows labels more) : Shallow n more e :=
  Nat.le_trans (Expr.nesting_mono hmore.room e) h

/-- Each block has a label, and its statements keep below it. -/
structure Labelled (labels : List Nat) (s : State) : Prop where
  length : labels.length = s.scope.blocks.length
  statements : ∀ (i : Nat) (b : Block), s.scope.blocks[i]? = some b → ∀ e ∈ b.statements,
    Shallow (roomOf labels i) labels e

theorem Labelled.of_scope {labels : List Nat} {s t : State} (h : Labelled labels s)
    (heq : t.scope.blocks = s.scope.blocks) : Labelled labels t :=
  ⟨heq ▸ h.length, heq ▸ h.statements⟩

theorem Labelled.of_untouched {labels : List Nat} {s t : State} (h : Labelled labels s)
    (hst : Untouched s t) : Labelled labels t :=
  h.of_scope (congrArg Scope.blocks hst.scope)

theorem Labelled.openBlock {labels : List Nat} {s : State} {d : Nat} (h : Labelled labels s)
    (hd : d ≤ nestingLimit) : Labelled (labels ++ [d]) s.openBlock.2 where
  length := by
    show (labels ++ [d]).length = (s.scope.blocks ++ [_]).length
    rw [List.length_append, List.length_append, h.length]
    rfl
  statements := by
    intro i b hb e he
    have hb : (s.scope.blocks ++ [Block.empty s.scope.current])[i]? = some b := hb
    rw [List.getElem?_append] at hb
    split at hb
    · next hi =>
      have hlabel := List.getElem?_eq_getElem (h.length ▸ hi : i < labels.length)
      rw [roomOf_eq ((narrows_append labels hd).label hlabel), ← roomOf_eq hlabel]
      exact (h.statements i b hb e he).narrows (narrows_append labels hd)
    · have hempty := List.mem_singleton.1 (List.mem_of_getElem? hb)
      subst hempty
      cases he

theorem Labelled.declare {labels : List Nat} {s : State} (h : Labelled labels s) (name : String)
    (ty : Ty) (mutable : Bool) : Labelled labels (s.declare name ty mutable).2 where
  length := h.length.trans (List.length_modify ..).symm
  statements := by
    intro i b hb e he
    have hb : (s.scope.blocks.modify s.here _)[i]? = some b := hb
    rw [List.getElem?_modify] at hb
    obtain ⟨b', hb', heq⟩ := Option.map_eq_some_iff.1 hb
    refine h.statements i b' hb' e ?_
    split at heq <;> (subst heq; exact he)

theorem Labelled.addStatement {labels : List Nat} {s : State} {id d : Nat} {e : Expr}
    (h : Labelled labels s) (hd : labels[id]? = some d) (he : Shallow d labels e) :
    Labelled labels (s.addStatement id e) where
  length := h.length.trans (List.length_modify ..).symm
  statements := by
    intro i b hb e' he'
    have hb : (s.scope.blocks.modify id _)[i]? = some b := hb
    rw [List.getElem?_modify] at hb
    obtain ⟨b', hb', heq⟩ := Option.map_eq_some_iff.1 hb
    split at heq
    · next hid =>
      subst hid heq
      rcases List.mem_append.1 he' with hold | hnew
      · exact h.statements _ b' hb' e' hold
      · rw [roomOf_eq hd, List.mem_singleton.1 hnew]
        exact he
    · exact h.statements i b' hb' e' (heq ▸ he')

/-! ### Steps -/

/-- However a step ends, labels are only added and blocks keep below them; what it answers is as `Q`
says. -/
def Sinks (labels : List Nat) {α : Type} (m : ParseM α) (Q : List Nat → α → Prop) : Prop :=
  ∀ s, Labelled labels s →
    Ends m s (fun a t => ∃ more, Narrows labels more ∧ Labelled more t ∧ Q more a)
      (fun _ t => ∃ more, Narrows labels more ∧ Labelled more t)

namespace Sinks

variable {labels : List Nat} {α β : Type} {m : ParseM α} {Q : List Nat → α → Prop}

theorem bind {f : α → ParseM β} {last : List Nat → β → Prop} (h : Sinks labels m Q)
    (next : ∀ more a, Narrows labels more → Q more a → Sinks more (f a) last) :
    Sinks labels (m >>= f) last := by
  intro s hs
  refine (ends_bind m f).2 (Ends.mono (h s hs) ?_ fun _ _ he => he)
  rintro a t ⟨more, hmore, ht, hq⟩
  refine Ends.mono (next more a hmore hq t ht) ?_ ?_
  · rintro b u ⟨rest, hrest, hu, hlast⟩
    exact ⟨rest, hmore.trans hrest, hu, hlast⟩
  · rintro _ u ⟨rest, hrest, hu⟩
    exact ⟨rest, hmore.trans hrest, hu⟩

theorem pure {a : α} (h : Q labels a) : Sinks labels (pure a : ParseM α) Q :=
  fun _ hs => ⟨labels, .refl labels, hs, h⟩

theorem some (h : Sinks labels m Q) : Sinks labels (some <$> m) fun more a => ∀ x ∈ a, Q more x := by
  intro s hs
  refine (ends_map Option.some m).2 (Ends.mono (h s hs) ?_ fun _ _ he => he)
  rintro a t ⟨more, hmore, ht, hq⟩
  exact ⟨more, hmore, ht, fun x hx => Option.some_inj.1 hx ▸ hq⟩

theorem failAt (t : Token) (c : Complaint) : Sinks labels (failAt t c) Q :=
  fun _ hs => ⟨labels, .refl labels, hs⟩

theorem failHere (c : Complaint) : Sinks labels (failHere c) Q :=
  fun _ hs => ⟨labels, .refl labels, hs⟩

theorem after {f : α → ParseM β} {last : List Nat → β → Prop}
    (h : ∀ s, Passing m s fun _ _ => True) (next : ∀ a, Sinks labels (f a) last) :
    Sinks labels (m >>= f) last := by
  intro s hs
  refine (ends_bind m f).2 (Ends.mono (h s) ?_ ?_)
  · rintro a t ⟨hst, -⟩
    exact next a t (hs.of_untouched hst)
  · intro _ t hst
    exact ⟨labels, .refl labels, hs.of_untouched hst⟩

theorem typed {Q : List Nat → Expr → Prop} (start : Token) {result : Except TypeFault Expr}
    (h : ∀ e, result = .ok e → Q labels e) : Sinks labels (typed start result) Q :=
  fun _ hs => (ends_typed start result).2
    ⟨fun e he => ⟨labels, .refl labels, hs, h e he⟩, fun _ _ => ⟨labels, .refl labels, hs⟩⟩

end Sinks

/-! ### Operators -/

def Sunk (n : Nat) (reader : ParseM Expr) : Prop := ∀ labels, Sinks labels reader (Shallow n)

section
variable {operand : ParseM Expr} {n : Nat} {labels : List Nat}

theorem shallow_of_combine {op : Operator} {lhs rhs e : Expr} (hl : Shallow n labels lhs)
    (hr : Shallow n labels rhs) (h : op.combine lhs rhs = .ok e) : Shallow n labels e := by
  cases op with
  | operation op =>
    obtain ⟨-, -, rfl⟩ := Typing.binary_eq_ok_iff.1 (Operator.combine_operation_eq_ok_iff.1 h)
    exact Nat.max_le.2 ⟨hl, hr⟩
  | assignment compound =>
    obtain ⟨name, var, ty, mutable, rfl⟩ := Operator.exists_read_of_combine_assignment h
    cases compound with
    | none =>
      obtain ⟨-, -, rfl⟩ := Typing.write_eq_ok_iff.1 (Operator.combine_assign_eq_ok_iff.1 h)
      exact hr
    | some op =>
      obtain ⟨value, hvalue, hwrite⟩ := Operator.combine_compound_eq_ok_iff.1 h
      obtain ⟨-, -, rfl⟩ := Typing.binary_eq_ok_iff.1 hvalue
      obtain ⟨-, -, rfl⟩ := Typing.write_eq_ok_iff.1 hwrite
      exact Nat.max_le.2 ⟨hl, hr⟩

theorem sinks_combineAt {lhs rhs : Expr} (hl : Shallow n labels lhs) (hr : Shallow n labels rhs)
    (start : Token) (op : Operator) : Sinks labels (combineAt start op lhs rhs) (Shallow n) :=
  fun _ hs => (ends_combineAt start op lhs rhs).2
    ⟨fun _ he => ⟨labels, .refl labels, hs, shallow_of_combine hl hr he⟩,
      fun _ _ => ⟨labels, .refl labels, hs⟩⟩

theorem passing_operator? (s : State) : Passing operator? s fun _ _ => True := ⟨.refl s, trivial⟩

theorem passing_get (s : State) : Passing (get : ParseM State) s fun _ _ => True := ⟨.refl s, trivial⟩

/-- Operators fold expressions together without a new level. Both folds use each other on a smaller
bound. -/
theorem Sunk.climb_tighten (ho : Sunk n operand) (bound : Nat) :
    (∀ (least : Nat) (lhs : Expr) (labels : List Nat), Shallow n labels lhs →
      Sinks labels (climb operand bound least lhs) (Shallow n)) ∧
    (∀ (op : Operator) (rhs : Expr) (labels : List Nat), Shallow n labels rhs →
      Sinks labels (tighten operand bound op rhs) (Shallow n)) := by
  -- Operands are shallow, and joining two shallow ones makes none that is deeper.
  induction bound with
  | zero =>
    constructor
    · intro least lhs labels hl
      rw [climb]
      exact .pure hl
    · intro op rhs labels hr
      rw [tighten]
      exact .pure hr
  | succ bound ih =>
    obtain ⟨ihc, iht⟩ := ih
    constructor
    · intro least lhs labels hl
      rw [climb]
      apply Sinks.after passing_operator?
      intro op
      split
      · exact .pure hl
      split
      · exact .pure hl
      apply Sinks.after fun _ => .token
      intro start
      apply Sinks.after fun _ => .bump
      intro _
      apply Sinks.bind (ho labels)
      intro labels₁ rhs h₁ hr
      apply Sinks.bind (iht _ rhs labels₁ hr)
      intro labels₂ rhs h₂ hr
      apply Sinks.bind (sinks_combineAt ((hl.narrows h₁).narrows h₂) hr start _)
      intro labels₃ e _ he
      exact ihc least e labels₃ he
    · intro op rhs labels hr
      rw [tighten]
      apply Sinks.after passing_operator?
      intro next
      split
      · exact .pure hr
      split
      · exact .bind (ihc _ rhs labels hr) fun more e _ he => iht op e more he
      split
      · exact .bind (ihc _ rhs labels hr) fun more e _ he => iht op e more he
      · exact .pure hr

theorem Sunk.expression (ho : Sunk n operand) : Sunk n (expression operand) := by
  intro labels
  unfold Grammar.expression
  apply Sinks.bind (ho labels)
  intro more lhs _ hl
  exact .after passing_get fun _ => (ho.climb_tighten _).1 1 lhs more hl

/-! ### Statements -/

theorem Sunk.bindValue (ho : Sunk n operand) (mutable : Bool) (start : Token) (name : String)
    (given : Option Ty) : Sunk n (bindValue operand mutable start name given) := by
  intro labels
  unfold Grammar.bindValue
  apply Sinks.after fun _ => .expectSymbol _ _
  intro _
  apply Sinks.bind (ho.expression labels)
  intro more value _ hvalue
  have hdeclare : Sinks more (do
      let var ← modifyGet fun s => s.declare name value.ty mutable
      return .bind name var value) (Shallow n) :=
    fun s hs => ⟨more, .refl more, hs.declare name value.ty mutable, hvalue⟩
  dsimp only
  split
  · exact .bind (.failAt (Q := fun _ _ => False) _ _) fun _ _ _ h => h.elim
  split
  · split
    · exact .bind (.failAt (Q := fun _ _ => False) _ _) fun _ _ _ h => h.elim
    · exact hdeclare
  · exact hdeclare

theorem Sunk.binding (ho : Sunk n operand) (mutable : Bool) : Sunk n (binding operand mutable) := by
  intro labels
  unfold Grammar.binding
  apply Sinks.after fun _ => .bump
  intro _
  apply Sinks.after fun _ => .token
  intro start
  apply Sinks.after fun _ => .identifier _
  intro name
  apply Sinks.after fun _ => .kind
  intro found
  dsimp only
  split
  · apply Sinks.after fun _ => .bump
    intro _
    apply Sinks.after fun s => (ends_map some typeName).2 (Passing.typeName (s := s))
    intro given
    exact ho.bindValue mutable start name given labels
  · exact ho.bindValue mutable start name none labels

theorem Sunk.returnStatement (ho : Sunk n operand) : Sunk n (returnStatement operand) := by
  intro labels
  unfold Grammar.returnStatement
  apply Sinks.after fun _ => .token
  intro start
  apply Sinks.after fun _ => .bump
  intro _
  apply Sinks.after fun _ => .kind
  intro found
  have hleave : ∀ (more : List Nat) (value : Option Expr), (∀ v ∈ value, Shallow n more v) →
      Sinks more (do typed start (Typing.leave value (← get).scope.signature.result)) (Shallow n) := by
    intro more value hvalue
    apply Sinks.after passing_get
    intro s
    apply Sinks.typed
    intro e he
    cases value with
    | none =>
      obtain ⟨-, rfl⟩ := Typing.leave_none_eq_ok_iff.1 he
      exact Nat.zero_le n
    | some v =>
      obtain ⟨-, rfl⟩ := Typing.leave_some_eq_ok_iff.1 he
      exact hvalue v rfl
  dsimp only
  split
  · exact hleave labels none (by simp)
  · exact .bind (ho.expression labels).some fun more value _ hvalue => hleave more value hvalue

theorem Sunk.statement (ho : Sunk n operand) : Sunk n (statement operand) := by
  intro labels
  unfold Grammar.statement
  apply Sinks.after fun _ => .kind
  intro found
  split
  · exact ho.binding false labels
  · exact ho.binding true labels
  · exact ho.returnStatement labels
  · exact .failHere _
  · exact .failHere _
  · exact ho.expression labels

/-! ### Blocks -/

theorem Sunk.statements (ho : Sunk n operand) {id : BlockId} (bound : Nat) (s : State)
    (hs : Labelled labels s) (hid : labels[id]? = some n) :
    ∃ more, Narrows labels more ∧ Labelled more (statements operand id bound s) := by
  induction bound generalizing labels s with
  | zero => exact ⟨labels, .refl labels, hs⟩
  | succ bound ih =>
    have next {more : List Nat} {t : State} (hmore : Narrows labels more) (ht : Labelled more t) :
        ∃ rest, Narrows labels rest ∧ Labelled rest (Grammar.statements operand id bound t) := by
      obtain ⟨rest, hrest, hread⟩ := ih t ht (hmore.label hid)
      exact ⟨rest, hmore.trans hrest, hread⟩
    have recovered {more : List Nat} {t : State} (p : Problem) (hmore : Narrows labels more)
        (ht : Labelled more t) : ∃ rest, Narrows labels rest ∧
          Labelled rest (Grammar.statements operand id bound (t.report p).endStatement) :=
      next hmore (ht.of_untouched ((Untouched.report t p).trans (.endStatement _)))
    have hstatement := ends_iff.1 (ho.statement labels s hs)
    rw [Grammar.statements]
    split
    · exact next (.refl labels) (hs.of_untouched (.bump s))
    · exact ⟨labels, .refl labels, hs⟩
    · exact ⟨labels, .refl labels, hs.of_untouched (.report s _)⟩
    · split
      · next problem after hrun =>
        obtain ⟨more, hmore, hafter⟩ := hstatement.2 _ _ hrun
        exact recovered problem hmore hafter
      · next e after hrun =>
        obtain ⟨more, hmore, hafter, he⟩ := hstatement.1 _ _ hrun
        split
        · exact recovered _ hmore hafter
        split
        · exact next hmore (hafter.of_untouched (.report after _))
        · exact next hmore (hafter.addStatement (hmore.label hid) he)

theorem Sunk.blockBody (ho : Sunk n operand) {id : BlockId} (s : State) (hs : Labelled labels s)
    (hid : labels[id]? = some n) : ∃ more, Narrows labels more ∧
      Labelled more (blockBody operand id s).2 ∧ Shallow (n + 1) more (blockBody operand id s).1 := by
  obtain ⟨more, hmore, hread⟩ := ho.statements { s with brackets := 0 }.bump.remaining
    { s with brackets := 0 }.bump (hs.of_untouched (.bump_brackets s 0)) hid
  have hshallow (ty : Ty) : Shallow (n + 1) more (.block id ty) :=
    Nat.succ_le_succ (Nat.le_of_eq (roomOf_eq (hmore.label hid)))
  unfold Grammar.blockBody
  dsimp only
  split
  · exact ⟨more, hmore, hread.of_scope rfl, hshallow _⟩
  · exact ⟨more, hmore, hread.of_scope rfl, hshallow _⟩

theorem Sunk.block (ho : Sunk n operand) (hn : n ≤ nestingLimit) : Sunk (n + 1) (block operand) := by
  intro labels s hs
  have hlabel : (labels ++ [n])[s.openBlock.1]? = some n := by
    show (labels ++ [n])[s.scope.blocks.length]? = some n
    rw [← hs.length, List.getElem?_concat_length]
  obtain ⟨more, hmore, hread, hshallow⟩ := ho.blockBody s.openBlock.2 (hs.openBlock hn) hlabel
  exact ends_block.2 ⟨more, (narrows_append labels hn).trans hmore, hread, hshallow⟩

/-! ### Operands -/

theorem Sunk.callArguments (ho : Sunk n operand) (callee : String) (bound : Nat) (args : List Expr)
    (labels : List Nat) (ha : ∀ arg ∈ args, Shallow n labels arg) :
    Sinks labels (callArguments operand callee bound args)
      fun more args => ∀ arg ∈ args, Shallow n more arg := by
  induction bound generalizing args labels with
  | zero =>
    rw [Grammar.callArguments]
    exact .pure ha
  | succ bound ih =>
    rw [Grammar.callArguments]
    apply Sinks.bind (ho.expression labels)
    intro more arg hmore harg
    have hall : ∀ a ∈ args ++ [arg], Shallow n more a :=
      List.forall_mem_append.2
        ⟨fun a hold => (ha a hold).narrows hmore, List.forall_mem_singleton.2 harg⟩
    apply Sinks.after fun _ => .kind
    intro found
    split
    · exact .after (fun _ => .bump) fun _ => ih _ more hall
    · exact .pure hall
    · exact .failHere _

theorem Sunk.call (ho : Sunk n operand) (callee : String) (start : Token) :
    Sunk (n + 1) (call operand callee start) := by
  intro labels
  unfold Grammar.call
  apply Sinks.after fun _ => .openBracket
  intro _
  apply Sinks.after fun _ => .kind
  intro found
  have hfinish : ∀ (more : List Nat) (args : List Expr), (∀ arg ∈ args, Shallow n more arg) →
      Sinks more (finishCall callee start args) (Shallow (n + 1)) := by
    intro more args ha
    unfold finishCall
    apply Sinks.after fun _ => .closeBracket
    intro _
    apply Sinks.after passing_get
    intro s
    split
    · apply Sinks.typed
      intro e he
      obtain ⟨-, rfl⟩ := Typing.call_eq_ok_iff.1 he
      exact Nat.succ_le_succ (Expr.nestingAll_le_iff.2 ha)
    · exact .failAt _ _
  dsimp only
  split
  · exact hfinish labels [] (by simp)
  · apply Sinks.after passing_get
    intro s
    apply Sinks.bind (ho.callArguments callee _ [] labels (by simp))
    intro more args _ ha
    exact hfinish more args ha

theorem sinks_readVariable (name : String) (start : Token) :
    Sinks labels (readVariable name start) (Shallow (n + 1)) := by
  unfold readVariable
  apply Sinks.after passing_get
  intro s
  dsimp only
  split
  · next e hfound =>
    obtain ⟨var, -, hread⟩ := Option.bind_eq_some_iff.1 hfound
    obtain ⟨v, -, rfl⟩ := Option.map_eq_some_iff.1 hread
    exact .pure (Nat.succ_le_succ (Nat.zero_le n))
  · exact .failAt _ _

/-- A condition is one level down. Its block is on the level of the conditional. -/
def Branch.Shallow (n : Nat) (labels : List Nat) (b : Branch) : Prop :=
  Grammar.Shallow n labels b.condition ∧ Grammar.Shallow (n + 1) labels b.body

theorem shallow_of_conditional {b : Branch} {onFalse : Option Expr} {e : Expr}
    (hb : b.Shallow n labels) (hf : ∀ f ∈ onFalse, Shallow (n + 1) labels f)
    (h : Typing.conditional b.condition b.body onFalse = .ok e) : Shallow (n + 1) labels e := by
  cases onFalse with
  | none =>
    obtain ⟨-, rfl⟩ := Typing.conditional_none_eq_ok_iff.1 h
    exact Nat.max_le.2 ⟨Nat.succ_le_succ hb.1, hb.2⟩
  | some f =>
    obtain ⟨-, -, -, rfl⟩ := Typing.conditional_some_eq_ok_iff.1 h
    exact Nat.max_le.2 ⟨Nat.succ_le_succ hb.1, Nat.max_le.2 ⟨hb.2, hf f rfl⟩⟩

theorem Branch.Shallow.narrows {more : List Nat} {b : Branch} (h : b.Shallow n labels)
    (hmore : Narrows labels more) : b.Shallow n more :=
  ⟨Grammar.Shallow.narrows h.1 hmore, Grammar.Shallow.narrows h.2 hmore⟩

theorem Sunk.branch (ho : Sunk n operand) (hn : n ≤ nestingLimit) (keyword : Keyword)
    (labels : List Nat) : Sinks labels (branch operand keyword) (Branch.Shallow n) := by
  unfold Grammar.branch
  apply Sinks.after fun _ => .token
  intro start
  apply Sinks.after fun _ => .bump
  intro _
  apply Sinks.bind (ho.expression labels)
  intro more condition _ hc
  apply Sinks.after fun _ => .kind
  intro found
  dsimp only
  split
  · exact .bind (.failHere (Q := fun _ _ => False) _) fun _ _ _ h => h.elim
  · exact .bind (ho.block hn more) fun rest body hrest hb => .pure ⟨hc.narrows hrest, hb⟩

theorem Sunk.furtherBranches (ho : Sunk n operand) (hn : n ≤ nestingLimit) (bound : Nat)
    (branches : List Branch) (labels : List Nat) (hb : ∀ b ∈ branches, b.Shallow n labels) :
    Sinks labels (furtherBranches operand bound branches)
      fun more branches => ∀ b ∈ branches, b.Shallow n more := by
  induction bound generalizing branches labels with
  | zero =>
    rw [Grammar.furtherBranches]
    exact .pure hb
  | succ bound ih =>
    rw [Grammar.furtherBranches]
    apply Sinks.after fun _ => .kind
    intro found
    split
    · apply Sinks.bind (ho.branch hn _ labels)
      intro more next hmore hnext
      exact ih _ more (List.forall_mem_append.2
        ⟨fun b hold => (hb b hold).narrows hmore, List.forall_mem_singleton.2 hnext⟩)
    · exact .pure hb

theorem sinks_joinBranches (otherwise : Option Expr) (branches : List Branch) (labels : List Nat)
    (hb : ∀ b ∈ branches, b.Shallow n labels) (hf : ∀ f ∈ otherwise, Shallow (n + 1) labels f) :
    Sinks labels (joinBranches otherwise branches)
      fun more e => ∀ f ∈ e, Shallow (n + 1) more f := by
  induction branches with
  | nil =>
    rw [joinBranches]
    exact .pure hf
  | cons b branches ih =>
    obtain ⟨hfirst, hothers⟩ := List.forall_mem_cons.1 hb
    rw [joinBranches]
    apply Sinks.bind (ih hothers)
    intro more alternative hmore halternative
    apply Sinks.some
    apply Sinks.typed
    intro e he
    exact shallow_of_conditional (hfirst.narrows hmore) halternative he

theorem Sunk.conditional (ho : Sunk n operand) (hn : n ≤ nestingLimit) :
    Sunk (n + 1) (conditional operand) := by
  intro labels
  unfold Grammar.conditional
  apply Sinks.bind (ho.branch hn _ labels)
  intro labels₁ head _ hhead
  apply Sinks.after passing_get
  intro s
  apply Sinks.bind (ho.furtherBranches hn _ [] labels₁ (by simp))
  intro labels₂ further h₂ hfurther
  apply Sinks.after fun _ => .kind
  intro found
  have hjoin : ∀ (more : List Nat) (otherwise : Option Expr), Narrows labels₂ more →
      (∀ f ∈ otherwise, Shallow (n + 1) more f) → Sinks more (do
        let alternative ← joinBranches otherwise further
        typed head.start (Typing.conditional head.condition head.body alternative))
        (Shallow (n + 1)) := by
    intro more otherwise hmore hf
    apply Sinks.bind (sinks_joinBranches otherwise further more
      (fun b hb => (hfurther b hb).narrows hmore) hf)
    intro rest alternative hrest halternative
    apply Sinks.typed
    intro e he
    exact shallow_of_conditional (((hhead.narrows h₂).narrows hmore).narrows hrest) halternative he
  dsimp only
  split
  · apply Sinks.after fun _ => .bump
    intro _
    apply Sinks.after fun _ => .kind
    intro found
    split
    · exact .bind (.failHere (Q := fun _ _ => False) _) fun _ _ _ h => h.elim
    · exact .bind (ho.block hn labels₂).some fun more otherwise hmore hf =>
        hjoin more otherwise hmore hf
  · exact hjoin labels₂ none (.refl labels₂) (by simp)

theorem Sunk.signed (ho : Sunk n operand) (op : UnaryOp) : Sunk (n + 1) (signed operand op) := by
  intro labels
  unfold Grammar.signed
  apply Sinks.after fun _ => .token
  intro start
  apply Sinks.after fun _ => .bump
  intro _
  apply Sinks.bind (ho labels)
  intro more e _ he
  apply Sinks.typed
  intro e' he'
  obtain ⟨-, rfl⟩ := Typing.unary_eq_ok_iff.1 he'
  exact Nat.succ_le_succ he

theorem Sunk.bracketed (ho : Sunk n operand) : Sunk (n + 1) (bracketed operand) := by
  intro labels
  unfold Grammar.bracketed
  apply Sinks.after fun _ => .token
  intro start
  apply Sinks.after fun _ => .openBracket
  intro _
  apply Sinks.after fun _ => .kind
  intro found
  dsimp only
  split
  · exact .bind (.failAt (Q := fun _ _ => False) _ _) fun _ _ _ h => h.elim
  · apply Sinks.bind (ho.expression labels)
    intro more e _ he
    apply Sinks.after fun _ => .kind
    intro found
    split
    · exact .bind (.failHere (Q := fun _ _ => False) _) fun _ _ _ h => h.elim
    · exact .after (fun _ => .closeBracket) fun _ => .pure (Nat.le_succ_of_le he)

theorem Sunk.operandWith (ho : Sunk n operand) (hn : n ≤ nestingLimit) :
    Sunk (n + 1) (operandWith operand) := by
  intro labels
  unfold Grammar.operandWith
  apply Sinks.after fun _ => .token
  intro start
  split
  · exact ho.signed _ labels
  · exact ho.signed _ labels
  · exact ho.bracketed labels
  · exact ho.block hn labels
  · exact .after (fun _ => .bump) fun _ => .pure (Nat.succ_le_succ (Nat.zero_le n))
  · apply Sinks.after fun _ => .bump
    intro _
    apply Sinks.after fun _ => .kind
    intro found
    split
    · exact ho.call _ _ labels
    · exact sinks_readVariable _ _
  · exact ho.conditional hn labels
  · exact .failHere _

theorem Sunk.nested (ho : Sunk n operand) : Sunk n (nested operand) := by
  intro labels s hs
  refine ends_nested.2 ⟨fun _ => ⟨labels, .refl labels, hs⟩, fun _ => ?_⟩
  refine Ends.mono (ho labels s.descend ⟨hs.length, hs.statements⟩) ?_ ?_
  · rintro e t ⟨more, hmore, ht, he⟩
    exact ⟨more, hmore, ⟨ht.length, ht.statements⟩, he⟩
  · rintro _ t ⟨more, hmore, ht⟩
    exact ⟨more, hmore, ⟨ht.length, ht.statements⟩⟩

theorem sunk_operandWithin (depth : Nat) (h : depth ≤ nestingLimit) :
    Sunk depth (operandWithin depth) := by
  induction depth with
  | zero => exact fun _ => .failHere _
  | succ depth ih =>
    exact ((ih (Nat.le_of_succ_le h)).operandWith (Nat.le_of_succ_le h)).nested

end

/-! ### Functions -/

theorem Labelled.declareArguments {labels : List Nat} (args : List (String × Ty)) (s : State)
    (h : Labelled labels s) : Labelled labels (declareArguments s args) := by
  induction args generalizing s with
  | nil => exact h
  | cons arg args ih => exact ih _ (h.declare arg.1 arg.2 false)

theorem nestsWithin_functionBody (name : String) (signature : Signature) (s : State)
    (hs : ∀ entry ∈ s.functions, entry.2.NestsWithin nestingLimit) :
    ∀ entry ∈ (functionBody name signature s).functions, entry.2.NestsWithin nestingLimit := by
  have hempty : Labelled [] (enter name signature s) :=
    ⟨rfl, fun i b hb => by simp [enter, Scope.empty] at hb⟩
  have hstart := (hempty.openBlock (Nat.le_refl nestingLimit)).declareArguments signature.args
  have hroot : ([] ++ [nestingLimit])[rootBlock]? = some nestingLimit := rfl
  have hread := (sunk_operandWithin nestingLimit (Nat.le_refl _)).blockBody _ hstart hroot
  obtain ⟨f, -, -, hfunctions, -⟩ := functionBody_eq name signature s
  generalize hbody : blockBody (operandWithin nestingLimit) rootBlock
    (declareArguments (enter name signature s).openBlock.2 signature.args) = read at hread
  obtain ⟨more, hmore, hlabelled, hshallow⟩ := hread
  have hadded : (functionBody name signature s).functions = read.2.functions ++
      [(name, ⟨signature, read.1, read.2.scope.blocks, read.2.scope.slots⟩)] := by
    rw [← hbody]
    rfl
  have heq := List.append_inj_right' (hadded.symm.trans hfunctions) rfl
  rw [hfunctions, ← heq]
  refine List.forall_mem_append.2 ⟨hs, List.forall_mem_singleton.2 ?_⟩
  refine ⟨roomOf more, fun i => ?_, hshallow, hlabelled.statements⟩
  exact Nat.le_trans (hmore.room i) ((narrows_append [] (Nat.le_refl nestingLimit)).room i)

theorem nestsWithin_declaration (s : State)
    (hs : ∀ entry ∈ s.functions, entry.2.NestsWithin nestingLimit) :
    ∀ entry ∈ (declaration s).functions, entry.2.NestsWithin nestingLimit := by
  have skip {t : State} (p : Problem) (hst : Untouched s t) :
      ∀ entry ∈ (t.endDeclaration.report p).functions, entry.2.NestsWithin nestingLimit := by
    rw [(hst.trans ((Untouched.endDeclaration t).trans (.report _ p))).functions]
    exact hs
  unfold declaration
  split
  · have hhead := ends_iff.1 (passing_functionHead s)
    split
    · next name signature t hrun =>
      have hst := (hhead.1 _ _ hrun).1
      exact nestsWithin_functionBody name signature t (hst.functions ▸ hs)
    · next problem t hrun => exact skip problem (hhead.2 _ _ hrun)
  · have huse := ends_iff.1 (ends_useDeclaration s)
    split
    · next t hrun =>
      rw [(huse.1 _ _ hrun).1]
      exact hs
    · next problem t hrun => exact skip problem (huse.2 _ _ hrun)
  · exact hs
  · exact skip _ (.refl s)

theorem nestsWithin_declarations (bound : Nat) (s : State)
    (hs : ∀ entry ∈ s.functions, entry.2.NestsWithin nestingLimit) :
    ∀ entry ∈ (declarations bound s).functions, entry.2.NestsWithin nestingLimit := by
  induction bound generalizing s with
  | zero => exact hs
  | succ bound ih =>
    rw [declarations]
    split
    · exact hs
    · exact ih _ (nestsWithin_declaration s hs)

end Grammar

namespace Program

/-- Whatever is wrong in a source, the operands of its functions nest within the limit. -/
theorem nestsWithin_parse (source : List Char) :
    ∀ entry ∈ (parse source).functions, entry.2.NestsWithin Grammar.nestingLimit :=
  Grammar.nestsWithin_declarations _ (.ofSource source) fun _ h => by cases h

/-- A tree is as high as its chains are long, up to the limit on operands: where no chain has more than
so many joints, the limit bounds the height. -/
theorem height_parse (source : List Char) (entry : Named Function)
    (hentry : entry ∈ (parse source).functions) (k : Nat) :
    ((∀ e ∈ entry.2.parts, e.joints ≤ k) → ∀ e ∈ entry.2.parts,
      e.HeightAtMost entry.2.blocks ((Grammar.nestingLimit + 1) * (k + 1) + k)) ∧
    ((∀ e ∈ entry.2.parts, e.HeightAtMost entry.2.blocks k) → ∀ e ∈ entry.2.parts, e.joints ≤ k) := by
  constructor
  · exact (nestsWithin_parse source entry hentry).heightAtMost
  · intro h e he
    exact (h e he).joints_le

def signs : List Char :=
  "func f(x: Float64) -> Float64 \x7b\n return -(-(x + -f(\x7b\n f(-x)\n\x7d)))\n\x7d".toList

theorem height_parse_signs : ∃ entry, (parse signs).functions = [entry] ∧
    ∀ e ∈ entry.2.parts, e.HeightAtMost entry.2.blocks ((Grammar.nestingLimit + 1) * 2 + 1) := by
  have hparse : (parse signs).functions.length = 1 ∧
      ∀ entry ∈ (parse signs).functions, ∀ e ∈ entry.2.parts, e.joints ≤ 1 := by
    decide +kernel
  obtain ⟨hlength, hjoints⟩ := hparse
  obtain ⟨entry, hentry⟩ := List.length_eq_one_iff.1 hlength
  have hmem : entry ∈ (parse signs).functions := by
    rw [hentry]
    exact List.mem_singleton_self entry
  exact ⟨entry, hentry, (height_parse signs entry hmem 1).1 (hjoints entry hmem)⟩

end Program
end ScalarJit
