import ScalarJit.Proofs.Tree.Traversal

/-! # Executions of a function

An execution of a function is a list of what is left to do, taken from the front. Only the order is
modelled: a condition may come out either way, a call may answer anything or never return. What is
kept of an execution are its accesses to variables. Where blocks are covered, no execution reads a
variable that is not set. -/

namespace ScalarJit

inductive Access where
  /-- The first value: of a binding, or of an argument. -/
  | set (var : VarRef)
  | write (var : VarRef)
  | read (var : VarRef)
deriving DecidableEq, Repr

inductive Task where
  | eval (e : Expr)
  | access (a : Access)
  | leave

/-- What the evaluation of an expression consists of, from left to right. -/
inductive Unfolds (blocks : List Block) : Expr → List Task → Prop
  | literal {x : Double} : Unfolds blocks (.literal x) []
  | read {name : String} {var : VarRef} {ty : Ty} {mutable : Bool} :
      Unfolds blocks (.read name var ty mutable) [.access (.read var)]
  | write {name : String} {var : VarRef} {value : Expr} :
      Unfolds blocks (.write name var value) [.eval value, .access (.write var)]
  | bind {name : String} {var : VarRef} {value : Expr} :
      Unfolds blocks (.bind name var value) [.eval value, .access (.set var)]
  | binary {op : BinaryOp} {lhs rhs : Expr} : Unfolds blocks (.binary op lhs rhs) [.eval lhs, .eval rhs]
  | unary {op : UnaryOp} {operand : Expr} : Unfolds blocks (.unary op operand) [.eval operand]
  | call {callee : String} {args : List Expr} {ty : Ty} :
      Unfolds blocks (.call callee args ty) (args.map .eval)
  | leave : Unfolds blocks .leave [.leave]
  | leaveWith {value : Expr} : Unfolds blocks (.leaveWith value) [.eval value, .leave]
  | taken {condition onTrue : Expr} :
      Unfolds blocks (.ifThen condition onTrue) [.eval condition, .eval onTrue]
  | skipped {condition onTrue : Expr} : Unfolds blocks (.ifThen condition onTrue) [.eval condition]
  | onTrue {condition onTrue onFalse : Expr} :
      Unfolds blocks (.ifThenElse condition onTrue onFalse) [.eval condition, .eval onTrue]
  | onFalse {condition onTrue onFalse : Expr} :
      Unfolds blocks (.ifThenElse condition onTrue onFalse) [.eval condition, .eval onFalse]
  | block {id : BlockId} {ty : Ty} {b : Block} (hb : blocks[id]? = some b) :
      Unfolds blocks (.block id ty) (b.statements.map .eval)

/-- One step of an execution, with its access if it makes one. -/
inductive Step (blocks : List Block) : List Task → List Access → List Task → Prop
  | eval {e : Expr} {tasks rest : List Task} (h : Unfolds blocks e tasks) :
      Step blocks (.eval e :: rest) [] (tasks ++ rest)
  | access {a : Access} {rest : List Task} : Step blocks (.access a :: rest) [a] rest
  | leave {rest : List Task} : Step blocks (.leave :: rest) [] []

inductive Steps (blocks : List Block) : List Task → List Access → List Task → Prop
  | nothing {tasks : List Task} : Steps blocks tasks [] tasks
  | more {tasks mid last : List Task} {trace now : List Access} (h : Steps blocks tasks trace mid)
      (hstep : Step blocks mid now last) : Steps blocks tasks (trace ++ now) last

def Signature.stores (signature : Signature) : List Access :=
  (List.range signature.args.length).map fun i => .set ⟨rootBlock, i⟩

/-- What a function does when it is entered: it stores its arguments and evaluates its body. -/
def Function.entered (f : Function) : List Task :=
  f.signature.stores.map .access ++ [.eval f.body]

/-! ### Reads of what is set -/

def setAfter (known : Set VarRef) (trace : List Access) : Set VarRef :=
  {var | var ∈ known ∨ .set var ∈ trace}

/-- What is left to do reads only variables that are known or set before. -/
inductive Safe (blocks : List Block) : Set VarRef → List Task → Prop
  | done {known : Set VarRef} : Safe blocks known []
  | eval {known : Set VarRef} {e : Expr} {rest : List Task} {lo hi : Nat}
      (h : Covers blocks known [e] lo hi) (hrest : Safe blocks (boundAfter known [e]) rest) :
      Safe blocks known (.eval e :: rest)
  | block {known : Set VarRef} {id : BlockId} {ty : Ty} {b : Block} {rest : List Task} {lo hi : Nat}
      (hb : blocks[id]? = some b) (h : Covers blocks known b.statements lo hi)
      (hrest : Safe blocks known rest) : Safe blocks known (.eval (.block id ty) :: rest)
  | access {known : Set VarRef} {a : Access} {rest : List Task}
      (h : ∀ var, a = .read var → var ∈ known) (hrest : Safe blocks (setAfter known [a]) rest) :
      Safe blocks known (.access a :: rest)
  | leave {known : Set VarRef} {rest : List Task} : Safe blocks known (.leave :: rest)

section
variable {blocks : List Block} {known : Set VarRef} {tasks rest : List Task} {trace : List Access}

theorem setAfter_append (known : Set VarRef) (first second : List Access) :
    setAfter known (first ++ second) = setAfter (setAfter known first) second := by
  ext var
  simp [setAfter, or_assoc]

@[simp] theorem setAfter_nil (known : Set VarRef) : setAfter known [] = known := by
  simp [setAfter]

theorem Covers.exists_unfolds {e : Expr} {lo hi : Nat} (h : Covers blocks known [e] lo hi) :
    ∃ tasks, Unfolds blocks e tasks := by
  cases e with
  | literal => exact ⟨_, .literal⟩
  | read => exact ⟨_, .read⟩
  | write => exact ⟨_, .write⟩
  | bind => exact ⟨_, .bind⟩
  | binary => exact ⟨_, .binary⟩
  | unary => exact ⟨_, .unary⟩
  | call => exact ⟨_, .call⟩
  | leave => exact ⟨_, .leave⟩
  | leaveWith => exact ⟨_, .leaveWith⟩
  | ifThen => exact ⟨_, .taken⟩
  | ifThenElse => exact ⟨_, .onTrue⟩
  | block =>
    cases h with
    | cons he => cases he
    | block hb => exact ⟨_, .block hb⟩

namespace Safe

theorem mono {wider : Set VarRef} (h : Safe blocks known tasks) (hsub : known ⊆ wider) :
    Safe blocks wider tasks := by
  induction h generalizing wider with
  | done => exact .done
  | eval h _ ih => exact .eval (h.mono hsub) (ih (Set.union_subset_union_left _ hsub))
  | block hb h _ ih => exact .block hb (h.mono hsub) (ih hsub)
  | access h _ ih =>
    exact .access (fun var hvar => hsub (h var hvar)) (ih fun var hvar => hvar.imp (@hsub var) id)
  | leave => exact .leave

theorem evals {es : List Expr} {lo hi : Nat} (h : Covers blocks known es lo hi)
    (hrest : Safe blocks (boundAfter known es) rest) : Safe blocks known (es.map .eval ++ rest) := by
  induction es generalizing known lo with
  | nil => simpa using hrest
  | cons e es ih =>
    obtain ⟨mid, hfirst, hlater⟩ := h.uncons
    rw [boundAfter_cons] at hrest
    exact .eval hfirst (ih hlater hrest)

theorem accesses {first : List Access} (h : ∀ var, .read var ∉ first)
    (hrest : Safe blocks (setAfter known first) rest) : Safe blocks known (first.map .access ++ rest) := by
  induction first generalizing known with
  | nil => simpa using hrest
  | cons a first ih =>
    rw [← List.singleton_append, setAfter_append] at hrest
    refine .access (fun var hvar => absurd (hvar ▸ .head _) (h var)) (ih (fun var hvar => ?_) hrest)
    exact h var (.tail _ hvar)

theorem operands {e : Expr} {lo hi : Nat} (es : List Expr) (h : Covers blocks known [e] lo hi)
    (he : e.named = []) (hsub : es ⊆ e.children) (hrest : Safe blocks known rest) :
    Safe blocks known (es.map .eval ++ rest) := by
  induction es with
  | nil => exact hrest
  | cons c es ih =>
    obtain ⟨hc, hsub⟩ := List.cons_subset.1 hsub
    obtain ⟨lo, hi, hcovers⟩ := h.child he hc
    have hplain : c.isStatement = false := (h.children he).2.1 c hc
    refine .eval hcovers ?_
    rw [boundAfter_of_plain (by simpa using hplain)]
    exact ih hsub

theorem unfolds {e : Expr} {lo hi : Nat} (h : Covers blocks known [e] lo hi)
    (hrest : Safe blocks (boundAfter known [e]) rest) (hunfolds : Unfolds blocks e tasks) :
    Safe blocks known (tasks ++ rest) := by
  have hkeep (hplain : e.isStatement = false) : Safe blocks known rest := by
    rwa [boundAfter_of_plain (by simpa using hplain)] at hrest
  cases hunfolds with
  | literal => exact hkeep rfl
  | @read _ var =>
    have hknown : var ∈ known := (h.children rfl).1 var (by simp [Expr.reads])
    exact .access (by simpa using hknown) (by simpa [setAfter] using hkeep rfl)
  | write =>
    exact operands [_] h rfl (List.Subset.refl _) (.access (by simp) (by simpa [setAfter] using hkeep rfl))
  | bind =>
    apply operands [_] h rfl (List.Subset.refl _) (.access (by simp) _)
    simpa [boundAfter, setAfter, Expr.bound, Set.union_def] using hrest
  | binary => exact operands [_, _] h rfl (List.Subset.refl _) (hkeep rfl)
  | unary => exact operands [_] h rfl (List.Subset.refl _) (hkeep rfl)
  | call => exact operands _ h rfl (List.Subset.refl _) (hkeep rfl)
  | leave => exact .leave
  | leaveWith => exact operands [_] h rfl (List.Subset.refl _) .leave
  | taken => exact operands [_, _] h rfl (List.Subset.refl _) (hkeep rfl)
  -- Of the branches, those that are left out do not matter.
  | skipped => exact operands [_] h rfl (by simp [Expr.children]) (hkeep rfl)
  | onTrue => exact operands [_, _] h rfl (by simp [Expr.children]) (hkeep rfl)
  | onFalse => exact operands [_, _] h rfl (by simp [Expr.children]) (hkeep rfl)
  | block hb =>
    cases h with
    | cons he => cases he
    | block hb' _ hi _ =>
      cases hb.symm.trans hb'
      exact evals hi ((hkeep rfl).mono Set.subset_union_left)

theorem step {now : List Access} {last : List Task} (h : Safe blocks known tasks)
    (hstep : Step blocks tasks now last) :
    (∀ var, .read var ∈ now → var ∈ known) ∧ Safe blocks (setAfter known now) last := by
  cases hstep with
  | eval hunfolds =>
    rw [setAfter_nil]
    refine ⟨by simp, ?_⟩
    cases h with
    | eval h hrest => exact unfolds h hrest hunfolds
    | block hb h hrest =>
      cases hunfolds with
      | block hb' =>
        cases hb.symm.trans hb'
        exact evals h (hrest.mono Set.subset_union_left)
  | access =>
    cases h with
    | access h hrest => exact ⟨fun var hvar => h var (List.mem_singleton.1 hvar).symm, hrest⟩
  | leave => exact ⟨by simp, .done⟩

theorem goes_on (h : Safe blocks known tasks) (hne : tasks ≠ []) :
    ∃ now last, Step blocks tasks now last := by
  cases h with
  | done => exact absurd rfl hne
  | eval h =>
    obtain ⟨_, hunfolds⟩ := h.exists_unfolds
    exact ⟨[], _, .eval hunfolds⟩
  | block hb => exact ⟨[], _, .eval (.block hb)⟩
  | access => exact ⟨_, _, .access⟩
  | leave => exact ⟨[], [], .leave⟩

theorem steps {last : List Task} (h : Safe blocks known tasks) (hsteps : Steps blocks tasks trace last) :
    (∀ before var after, trace = before ++ .read var :: after → var ∈ setAfter known before) ∧
      Safe blocks (setAfter known trace) last := by
  induction hsteps with
  | nothing => exact ⟨by simp, by simpa using h⟩
  | @more mid last trace now _ hstep ih =>
    obtain ⟨hreads, hsafe⟩ := ih
    obtain ⟨hnow, hlast⟩ := hsafe.step hstep
    rw [setAfter_append]
    refine ⟨fun before var after htrace => ?_, hlast⟩
    -- The read stands in the trace so far, or it is the access of this step.
    rcases List.append_eq_append_iff.1 htrace with ⟨between, rfl, hbetween⟩ | ⟨between, rfl, hbetween⟩
    · rw [setAfter_append]
      exact .inl (hnow var (by simp [hbetween]))
    · cases between with
      | nil =>
        cases hbetween
        simpa using hnow var (.head _)
      | cons a between =>
        cases (List.cons.inj hbetween).1
        exact hreads before var between rfl

end Safe

theorem mem_argumentVars {signature : Signature} {var : VarRef} :
    var ∈ signature.argumentVars ↔ .set var ∈ signature.stores := by
  rw [Signature.stores, List.mem_map]
  constructor
  · intro ⟨hblock, hindex⟩
    exact ⟨var.index, List.mem_range.2 hindex, by rw [← hblock]⟩
  · rintro ⟨index, hindex, ⟨⟩⟩
    exact ⟨rfl, List.mem_range.1 hindex⟩

theorem Function.Laid.safe {f : Function} (h : f.Laid) : Safe f.blocks ∅ f.entered := by
  obtain ⟨b, ty, hbody, hb, -, -, hcovers⟩ := h
  have hset : setAfter ∅ f.signature.stores = f.signature.argumentVars := by
    ext var
    simp [setAfter, mem_argumentVars]
  apply Safe.accesses (by simp [Signature.stores])
  rw [hset, hbody]
  exact .block hb hcovers .done

/-- An execution sets a variable before it reads it, and goes on until nothing is left to do. -/
structure Function.Initialized (f : Function) : Prop where
  reads : ∀ trace tasks, Steps f.blocks f.entered trace tasks →
    ∀ before var after, trace = before ++ .read var :: after → .set var ∈ before
  goes_on : ∀ trace tasks, Steps f.blocks f.entered trace tasks → tasks ≠ [] →
    ∃ now next, Step f.blocks tasks now next

theorem Function.Laid.initialized {f : Function} (h : f.Laid) : f.Initialized where
  reads trace tasks hsteps before var after htrace := by
    simpa [setAfter] using (h.safe.steps hsteps).1 before var after htrace
  goes_on trace tasks hsteps hne := (h.safe.steps hsteps).2.goes_on hne

end
end ScalarJit
