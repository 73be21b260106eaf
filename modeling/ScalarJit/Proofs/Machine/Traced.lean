import ScalarJit.Proofs.Machine.Functions
import ScalarJit.Proofs.Tree.Accesses

/-! # Evaluations are executions

Whatever calls and host functions answer, the evaluation of a function goes through one of its
executions: the accesses of the execution, with the values of the evaluation, lead from the variables
that it starts with to those that it ends with. -/

namespace ScalarJit

open Evaluation (BlockEval CallEval EvalM Exit Locals)

/-- Accesses, with some values, lead from the values of variables to others. -/
inductive Replays (first : Locals) : List Access → Locals → Prop
  | nothing : Replays first [] first
  | set {trace : List Access} {locals : Locals} {var : VarRef} {x : Double}
      (h : Replays first trace locals) : Replays first (trace ++ [.set var]) (locals.set var x)
  | write {trace : List Access} {locals : Locals} {var : VarRef} {x : Double}
      (h : Replays first trace locals) : Replays first (trace ++ [.write var]) (locals.set var x)
  | read {trace : List Access} {locals : Locals} {var : VarRef} (h : Replays first trace locals)
      (hvalue : (locals var).isSome) : Replays first (trace ++ [.read var]) locals

def Goes (blocks : List Block) (tasks : List Task) (first : Locals) (last : List Task)
    (locals : Locals) : Prop :=
  ∃ trace, Steps blocks tasks trace last ∧ Replays first trace locals

section
variable {blocks : List Block} {tasks mid last rest : List Task} {first next locals : Locals}
  {trace more : List Access} {e : Expr}

theorem Steps.trans (h : Steps blocks tasks trace mid) (h' : Steps blocks mid more last) :
    Steps blocks tasks (trace ++ more) last := by
  induction h' with
  | nothing => rwa [List.append_nil]
  | more _ hstep ih =>
    rw [← List.append_assoc]
    exact .more ih hstep

theorem Replays.trans (h : Replays first trace next) (h' : Replays next more locals) :
    Replays first (trace ++ more) locals := by
  induction h' with
  | nothing => rwa [List.append_nil]
  | set _ ih =>
    rw [← List.append_assoc]
    exact .set ih
  | write _ ih =>
    rw [← List.append_assoc]
    exact .write ih
  | read _ hvalue ih =>
    rw [← List.append_assoc]
    exact .read ih hvalue

namespace Goes

theorem refl : Goes blocks tasks first tasks first := ⟨[], .nothing, .nothing⟩

theorem trans (h : Goes blocks tasks first mid next) (h' : Goes blocks mid next last locals) :
    Goes blocks tasks first last locals := by
  obtain ⟨trace, hsteps, hreplays⟩ := h
  obtain ⟨more, hsteps', hreplays'⟩ := h'
  exact ⟨trace ++ more, hsteps.trans hsteps', hreplays.trans hreplays'⟩

theorem unfold (h : Unfolds blocks e tasks) :
    Goes blocks (.eval e :: rest) first (tasks ++ rest) first :=
  ⟨[], .more .nothing (.eval h), .nothing⟩

theorem access {a : Access} (h : Replays first [a] locals) :
    Goes blocks (.access a :: rest) first rest locals :=
  ⟨[a], .more .nothing .access, h⟩

theorem leave : Goes blocks (.leave :: rest) first [] first :=
  ⟨[], .more .nothing .leave, .nothing⟩

end Goes
end

/-! ### Steps of evaluation -/

/-- A step of evaluation does some tasks. If it makes the function return, nothing is left to do. -/
def Traces {σ α : Type} (blocks : List Block) (tasks : List Task) (m : EvalM σ α) : Prop :=
  ∀ s, Ends m s (fun _ t => ∀ rest, Goes blocks (tasks ++ rest) s.locals rest t.locals)
    fun exit t => ∀ rest, ∃ last, Goes blocks (tasks ++ rest) s.locals last t.locals ∧
      ∀ value, exit = .returned value → last = []

namespace Traces

variable {σ α β : Type} {blocks : List Block} {tasks more : List Task} {m : EvalM σ α} {e : Expr}

theorem pure {a : α} : Traces blocks [] (pure a : EvalM σ α) := fun _ _ => .refl

theorem stuck : Traces blocks tasks (throw .stuck : EvalM σ α) :=
  fun _ rest => ⟨tasks ++ rest, .refl, by simp⟩

theorem returned {value : Double} : Traces blocks [.leave] (throw (.returned value) : EvalM σ α) :=
  fun _ _ => ⟨[], .leave, fun _ _ => rfl⟩

theorem bind {f : α → EvalM σ β} (h : Traces blocks tasks m) (hnext : ∀ a, Traces blocks more (f a)) :
    Traces blocks (tasks ++ more) (m >>= f) := by
  intro s
  refine (ends_bind _ _).2 ((h s).mono (fun a t hfirst => ?_) fun exit t hfirst rest => ?_)
  · refine (hnext a t).mono (fun b u hlater rest => ?_) fun exit u hlater rest => ?_
    · rw [List.append_assoc]
      exact (hfirst _).trans (hlater rest)
    · obtain ⟨last, hgoes, hleft⟩ := hlater rest
      rw [List.append_assoc]
      exact ⟨last, (hfirst _).trans hgoes, hleft⟩
  · rw [List.append_assoc]
    exact hfirst _

theorem andThen {f : α → EvalM σ β} (h : Traces blocks tasks m) (hnext : ∀ a, Traces blocks [] (f a)) :
    Traces blocks tasks (m >>= f) := by
  rw [← List.append_nil tasks]
  exact h.bind hnext

theorem map {f : α → β} (h : Traces blocks tasks m) : Traces blocks tasks (f <$> m) :=
  fun s => (ends_map f m).2 (h s)

theorem unfold (hunfolds : Unfolds blocks e tasks) (h : Traces blocks tasks m) :
    Traces blocks [.eval e] m := by
  intro s
  refine (h s).mono (fun a t hgoes rest => ?_) fun exit t hgoes rest => ?_
  · exact (Goes.unfold hunfolds).trans (hgoes rest)
  · obtain ⟨last, hgoes, hleft⟩ := hgoes rest
    exact ⟨last, (Goes.unfold hunfolds).trans hgoes, hleft⟩

/-! ### Expressions -/

theorem required {m : EvalM σ (Option Double)} (h : Traces blocks tasks m) :
    Traces blocks tasks (Evaluation.required m) := by
  refine h.andThen fun v => ?_
  cases v with
  | none => exact .stuck
  | some x => exact .pure

theorem readVariable {var : VarRef} :
    Traces blocks [.access (.read var)] (Evaluation.readVariable var : EvalM σ Double) := by
  intro s
  refine Machine.Setting.ends_readVariable.2 ⟨fun x hx rest => ?_, fun _ rest => ⟨_, .refl, by simp⟩⟩
  exact .access (.read .nothing (by rw [hx]; rfl))

theorem writeVariable {a : Access} {var : VarRef} {x : Double} (h : a = .set var ∨ a = .write var) :
    Traces blocks [.access a] (Evaluation.writeVariable var x : EvalM σ Unit) := by
  intro s
  refine (ends_modify _).2 fun rest => .access ?_
  rcases h with rfl | rfl
  · exact .set .nothing
  · exact .write .nothing

theorem hostCall {host : Host σ} {f : HostFunction} {args : List Double} :
    Traces blocks [] (Evaluation.hostCall host f args) := fun _ _ => .refl

theorem operation {host : Host σ} {op : BinaryOp} {x y : Double} :
    Traces blocks [] (Evaluation.operation host op x y) := by
  cases op with
  | power => exact hostCall
  | _ => exact .pure

theorem choose [Inhabited α] {f : α → EvalM σ β} (later : α → List Task)
    (hunfolds : ∀ a, Unfolds blocks e (tasks ++ later a)) (h : Traces blocks tasks m)
    (hnext : ∀ a, Traces blocks (later a) (f a)) : Traces blocks [.eval e] (m >>= f) := by
  intro s
  have hsplit : ∀ a rest, tasks ++ later a ++ rest = tasks ++ (later a ++ rest) :=
    fun a rest => List.append_assoc ..
  refine (ends_bind _ _).2 ((h s).mono (fun a t hfirst => ?_) fun exit t hfirst rest => ?_)
  · refine (hnext a t).mono (fun b u hlater rest => ?_) fun exit u hlater rest => ?_
    · refine (Goes.unfold (hunfolds a)).trans ?_
      rw [hsplit]
      exact (hfirst _).trans (hlater rest)
    · obtain ⟨last, hgoes, hleft⟩ := hlater rest
      refine ⟨last, (Goes.unfold (hunfolds a)).trans ?_, hleft⟩
      rw [hsplit]
      exact (hfirst _).trans hgoes
  · -- What comes later does not matter: any value will do.
    obtain ⟨last, hgoes, hleft⟩ := hfirst (later default ++ rest)
    rw [← hsplit] at hgoes
    exact ⟨last, (Goes.unfold (hunfolds default)).trans hgoes, hleft⟩

theorem conditional {onTrue onFalse : EvalM σ α} {yes no : List Task} {condition : EvalM σ (Option Double)}
    (hyes : Unfolds blocks e (tasks ++ yes)) (hno : Unfolds blocks e (tasks ++ no))
    (hcondition : Traces blocks tasks condition) (ht : Traces blocks yes onTrue)
    (hf : Traces blocks no onFalse) :
    Traces blocks [.eval e] (do
      if Evaluation.holds (← Evaluation.required condition) then onTrue else onFalse) := by
  refine choose (fun x => if Evaluation.holds x then yes else no) (fun x => ?_) hcondition.required
    fun x => ?_
  all_goals split <;> assumption

end Traces

def Evaluation.CallEval.Answers {σ : Type} (calls : CallEval σ) : Prop :=
  ∀ callee args s value, (calls callee args s).1 ≠ .error (.returned value)

def TracesBlocks {σ : Type} (blocks : List Block) (eval : BlockEval σ) : Prop :=
  ∀ id hasValue ty, Traces blocks [.eval (.block id ty)] (eval id hasValue)

section
variable {σ : Type} {blocks : List Block} {host : Host σ} {calls : CallEval σ} {eval : BlockEval σ}

theorem traces_functionCall (hcalls : calls.Answers) {callee : String} {args : List Double} :
    Traces blocks [] (Evaluation.functionCall calls callee args) := by
  intro s
  rw [Machine.functionCall_eq]
  refine Machine.ends_invoke (fun _ _ _ _ => .refl) fun exit t hcall rest => ?_
  refine ⟨rest, .refl, fun value hvalue => absurd ?_ (hcalls callee args s.host value)⟩
  rw [hcall, hvalue]

mutual

theorem traces_expr (hcalls : calls.Answers) (heval : TracesBlocks blocks eval) (e : Expr) :
    Traces blocks [.eval e] (Evaluation.expr host calls eval e) := by
  -- The work list unfolds a node into its operands just as the evaluation visits them.
  match e with
  | .literal value =>
    rw [Evaluation.expr]
    exact .unfold .literal .pure
  | .read _ var _ _ =>
    rw [Evaluation.expr]
    exact .unfold .read Traces.readVariable.map
  | .write _ var value =>
    have hvalue := (traces_expr hcalls heval value).required
    rw [Evaluation.expr]
    exact .unfold .write (hvalue.bind fun _ => (Traces.writeVariable (.inr rfl)).andThen fun _ => .pure)
  | .bind _ var value =>
    have hvalue := (traces_expr hcalls heval value).required
    rw [Evaluation.expr]
    exact .unfold .bind (hvalue.bind fun _ => (Traces.writeVariable (.inl rfl)).andThen fun _ => .pure)
  | .binary op lhs rhs =>
    have hlhs := (traces_expr hcalls heval lhs).required
    have hrhs := (traces_expr hcalls heval rhs).required
    rw [Evaluation.expr]
    exact .unfold .binary (hlhs.bind fun _ => hrhs.andThen fun _ => Traces.operation.map)
  | .unary .plus operand =>
    rw [Evaluation.expr]
    exact .unfold .unary (traces_expr hcalls heval operand)
  | .unary .minus operand =>
    have hoperand := (traces_expr hcalls heval operand).required
    rw [Evaluation.expr]
    exact .unfold .unary (hoperand.andThen fun _ => .pure)
  | .call callee args ty =>
    have hargs := traces_arguments hcalls heval args
    rw [Evaluation.expr]
    exact .unfold .call (hargs.andThen fun _ => (traces_functionCall hcalls).andThen fun _ => .pure)
  | .leave =>
    rw [Evaluation.expr]
    exact .unfold .leave .returned
  | .leaveWith value =>
    have hvalue := (traces_expr hcalls heval value).required
    rw [Evaluation.expr]
    exact .unfold .leaveWith (hvalue.bind fun _ => .returned)
  | .ifThen condition onTrue =>
    have hcondition := traces_expr hcalls heval condition
    have htrue := traces_expr hcalls heval onTrue
    rw [Evaluation.expr]
    exact .conditional .taken .skipped hcondition htrue .pure
  | .ifThenElse condition onTrue onFalse =>
    have hcondition := traces_expr hcalls heval condition
    have htrue := traces_expr hcalls heval onTrue
    have hfalse := traces_expr hcalls heval onFalse
    rw [Evaluation.expr]
    exact .conditional .onTrue .onFalse hcondition htrue hfalse
  | .block id ty =>
    rw [Evaluation.expr]
    exact heval id _ ty

theorem traces_arguments (hcalls : calls.Answers) (heval : TracesBlocks blocks eval) (args : List Expr) :
    Traces blocks (args.map .eval) (Evaluation.arguments host calls eval args) := by
  match args with
  | [] =>
    rw [Evaluation.arguments]
    exact .pure
  | e :: rest =>
    have hfirst := (traces_expr hcalls heval e).required
    have hrest := traces_arguments hcalls heval rest
    rw [Evaluation.arguments]
    exact hfirst.bind fun _ => hrest.andThen fun _ => .pure

end

theorem traces_statements (hcalls : calls.Answers) (heval : TracesBlocks blocks eval) (hasValue : Bool)
    (list : List Expr) :
    Traces blocks (list.map .eval) (Evaluation.statements host calls eval hasValue list) := by
  fun_induction Evaluation.statements host calls eval hasValue list with
  | case1 => exact .pure
  | case2 e => exact (traces_expr hcalls heval e).andThen fun _ => .pure
  | case3 e rest _ ih => exact (traces_expr hcalls heval e).bind fun _ => ih

theorem traces_blocksWithin (hcalls : calls.Answers) (f : Function) (depth : Nat) :
    TracesBlocks f.blocks (Evaluation.blocksWithin host calls f depth) := by
  induction depth with
  | zero => exact fun _ _ _ => .stuck
  | succ depth ih =>
    intro id hasValue ty
    rw [Evaluation.blocksWithin]
    cases hb : f.blocks[id]? with
    | none => exact .stuck
    | some b => exact .unfold (.block hb) (traces_statements hcalls ih hasValue b.statements)

theorem answers_callWithin (host : Host σ) (p : Program) (depth : Nat) :
    (Evaluation.callWithin host p depth).Answers := by
  intro callee args s value
  cases depth with
  | zero => simp [Evaluation.callWithin]
  | succ depth =>
    rw [Evaluation.callWithin]
    cases p.function? callee with
    | some f =>
      dsimp only
      rw [Evaluation.applyFunction]
      split
      · simp
      · simp
      · next hne _ => simpa using hne value
    | none =>
      dsimp only
      cases Intrinsic.ofName? callee with
      | none => simp
      | some i => exact fun h => by cases h

end

/-! ### Functions -/

theorem goes_stores (blocks : List Block) (rest : List Task) {args : List Double} {count : Nat}
    (hcount : count ≤ args.length) :
    Goes blocks (((List.range count).map fun i => Access.set ⟨rootBlock, i⟩).map .access ++ rest) .empty
      rest (.ofArguments (args.take count)) := by
  induction count generalizing rest with
  | zero =>
    have hempty : Locals.ofArguments (args.take 0) = .empty := by
      funext var
      simp [Locals.ofArguments, Locals.empty]
    rw [hempty]
    exact .refl
  | succ count ih =>
    rw [List.range_succ, List.map_append, List.map_append, List.append_assoc,
      ← Machine.ofArguments_take_succ hcount]
    exact (ih _ (Nat.le_of_succ_le hcount)).trans (.access (.set .nothing))

/-- Whatever a function is given, its evaluation is an execution of it, and a finished one if the
function ends or returns. -/
def Function.Traced {σ : Type} (f : Function) (host : Host σ) (calls : CallEval σ) : Prop :=
  ∀ args s, args.length = f.signature.args.length →
    Ends (Evaluation.expr host calls (Evaluation.blocksWithin host calls f f.blocks.length) f.body)
      ⟨.ofArguments args, s⟩ (fun _ t => Goes f.blocks f.entered .empty [] t.locals)
      fun exit t => ∃ last, Goes f.blocks f.entered .empty last t.locals ∧
        ∀ value, exit = .returned value → last = []

theorem Function.traced {σ : Type} (f : Function) {host : Host σ} {calls : CallEval σ}
    (hcalls : calls.Answers) : f.Traced host calls := by
  intro args s hargs
  have hstores : Goes f.blocks f.entered .empty [.eval f.body] (.ofArguments args) := by
    have hgoes := goes_stores f.blocks [.eval f.body] (Nat.le_refl args.length)
    rwa [List.take_length, hargs] at hgoes
  have hblocks : TracesBlocks f.blocks (Evaluation.blocksWithin host calls f f.blocks.length) :=
    traces_blocksWithin hcalls f _
  refine (traces_expr hcalls hblocks f.body ⟨.ofArguments args, s⟩).mono (fun _ t hgoes => ?_) fun exit t hgoes => ?_
  · exact hstores.trans (hgoes [])
  · obtain ⟨last, hgoes, hleft⟩ := hgoes []
    exact ⟨last, hstores.trans hgoes, hleft⟩

end ScalarJit
