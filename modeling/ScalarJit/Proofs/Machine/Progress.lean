import ScalarJit.Proofs.Machine.Program
import ScalarJit.Proofs.Tree.Traversal

/-! # Evaluations that miss nothing

The evaluation of a function that is laid out finds the values of all variables that it reads. It may
return or use up its fuel, but it is never stuck. The induction is over how phrases are lowered, which
says where an expression has a value. -/

namespace ScalarJit

def Codegen.Phrase.exprs : Phrase → List Expr
  | .expr e => [e]
  | .arguments args => args
  | .statements _ list => list

namespace Machine

open Codegen (Context Framed Item Lowers Phrase Pool Resolves)
open Evaluation (CallEval EvalM Exit Locals)

section
variable {σ α β : Type}

def HasValues (known : Set VarRef) (locals : Locals) : Prop := ∀ var ∈ known, (locals var).isSome

/-- Where some variables have values, a step is not stuck and ends with values for others. -/
def Proceeds (known after : Set VarRef) (e : EvalM σ α) (ok : α → Prop) : Prop :=
  ∀ s, HasValues known s.locals →
    Ends e s (fun a t => ok a ∧ HasValues after t.locals) fun exit _ => exit ≠ .stuck

namespace Proceeds

variable {known mid after : Set VarRef} {e : EvalM σ α} {ok : α → Prop}

theorem pure {a : α} (h : ok a) : Proceeds known known (pure a : EvalM σ α) ok :=
  fun _ hs => ⟨h, hs⟩

theorem bind {f : α → EvalM σ β} {ok' : β → Prop} (h : Proceeds known mid e ok)
    (hnext : ∀ a, ok a → Proceeds mid after (f a) ok') : Proceeds known after (e >>= f) ok' :=
  fun s hs => Ends.bind (h s hs) fun a t ⟨ha, ht⟩ => hnext a ha t ht

theorem map {f : α → β} {ok' : β → Prop} :
    Proceeds known after (f <$> e) ok' ↔ Proceeds known after e fun a => ok' (f a) :=
  forall₂_congr fun _ _ => ends_map f e

theorem mono {ok' : α → Prop} {fewer : Set VarRef} (h : Proceeds known after e ok)
    (hok : ∀ a, ok a → ok' a) (hsub : fewer ⊆ after) : Proceeds known fewer e ok' :=
  fun s hs => (h s hs).mono (fun a _ ⟨ha, ht⟩ => ⟨hok a ha, fun var hvar => ht var (hsub hvar)⟩)
    fun _ _ he => he

theorem returned {value : Double} :
    Proceeds known after (throw (.returned value) : EvalM σ α) ok :=
  fun _ _ => by simp

end Proceeds

end

namespace Setting

variable {σ : Type} {w : Setting σ} {declares : String → Signature → Prop} {depth k : Nat}
  {known : Set VarRef}

def Responds (w : Setting σ) (declares : String → Signature → Prop) : Prop :=
  ∀ callee target signature args s, Resolves w.ctx callee target → declares callee signature →
    args.length = signature.args.length → (w.calls callee args s).1 ≠ .error .stuck

/-- A phrase has as many values as it leaves, and binds what its expressions bind. -/
def Completes (w : Setting σ) (depth : Nat) (known : Set VarRef) (phrase : Phrase) : Prop :=
  Proceeds known (boundAfter known phrase.exprs) (w.evaluate depth phrase)
    fun values => values.length = phrase.count

/-! ### Expressions -/

theorem Completes.kept {phrase : Phrase} (h : w.Completes depth known phrase) :
    Proceeds known known (w.evaluate depth phrase) fun values => values.length = phrase.count :=
  h.mono (fun _ hlen => hlen) Set.subset_union_left

theorem Completes.value {e : Expr} (h : w.Completes depth known (.expr e)) (hvalue : e.hasValue = true) :
    Proceeds known (boundAfter known [e]) (w.value depth e) fun _ => True := by
  have hcount : (Phrase.expr e).count = 1 := by rw [Phrase.count, hvalue]; rfl
  refine (Proceeds.map.1 h).bind fun v hlen => ?_
  rw [hcount] at hlen
  cases v with
  | none => cases hlen
  | some x => exact .pure trivial

theorem Completes.operand {e : Expr} (h : w.Completes depth known (.expr e))
    (hvalue : e.hasValue = true) : Proceeds known known (w.value depth e) fun _ => True :=
  (h.value hvalue).mono (fun _ h => h) Set.subset_union_left

theorem completes_plain {e : Expr} (hplain : e.isStatement = false)
    (h : Proceeds known known (Evaluation.expr w.host w.calls
      (Evaluation.blocksWithin w.host w.calls w.ctx.function depth) e)
      fun v => v.toList.length = e.hasValue.toNat) : w.Completes depth known (.expr e) := by
  rw [Completes, boundAfter_of_plain (by simpa [Phrase.exprs] using hplain)]
  exact Proceeds.map.2 h

theorem proceeds_readVariable {var : VarRef} (h : var ∈ known) :
    Proceeds known known (Evaluation.readVariable var : EvalM σ Double) fun _ => True := by
  intro s hs
  refine ends_readVariable.2 ⟨fun x _ => ⟨trivial, hs⟩, fun hnone => ?_⟩
  have hsome := hs var h
  rw [hnone] at hsome
  cases hsome

theorem proceeds_writeVariable {var : VarRef} {x : Double} :
    Proceeds known (known ∪ {var}) (Evaluation.writeVariable var x : EvalM σ Unit) fun _ => True := by
  intro s hs
  refine (ends_modify _).2 ⟨trivial, fun other hother => ?_⟩
  show (if other = var then some x else s.locals other).isSome = true
  split
  · rfl
  · next hne => exact hs other (hother.resolve_right hne)

theorem proceeds_store {e : Expr} {var : VarRef} (h : w.Completes depth known (.expr e))
    (hvalue : e.hasValue = true) :
    Proceeds known (known ∪ {var}) (do
      Evaluation.writeVariable var (← w.value depth e)
      return (none : Option Double)) fun r => r.toList.length = 0 :=
  (h.operand hvalue).bind fun _ _ => proceeds_writeVariable.bind fun _ _ => .pure rfl

theorem proceeds_hostCall {host : Host σ} {f : HostFunction} {args : List Double} :
    Proceeds known known (Evaluation.hostCall host f args) fun _ => True :=
  fun _ hs => ⟨trivial, hs⟩

theorem proceeds_operation {host : Host σ} {op : BinaryOp} {x y : Double} :
    Proceeds known known (Evaluation.operation host op x y) fun _ => True := by
  cases op with
  | power => exact proceeds_hostCall
  | _ => exact .pure trivial

theorem proceeds_functionCall {calls : CallEval σ} {callee : String} {args : List Double}
    (h : ∀ s, (calls callee args s).1 ≠ .error .stuck) :
    Proceeds known known (Evaluation.functionCall calls callee args) fun _ => True := by
  intro s hs
  rw [functionCall_eq]
  refine ends_invoke (fun _ _ _ => ⟨trivial, hs⟩) fun exit t hcall hstuck => h s.host ?_
  rw [hcall, hstuck]

theorem completes_binary {op : BinaryOp} {lhs rhs : Expr}
    (hvalue : (Expr.binary op lhs rhs).hasValue = true)
    (h : w.Completes depth known (.arguments [lhs, rhs])) :
    w.Completes depth known (.expr (.binary op lhs rhs)) := by
  refine completes_plain rfl ?_
  rw [expr_binary_eq, hvalue]
  refine h.kept.bind fun values hlen => ?_
  match values, hlen with
  | [x, y], _ => exact Proceeds.map.2 (proceeds_operation.mono (fun _ _ => rfl) subset_rfl)

theorem completes_call (hcalls : w.Responds declares) {callee : String} {args : List Expr} {ty : Ty}
    {target : Codegen.Target} {signature : Signature} (ht : Resolves w.ctx callee target)
    (hd : declares callee signature) (hn : args.length = signature.args.length)
    (h : w.Completes depth known (.arguments args)) :
    w.Completes depth known (.expr (.call callee args ty)) := by
  refine completes_plain rfl ?_
  rw [Evaluation.expr]
  refine h.kept.bind fun values hlen => Proceeds.bind (proceeds_functionCall fun s =>
    hcalls callee target signature values s ht hd (hlen.trans hn)) fun x _ => .pure ?_
  show _ = (!ty.isVoid).toNat
  cases ty.isVoid <;> rfl

theorem proceeds_conditional {condition : Expr} {ok : Option Double → Prop}
    {onTrue onFalse : EvalM σ (Option Double)} (hvalue : condition.hasValue = true)
    (hc : w.Completes depth known (.expr condition)) (ht : Proceeds known known onTrue ok)
    (hf : Proceeds known known onFalse ok) :
    Proceeds known known (do if Evaluation.holds (← w.value depth condition) then onTrue else onFalse)
      ok := by
  refine (hc.operand hvalue).bind fun x _ => ?_
  cases Evaluation.holds x with
  | true => exact ht
  | false => exact hf

theorem completes_ifThen {condition onTrue : Expr} (hvalue : condition.hasValue = true)
    (hc : w.Completes depth known (.expr condition)) (ht : w.Completes depth known (.expr onTrue)) :
    w.Completes depth known (.expr (.ifThen condition onTrue)) := by
  refine completes_plain rfl ?_
  rw [Evaluation.expr]
  refine proceeds_conditional hvalue hc (Proceeds.map.1 ht.kept) (.pure ?_)
  show _ = onTrue.hasValue.toNat
  cases onTrue.hasValue <;> rfl

theorem completes_ifThenElse {condition onTrue onFalse : Expr} (hvalue : condition.hasValue = true)
    (hsame : onFalse.hasValue = onTrue.hasValue) (hc : w.Completes depth known (.expr condition))
    (ht : w.Completes depth known (.expr onTrue)) (hf : w.Completes depth known (.expr onFalse)) :
    w.Completes depth known (.expr (.ifThenElse condition onTrue onFalse)) := by
  have hcount : (Phrase.expr onFalse).count = onTrue.hasValue.toNat := congrArg Bool.toNat hsame
  have hother := hf.kept
  rw [hcount] at hother
  refine completes_plain rfl ?_
  rw [Evaluation.expr]
  exact proceeds_conditional hvalue hc (Proceeds.map.1 ht.kept) (Proceeds.map.1 hother)

theorem completes_block {id : BlockId} {ty : Ty} {b : Block}
    (hb : w.ctx.function.blocks[id]? = some b)
    (h : w.Completes depth known (.statements (!ty.isVoid) b.statements)) :
    w.Completes (depth + 1) known (.expr (.block id ty)) := by
  refine completes_plain rfl ?_
  rw [Evaluation.expr, Evaluation.blocksWithin, hb]
  exact Proceeds.map.1 h.kept

/-! ### Lists -/

theorem completes_nothing {phrase : Phrase} (hexprs : phrase.exprs = []) (hcount : phrase.count = 0)
    (h : w.evaluate depth phrase = pure []) : w.Completes depth known phrase := by
  rw [Completes, hexprs, hcount, h, boundAfter_nil]
  exact .pure rfl

theorem completes_argument {e : Expr} {rest : List Expr} (hvalue : e.hasValue = true)
    (h : w.Completes depth known (.expr e))
    (hrest : w.Completes depth (boundAfter known [e]) (.arguments rest)) :
    w.Completes depth known (.arguments (e :: rest)) := by
  rw [Completes, evaluate, Evaluation.arguments, Phrase.exprs, boundAfter_cons]
  refine (h.value hvalue).bind fun x _ => Proceeds.bind hrest fun values hlen => .pure ?_
  exact congrArg Nat.succ hlen

theorem completes_lastStatement {e : Expr} {hasValue : Bool} (hvalue : e.hasValue = hasValue)
    (h : w.Completes depth known (.expr e)) : w.Completes depth known (.statements hasValue [e]) := by
  have hcount : (Phrase.expr e).count = hasValue.toNat := congrArg Bool.toNat hvalue
  refine Proceeds.map.2 ?_
  rw [Evaluation.statements]
  refine Proceeds.bind (Proceeds.map.1 h) fun v hlen => .pure ?_
  rw [hcount] at hlen
  cases hasValue with
  | true => exact hlen
  | false => rfl

theorem completes_statement {e next : Expr} {rest : List Expr} {hasValue : Bool}
    (h : w.Completes depth known (.expr e))
    (hrest : w.Completes depth (boundAfter known [e]) (.statements hasValue (next :: rest))) :
    w.Completes depth known (.statements hasValue (e :: next :: rest)) := by
  rw [Completes, Phrase.exprs, boundAfter_cons]
  exact Proceeds.map.2 (Proceeds.bind (Proceeds.map.1 h) fun _ _ => Proceeds.map.1 hrest)

/-! ### All phrases -/

variable [HostAddresses]

theorem completes_of_lowers (hcalls : w.Responds declares)
    (hwf : w.ctx.function.WellFormed declares) (hframed : Framed w.ctx.function) {phrase : Phrase}
    {items : List Item} (h : Lowers w.ctx w.pool depth k phrase items) {here : BlockId}
    (hfits : Fits (w.ctx.function.surroundings declares) here phrase) {lo hi : Nat}
    (hcovers : Covers w.ctx.function.blocks known phrase.exprs lo hi) :
    w.Completes depth known phrase := by
  -- The variables in `known` have values. A phrase reads no others, and adds what it binds.
  induction h generalizing here known lo hi with
  | literal =>
    refine completes_plain rfl ?_
    rw [Evaluation.expr]
    exact .pure rfl
  | @read _ _ name var =>
    cases hfits with
    | @read _ _ v hd hn he =>
      have hvalue : (Expr.read name var v.ty v.mutable).hasValue = true := by
        rw [Expr.hasValue_iff]
        show v.ty ≠ .void
        rw [hframed.double _ _ hd]
        decide
      have hknown := (hcovers.children rfl).1 var (by simp [Expr.reads])
      refine completes_plain rfl ?_
      rw [Evaluation.expr, hvalue]
      exact Proceeds.map.2 ((proceeds_readVariable hknown).mono (fun _ _ => rfl) subset_rfl)
  | write hk hv hvalue h ih =>
    cases hfits with
    | write hd hn he hm hty hexpr =>
      refine completes_plain rfl ?_
      rw [Evaluation.expr]
      exact (proceeds_store (ih hexpr (hcovers.operands rfl)) hvalue).mono (fun _ h => h)
        Set.subset_union_left
  | bind hk hv hvalue h ih =>
    cases hfits with
    | bind hd hn he hty hvoid hexpr =>
      rw [Completes, Phrase.exprs, boundAfter_bind]
      refine Proceeds.map.2 ?_
      rw [Evaluation.expr]
      exact proceeds_store (ih hexpr (hcovers.operands rfl)) hvalue
  | arithmetic hk hop h ih =>
    cases hfits with
    | binary hl hr hv hty =>
      exact completes_binary (Expr.hasValue_iff.2 hv) (ih (fits_pair hl hr) (hcovers.operands rfl))
  | comparison hk hop hx h ih =>
    cases hfits with
    | binary hl hr hv hty =>
      exact completes_binary (Expr.hasValue_iff.2 hv) (ih (fits_pair hl hr) (hcovers.operands rfl))
  | power hk hop h ih =>
    cases hfits with
    | binary hl hr hv hty =>
      exact completes_binary (Expr.hasValue_iff.2 hv) (ih (fits_pair hl hr) (hcovers.operands rfl))
  | plus h ih =>
    cases hfits with
    | unary hexpr hv =>
      refine completes_plain rfl ?_
      rw [Evaluation.expr]
      exact Proceeds.map.1 (ih hexpr (hcovers.operands rfl)).kept
  | minus hk hvalue hx h ih =>
    cases hfits with
    | unary hexpr hv =>
      refine completes_plain rfl ?_
      rw [Evaluation.expr]
      refine ((ih hexpr (hcovers.operands rfl)).operand hvalue).bind fun _ _ => .pure ?_
      exact (congrArg Bool.toNat hvalue).symm
  | call ht hargs hk hr h ih =>
    cases hfits with
    | call hd hty hexprs =>
      have hn := congrArg List.length hty
      rw [List.length_map, List.length_map] at hn
      exact completes_call hcalls ht hd hn.symm (ih hexprs (hcovers.operands rfl))
  | leave =>
    refine Proceeds.map.2 ?_
    rw [Evaluation.expr]
    exact .returned
  | leaveWith hk hvalue h ih =>
    cases hfits with
    | leaveWith hexpr hr =>
      refine Proceeds.map.2 ?_
      rw [Evaluation.expr]
      exact ((ih hexpr (hcovers.operands rfl)).operand hvalue).bind fun _ _ => .returned
  | ifThen hk hvalue hts hc ht ihc iht =>
    cases hfits with
    | ifThen hwc hwt hv =>
      obtain ⟨_, _, hcondition⟩ := hcovers.child rfl (.head _)
      obtain ⟨_, _, htrue⟩ := hcovers.child rfl (.tail _ (.head _))
      exact completes_ifThen hvalue (ihc hwc hcondition) (iht hwt htrue)
  | ifThenElse hk hvalue hsame hts hfs hc ht hf ihc iht ihf =>
    cases hfits with
    | ifThenElse hwc hwt hwf hv hty hcat =>
      obtain ⟨_, _, hcondition⟩ := hcovers.child rfl (.head _)
      obtain ⟨_, _, htrue⟩ := hcovers.child rfl (.tail _ (.head _))
      obtain ⟨_, _, hfalse⟩ := hcovers.child rfl (.tail _ (.tail _ (.head _)))
      exact completes_ifThenElse hvalue hsame (ihc hwc hcondition) (iht hwt htrue) (ihf hwf hfalse)
  | @block d k id ty b is hb h ih =>
    cases hcovers with
    | cons he => cases he
    | block hb' _ hinside _ =>
      cases hb.symm.trans hb'
      exact completes_block hb (ih (fun e he => (hwf.statements id b hb e he).2) hinside)
  | noArguments => exact completes_nothing rfl rfl (by rw [evaluate, Evaluation.arguments])
  | argument hk hvalue h hrest ih ihrest =>
    obtain ⟨mid, hfirst, hlater⟩ := hcovers.uncons
    exact completes_argument hvalue (ih (hfits _ (.head _)) hfirst)
      (ihrest (fun e he => hfits e (.tail _ he)) hlater)
  | noStatements =>
    exact completes_nothing rfl rfl (by rw [evaluate, Evaluation.statements, map_pure]; rfl)
  | lastStatement hvalue h ih => exact completes_lastStatement hvalue (ih (hfits _ (.head _)) hcovers)
  | statement h hrest ih ihrest =>
    obtain ⟨mid, hfirst, hlater⟩ := hcovers.uncons
    exact completes_statement (ih (hfits _ (.head _)) hfirst)
      (ihrest (fun e he => hfits e (.tail _ he)) hlater)

/-! ### Functions -/

theorem completes_body (hcalls : w.Responds declares) (hwf : w.ctx.function.WellFormed declares)
    (hframed : Framed w.ctx.function) (hlaid : w.ctx.function.Laid) {items : List Item}
    (h : Lowers w.ctx w.pool depth 0 (.expr w.ctx.function.body) items) :
    w.Completes depth w.ctx.function.signature.argumentVars (.expr w.ctx.function.body) := by
  obtain ⟨b, ty, hbody, hb, -, -, hcovers⟩ := hlaid
  rw [hbody] at h ⊢
  cases h with
  | block hb' h =>
    cases hb.symm.trans hb'
    have hfits := fun e he => (hwf.statements _ _ hb e he).2
    exact completes_block hb (completes_of_lowers hcalls hwf hframed h hfits hcovers)

omit [HostAddresses] in
theorem hasValues_ofArguments {signature : Signature} {args : List Double}
    (h : args.length = signature.args.length) :
    HasValues signature.argumentVars (.ofArguments args) := by
  intro var ⟨hblock, hindex⟩
  rw [Locals.ofArguments, if_pos hblock, List.getElem?_eq_getElem (by omega)]
  rfl

theorem applyFunction_ne_stuck (hcalls : w.Responds declares)
    (hwf : w.ctx.function.WellFormed declares) (hlaid : w.ctx.function.Laid) {items : List Item}
    (hlower : Codegen.LowersFunction w.ctx w.pool items) {args : List Double}
    (hargs : args.length = w.ctx.function.signature.args.length) (s : σ) :
    (Evaluation.applyFunction w.host w.calls w.ctx.function args s).1 ≠ .error .stuck := by
  obtain ⟨is, hbody, -⟩ := hlower.body
  have hcompletes := Proceeds.map.1 (completes_body hcalls hwf hlower.framed hlaid hbody)
  have hends := (ends_iff.1 (hcompletes ⟨.ofArguments args, s⟩ (hasValues_ofArguments hargs))).2
  rw [Evaluation.applyFunction]
  dsimp only [EStateM.run]
  split
  · simp
  · simp
  · next exit t _ hrun =>
    intro hstuck
    exact hends exit t hrun (Except.error.inj hstuck)

end Setting

/-! ### Programs -/

section
variable {σ : Type} {p : Program} {o : Object} {pool : Pool} {code : List (List Item)}

/-- However deep calls nest, none is stuck. -/
theorem callWithin_ne_stuck [HostAddresses] (host : Host σ) (hp : p.Ordered)
    (hlowered : p.Lowered o pool code)
    (hlaid : ∀ entry ∈ p.functions, entry.2.Laid) (n : Nat) {name : String} {f : Function}
    {args : List Double} (hf : p.function? name = some f)
    (hargs : args.length = f.signature.args.length) (s : σ) :
    (Evaluation.callWithin host p n name args s).1 ≠ .error .stuck := by
  induction n generalizing name f args s with
  | zero => simp [Evaluation.callWithin]
  | succ n ih =>
    cases hid : o.entries.lookup name with
    | none =>
      rw [hlowered.function_of_no_entry hp hid] at hf
      cases hf
    | some id =>
      obtain ⟨g, items, hg, hmem, -, hlower⟩ := hlowered.function_of_entry hp hid
      cases hf.symm.trans hg
      have hcall : Evaluation.callWithin host p (n + 1) name args s =
          Evaluation.applyFunction host (Evaluation.callWithin host p n) f args s := by
        rw [Evaluation.callWithin, hf]
      rw [hcall]
      -- evaluations do not depend on the machine
      let w : Setting σ := ⟨host, fun _ => .nans, default, fun _ _ => 0,
        ⟨f, id, p.functions.length, o.entries⟩, pool, n, Evaluation.callWithin host p n, ⟨#[], .exit⟩⟩
      refine @Setting.applyFunction_ne_stuck σ w p.Declares _ ?_ (hp.functions _ hmem) (hlaid _ hmem)
        items hlower args hargs s
      intro callee target signature args s ht hd hn
      cases ht with
      | code hlookup =>
        obtain ⟨g, -, hg, -⟩ := hlowered.function_of_entry hp hlookup
        exact ih hg (by rw [hn, hd.signature_eq hg]) s
      | host hlookup hi =>
        have hnone := hlowered.function_of_no_entry hp hlookup
        cases n with
        | zero => simp [w, Evaluation.callWithin]
        | succ n =>
          simp only [w, Evaluation.callWithin, hnone, hi]
          intro hstuck
          cases hstuck

end
end Machine
end ScalarJit
