import ScalarJit.Proofs.Machine.Expressions
import ScalarJit.Proofs.X86.Decode

/-! # Code of phrases

Calls, returns, conditionals and blocks, and the induction that puts them together: whatever is
lowered does in memory what it means. -/

namespace ScalarJit
namespace Machine
namespace Setting

open X86 (Gpr Instr Xmm)
open Codegen (reg slotMem Context Framed Item Lowers Phrase Pool Resolves Target)
open Evaluation (CallEval EvalM Exit Locals)

variable {σ : Type} {w : Setting σ} {declares : String → Signature → Prop} {depth k : Nat}
  {m : Machine} {locals : Locals} {s : σ}

/-! ### Calls and returns -/

variable [HostAddresses]

theorem follows_call (hs : w.Sound declares) {callee : String} {args : List Expr} {ty : Ty}
    {target : Target} {signature : Signature} {is : List Item} (ht : Resolves w.ctx callee target)
    (hd : declares callee signature) (hn : args.length = signature.args.length)
    (hargs : args.length ≤ Codegen.maxArguments) (hk : k + args.length ≤ 16)
    (hr : ty ≠ .void → k < 16) (h : w.Follows depth k (.arguments args) is) :
    w.Follows depth k (.expr (.call callee args ty))
      (is ++ Codegen.callItems target k args.length (!ty.isVoid)) := by
  intro m locals s hat hin
  have hvalue : (Phrase.expr (.call callee args ty)).count = (!ty.isVoid).toNat := rfl
  rw [hvalue]
  refine Simulates.map_iff.2 ?_
  rw [Evaluation.expr]
  refine Simulates.bind (h m locals s (code_append.1 hat).1 hin) ?_
  rintro values locals' s' next ⟨hlen, hleft⟩
  have hlen : values.length = args.length := hlen
  have hserves := hs.serves callee target signature values ht hd (by omega) (by omega)
  have hat' : w.image.At next.pc (resolved w.address
      (Codegen.callItems target k values.length (!ty.isVoid)) ++ []) := by
    rw [List.append_nil, hlen]
    exact hleft.code hat
  have hreturns : (!ty.isVoid) = true → k < 16 := by
    intro hv
    refine hr fun hvoid => ?_
    rw [Ty.isVoid_iff.2 hvoid] at hv
    cases hv
  rw [functionCall_eq]
  refine Simulates.bind (simulates_invoke hserves (by omega) hreturns hat' hleft.frame
    (hs.even_stack hleft.frame) hleft.values) ?_
  rintro x _ s'' last ⟨rfl, hpc, hin', hlow, hx⟩
  rw [hlen] at hpc
  refine .pure ?_
  cases hv : ty.isVoid with
  | true =>
    rw [hv] at hpc
    exact ⟨rfl, hleft.trans ⟨hpc, hin', hlow, fun _ _ h => (by cases h)⟩⟩
  | false =>
    rw [hv] at hpc hx
    refine ⟨rfl, hleft.trans ⟨hpc, hin', hlow, ?_⟩⟩
    intro i y hy
    cases i with
    | zero =>
      cases hy
      exact hx rfl
    | succ i => cases hy

theorem follows_leave : w.Follows depth k (.expr .leave) (Codegen.returnItems none) := by
  intro m locals s hat hin
  have hat' : w.image.At m.pc (resolved w.address (Codegen.returnItems none) ++ []) := by
    rw [List.append_nil]
    exact hat
  have hend : ∃ j last, Reaches w.host w.residue w.image j m s last s ∧
      AtReturn w.image w.act .zero last :=
    reaches_return hin hat' (fun _ h => (by cases h)) fun _ => rfl
  obtain ⟨j, last, hreach, hreturn⟩ := hend
  refine Simulates.map_iff.2 ?_
  rw [Evaluation.expr]
  exact .after hreach (.returned hreturn)

theorem follows_leaveWith {e : Expr} {is : List Item} (hvalue : e.hasValue = true)
    (h : w.Follows depth k (.expr e) is) :
    w.Follows depth k (.expr (.leaveWith e)) (is ++ Codegen.returnItems (some k)) := by
  intro m locals s hat hin
  refine Simulates.map_iff.2 ?_
  rw [Evaluation.expr]
  refine Simulates.bind (h.value hvalue (code_append.1 hat).1 hin) ?_
  intro x locals' s' next hleft
  have hat' : w.image.At next.pc (resolved w.address (Codegen.returnItems (some k)) ++ []) := by
    rw [List.append_nil]
    exact hleft.code hat
  have hx : ∀ j, some k = some j → next.xmm (reg j) = x := by
    intro j hj
    cases hj
    exact hleft.values 0 x rfl
  have hend : ∃ j last, Reaches w.host w.residue w.image j next s' last s' ∧
      AtReturn w.image w.act x last :=
    reaches_return hleft.frame hat' hx fun h => (by cases h)
  obtain ⟨j, last, hreach, hreturn⟩ := hend
  exact .after hreach (.returned hreturn)

/-! ### Conditionals -/

omit [HostAddresses] in
theorem sizeOf_testItems (distance : Nat) : Codegen.sizeOf (Codegen.testItems k distance) =
    Codegen.sizeOf [.plain (.sse .xorPd (reg (k + 1)) (reg (k + 1))),
      .plain (.sse .uComISd (reg k) (reg (k + 1)))] + 6 := by
  have hsplit : Codegen.testItems k distance =
      [.plain (.sse .xorPd (reg (k + 1)) (reg (k + 1))),
        .plain (.sse .uComISd (reg k) (reg (k + 1)))] ++
        [.plain (.jumpIfZero (Int32.ofNat distance))] := rfl
  rw [hsplit, Codegen.sizeOf_append, Codegen.sizeOf_jumpIfZero]

theorem reaches_test {distance : Nat} {x : Double} (hk : k + 1 < 16) (hlt : distance < 0x80000000)
    (hat : w.Code m (Codegen.testItems k distance)) (hin : w.InFrame locals m)
    (hx : m.xmm (reg k) = x) :
    ∃ j last, Reaches w.host w.residue w.image j m s last s ∧
      last.pc = behind m.pc (Codegen.sizeOf (Codegen.testItems k distance) +
        if Evaluation.holds x then 0 else distance) ∧
      w.InFrame locals last ∧ ∀ i < k, last.xmm (reg i) = m.xmm (reg i) := by
  have hapart : reg (k + 1) ≠ reg k := fun h => by
    have := (reg_inj (by omega) (by omega)).1 h
    omega
  obtain ⟨a, ha, hw⟩ := @straight_clear w.image m _ (reg (k + 1))
  obtain ⟨b, hb, hstack, hframe, hxmm, hzero⟩ := @straight_test w.image a _ (reg k) (reg (k + 1))
  have hboth : Straight w.image m (resolved w.address
      [.plain (.sse .xorPd (reg (k + 1)) (reg (k + 1))),
        .plain (.sse .uComISd (reg k) (reg (k + 1)))]) b := ha.append hb
  rw [hw.self, hw.of_ne hapart, hx] at hzero
  have hsplit : Codegen.testItems k distance =
      [.plain (.sse .xorPd (reg (k + 1)) (reg (k + 1))),
        .plain (.sse .uComISd (reg k) (reg (k + 1)))] ++
        [.plain (.jumpIfZero (Int32.ofNat distance))] := rfl
  rw [hsplit] at hat
  obtain ⟨hfirst, hjump⟩ := code_append.1 hat
  rw [← codeSize_resolved w.address, ← hboth.pc_eq] at hjump
  obtain ⟨last, hlast, hpc, hstack', hframe', hxmm'⟩ :=
    @reaches_jumpIfZero w.image b σ w.host w.residue s _ distance [] hlt hjump
  refine ⟨_, last, (hboth.reaches hfirst).trans hlast, ?_, ?_, ?_⟩
  · rw [hpc, hboth.pc_eq, codeSize_resolved, behind_add, sizeOf_testItems, Nat.add_assoc, hzero]
    cases hz : x.equalOrUnordered .zero <;> simp [Evaluation.holds, hz]
  · exact hin.of_eq (hstack'.trans (hstack.trans hw.stack)) (hframe'.trans (hframe.trans hw.frame))
  · intro i hi
    rw [hxmm', hxmm, low_of_writes hk (Nat.le_succ k) hw i hi]

theorem does_conditional {condition : Expr} {cs ts fs : List Item} {onTrue onFalse : EvalM σ (List Double)}
    {count : Nat} (hk : k + 1 < 16) (hvalue : condition.hasValue = true)
    (hts : Codegen.sizeOf ts + 5 < 0x80000000) (hfs : Codegen.sizeOf fs < 0x80000000)
    (hc : w.Follows depth k (.expr condition) cs) (ht : w.Does k count ts onTrue)
    (hf : w.Does k count fs onFalse) :
    w.Does k count (Codegen.conditionalItems k cs ts fs) (do
      if Evaluation.holds (← w.value depth condition) then onTrue else onFalse) := by
  intro m locals s hat hin
  have hjump : Codegen.sizeOf (.plain (.jump (Int32.ofNat (Codegen.sizeOf fs))) :: fs) =
      5 + Codegen.sizeOf fs := by
    have happend : (.plain (.jump (Int32.ofNat (Codegen.sizeOf fs))) :: fs : List Item) =
        [.plain (.jump (Int32.ofNat (Codegen.sizeOf fs)))] ++ fs := rfl
    rw [happend, Codegen.sizeOf_append, Codegen.sizeOf_jump]
  have hsize : Codegen.sizeOf (Codegen.conditionalItems k cs ts fs) = Codegen.sizeOf cs +
      (Codegen.sizeOf (Codegen.testItems k (Codegen.sizeOf ts + 5)) +
        (Codegen.sizeOf ts + (5 + Codegen.sizeOf fs))) := by
    rw [Codegen.conditionalItems, Codegen.sizeOf_append, Codegen.sizeOf_append,
      Codegen.sizeOf_append, hjump]
  refine Simulates.bind (hc.value hvalue (code_append.1 hat).1 hin) ?_
  intro x locals' s' next hleft
  obtain ⟨htest, hrest⟩ := code_append.1 (hleft.code hat)
  rw [resolved_append] at hrest
  obtain ⟨htrue, hjumped⟩ := Image.at_append.1 hrest
  rw [codeSize_resolved, behind_add] at hjumped
  obtain ⟨j, a, hreach, hpc, hina, hlow⟩ := @reaches_test _ w k next locals' s' _ _ x hk hts htest
    hleft.frame (hleft.values 0 x rfl)
  refine .after hreach ?_
  cases hh : Evaluation.holds x with
  | true =>
    rw [hh, if_pos rfl, Nat.add_zero] at hpc
    have hcode : w.Code a ts := by rw [Code, hpc]; exact htrue
    refine (ht a locals' s' hcode hina).finish ?_
    rintro values locals'' s'' b ⟨hlen, hb⟩
    -- the first branch jumps over the second
    have hcodeb : w.image.At b.pc
        (.jump (Int32.ofNat (Codegen.sizeOf fs)) :: resolved w.address fs) := by
      rw [hb.pc, hpc, behind_add]
      exact hjumped
    obtain ⟨last, hlast, hpcl, hstack, hframe, hxmm⟩ :=
      @reaches_jump w.image b σ w.host w.residue s'' _ _ _ hfs hcodeb
    refine ⟨1, last, hlast, hlen, ?_, hb.frame.of_eq hstack hframe, ?_, ?_⟩
    · rw [hpcl, hb.pc, hpc, hleft.pc, hsize]
      simp only [behind_add, Nat.add_assoc]
    · intro i hi
      rw [hxmm, hb.low i hi, hlow i hi, hleft.low i hi]
    · intro i y hy
      rw [hxmm, hb.values i y hy]
  | false =>
    rw [hh, if_neg Bool.false_ne_true] at hpc
    have hcode : w.Code a fs := by
      rw [Code, hpc, ← Nat.add_assoc]
      have hfalse : w.image.At _ (resolved w.address
        ([.plain (.jump (Int32.ofNat (Codegen.sizeOf fs)))] ++ fs)) := hjumped
      rw [resolved_append] at hfalse
      have hlast := (Image.at_append.1 hfalse).2
      rwa [codeSize_resolved, Codegen.sizeOf_jump, behind_add] at hlast
    refine (hf a locals' s' hcode hina).mono ?_
    rintro values locals'' last ⟨hlen, hl⟩
    refine ⟨hlen, ?_, hl.frame, ?_, hl.values⟩
    · rw [hl.pc, hpc, hleft.pc, hsize]
      simp only [behind_add, Nat.add_assoc]
    · intro i hi
      rw [hl.low i hi, hlow i hi, hleft.low i hi]

theorem does_missing {hasValue : Bool} (hk : k < 16) :
    w.Does k hasValue.toNat (Codegen.missingItems hasValue k)
      (pure (if hasValue then [.zero] else [])) := by
  intro m locals s hat hin
  cases hasValue with
  | true =>
    obtain ⟨last, hlast, hw⟩ := @straight_clear w.image m _ (reg k)
    exact simulates_straight hat hlast ⟨rfl, .of_writes hlast hk hin hw⟩
  | false => exact simulates_straight hat .nil ⟨rfl, .none .nil hin fun _ _ => rfl⟩

theorem follows_ifThen {condition onTrue : Expr} {cs ts : List Item} (hk : k + 1 < 16)
    (hvalue : condition.hasValue = true) (hts : Codegen.sizeOf ts + 5 < 0x80000000)
    (hc : w.Follows depth k (.expr condition) cs) (ht : w.Follows depth k (.expr onTrue) ts) :
    w.Follows depth k (.expr (.ifThen condition onTrue))
      (Codegen.conditionalItems k cs ts (Codegen.missingItems onTrue.hasValue k)) := by
  have hdoes := does_conditional hk hvalue hts (Codegen.sizeOf_missingItems_lt _ k) hc ht (does_missing (w := w) (by omega))
  have heval : w.evaluate depth (.expr (.ifThen condition onTrue)) = (do
      if Evaluation.holds (← w.value depth condition) then w.evaluate depth (.expr onTrue)
      else pure (if onTrue.hasValue then [Double.zero] else [])) := by
    rw [evaluate, Evaluation.expr, map_bind]
    refine bind_congr fun x => ?_
    cases Evaluation.holds x with
    | true => rfl
    | false => cases onTrue.hasValue <;> simp
  rw [Follows, heval]
  exact hdoes

theorem follows_ifThenElse {condition onTrue onFalse : Expr} {cs ts fs : List Item}
    (hk : k + 1 < 16) (hvalue : condition.hasValue = true)
    (hsame : onFalse.hasValue = onTrue.hasValue) (hts : Codegen.sizeOf ts + 5 < 0x80000000)
    (hfs : Codegen.sizeOf fs < 0x80000000) (hc : w.Follows depth k (.expr condition) cs)
    (ht : w.Follows depth k (.expr onTrue) ts) (hf : w.Follows depth k (.expr onFalse) fs) :
    w.Follows depth k (.expr (.ifThenElse condition onTrue onFalse))
      (Codegen.conditionalItems k cs ts fs) := by
  have hcount : (Phrase.expr onFalse).count = (Phrase.expr onTrue).count :=
    congrArg Bool.toNat hsame
  rw [Follows, hcount] at hf
  have hdoes := does_conditional hk hvalue hts hfs hc ht hf
  have heval : w.evaluate depth (.expr (.ifThenElse condition onTrue onFalse)) = (do
      if Evaluation.holds (← w.value depth condition) then w.evaluate depth (.expr onTrue)
      else w.evaluate depth (.expr onFalse)) := by
    rw [evaluate, Evaluation.expr, map_bind]
    refine bind_congr fun x => ?_
    cases Evaluation.holds x <;> rfl
  rw [Follows, heval]
  exact hdoes

/-! ### Blocks and lists -/

theorem follows_block {id : BlockId} {ty : Ty} {b : Block} {is : List Item}
    (hb : w.ctx.function.blocks[id]? = some b)
    (h : w.Follows depth k (.statements (!ty.isVoid) b.statements) is) :
    w.Follows (depth + 1) k (.expr (.block id ty)) is := by
  have heval : w.evaluate (depth + 1) (.expr (.block id ty)) =
      w.evaluate depth (.statements (!ty.isVoid) b.statements) := by
    rw [evaluate, Evaluation.expr, Evaluation.blocksWithin, hb]
    rfl
  rw [Follows, heval]
  exact h

theorem does_nothing (w : Setting σ) (k : Nat) : w.Does k 0 [] (pure []) := by
  intro m locals s hat hin
  exact simulates_straight hat .nil ⟨rfl, .none .nil hin fun _ _ => rfl⟩

theorem follows_argument {e : Expr} {rest : List Expr} {is js : List Item}
    (hvalue : e.hasValue = true) (h : w.Follows depth k (.expr e) is)
    (hrest : w.Follows depth (k + 1) (.arguments rest) js) :
    w.Follows depth k (.arguments (e :: rest)) (is ++ js) := by
  intro m locals s hat hin
  rw [evaluate, Evaluation.arguments]
  refine Simulates.bind (h.value hvalue (code_append.1 hat).1 hin) ?_
  intro x locals' s' next hleft
  refine Simulates.bind (hrest next locals' s' (hleft.code hat) hleft.frame) ?_
  rintro values locals'' s'' last ⟨hlen, hl⟩
  refine .pure ⟨congrArg Nat.succ hlen, ?_, hl.frame, ?_, ?_⟩
  · rw [hl.pc, hleft.pc, behind_add, Codegen.sizeOf_append]
  · intro i hi
    rw [hl.low i (Nat.lt_succ_of_lt hi), hleft.low i hi]
  · intro i y hy
    cases i with
    | zero =>
      cases hy
      rw [Nat.add_zero, hl.low k (Nat.lt_succ_self k)]
      exact hleft.values 0 _ rfl
    | succ i =>
      have hnext := hl.values i y hy
      rwa [Nat.add_assoc, Nat.add_comm 1 i] at hnext

theorem follows_lastStatement {e : Expr} {hasValue : Bool} {is : List Item}
    (hvalue : e.hasValue = hasValue) (h : w.Follows depth k (.expr e) is) :
    w.Follows depth k (.statements hasValue [e]) is := by
  intro m locals s hat hin
  have hexpr := Simulates.map_iff.1 (h m locals s hat hin)
  have hcount : (Phrase.expr e).count = hasValue.toNat := congrArg Bool.toNat hvalue
  rw [hcount] at hexpr
  refine Simulates.map_iff.2 ?_
  rw [Evaluation.statements]
  refine Simulates.bind hexpr ?_
  rintro v locals' s' last ⟨hlen, hleft⟩
  refine .pure ?_
  cases hasValue with
  | true => exact ⟨hlen, hleft⟩
  | false =>
    cases v with
    | none => exact ⟨hlen, hleft⟩
    | some x => cases hlen

theorem follows_statement {e next : Expr} {rest : List Expr} {hasValue : Bool} {is js : List Item}
    (h : w.Follows depth k (.expr e) is)
    (hrest : w.Follows depth k (.statements hasValue (next :: rest)) js) :
    w.Follows depth k (.statements hasValue (e :: next :: rest)) (is ++ js) := by
  intro m locals s hat hin
  have hexpr := Simulates.map_iff.1 (h m locals s (code_append.1 hat).1 hin)
  refine Simulates.map_iff.2 ?_
  refine Simulates.bind hexpr ?_
  rintro v locals' s' middle ⟨-, hleft⟩
  refine (Simulates.map_iff.1 (hrest middle locals' s' (hleft.code hat) hleft.frame)).mono ?_
  rintro r locals'' last ⟨hlen, hl⟩
  exact ⟨hlen, hleft.trans hl⟩

/-! ### All phrases -/

def Fits (Γ : Surroundings) (here : BlockId) : Phrase → Prop
  | .expr e => e.WellFormed Γ here
  | .arguments args => ∀ arg ∈ args, arg.WellFormed Γ here
  | .statements _ list => ∀ e ∈ list, e.WellFormed Γ here

omit [HostAddresses] in
theorem fits_pair {Γ : Surroundings} {here : BlockId} {lhs rhs : Expr} (hl : lhs.WellFormed Γ here)
    (hr : rhs.WellFormed Γ here) : Fits Γ here (.arguments [lhs, rhs]) := by
  intro arg ha
  rcases List.mem_cons.1 ha with rfl | ha
  · exact hl
  · rw [List.mem_singleton.1 ha]
    exact hr

theorem follows_of_lowers (hs : w.Sound declares) {phrase : Phrase} {items : List Item}
    (h : Lowers w.ctx w.pool depth k phrase items) {here : BlockId}
    (hw : Fits (w.ctx.function.surroundings declares) here phrase) :
    w.Follows depth k phrase items := by
  -- Each rule has its own lemma; well-formedness gives it the types of the operands.
  induction h generalizing here with
  | literal hk hx => exact follows_literal hs hk hx
  | read hk hv =>
    cases hw with
    | read hd hn he =>
      have hty := hs.framed.double _ _ hd
      refine follows_read hs hk hv ?_
      rw [hty]
      decide
  | write hk hv hvalue h ih =>
    cases hw with
    | write hd hn he hm hty hexpr => exact follows_write hs hv hvalue (ih hexpr)
  | bind hk hv hvalue h ih =>
    cases hw with
    | bind hd hn he hty hvoid hexpr => exact follows_bind hs hv hvalue (ih hexpr)
  | arithmetic hk hop h ih =>
    cases hw with
    | binary hl hr hv hty =>
      exact follows_arithmetic (Expr.hasValue_iff.2 hv) hk hop (ih (fits_pair hl hr))
  | comparison hk hop hx h ih =>
    cases hw with
    | binary hl hr hv hty =>
      exact follows_comparison hs (Expr.hasValue_iff.2 hv) hk hop hx (ih (fits_pair hl hr))
  | power hk hop h ih =>
    cases hw with
    | binary hl hr hv hty =>
      exact follows_power hs (Expr.hasValue_iff.2 hv) hk hop (ih (fits_pair hl hr))
  | plus h ih =>
    cases hw with
    | unary hexpr hv => exact follows_plus (ih hexpr)
  | minus hk hvalue hx h ih =>
    cases hw with
    | unary hexpr hv => exact follows_minus hs hk hvalue hx (ih hexpr)
  | call ht hargs hk hr h ih =>
    cases hw with
    | call hd hty hexprs =>
      have hn := congrArg List.length hty
      rw [List.length_map, List.length_map] at hn
      exact follows_call hs ht hd hn.symm hargs hk hr (ih hexprs)
  | leave => exact follows_leave
  | leaveWith hk hvalue h ih =>
    cases hw with
    | leaveWith hexpr hr => exact follows_leaveWith hvalue (ih hexpr)
  | ifThen hk hvalue hts hc ht ihc iht =>
    cases hw with
    | ifThen hwc hwt hv => exact follows_ifThen hk hvalue hts (ihc hwc) (iht hwt)
  | ifThenElse hk hvalue hsame hts hfs hc ht hf ihc iht ihf =>
    cases hw with
    | ifThenElse hwc hwt hwf hv hty hcat =>
      exact follows_ifThenElse hk hvalue hsame hts hfs (ihc hwc) (iht hwt) (ihf hwf)
  | @block d k id ty b is hb h ih =>
    exact follows_block hb (ih fun e he => (hs.wellFormed.statements id b hb e he).2)
  | noArguments => exact does_nothing w _
  | argument hk hvalue h hrest ih ihrest =>
    exact follows_argument hvalue (ih (hw _ List.mem_cons_self))
      (ihrest fun arg ha => hw arg (List.mem_cons_of_mem _ ha))
  | noStatements =>
    rw [Follows, evaluate, Evaluation.statements, map_pure]
    exact does_nothing w _
  | lastStatement hvalue h ih => exact follows_lastStatement hvalue (ih (hw _ List.mem_cons_self))
  | statement h hrest ih ihrest =>
    exact follows_statement (ih (hw _ List.mem_cons_self))
      (ihrest fun e he => hw e (List.mem_cons_of_mem _ he))

end Setting
end Machine
end ScalarJit
