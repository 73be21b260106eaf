import ScalarJit.Proofs.Machine.Branches

/-! # Code of expressions

The items of a phrase, in memory, do what the evaluation of the phrase does. The induction is over
how the phrase is lowered, with the calls of functions taken for granted: they nest less deep. -/

namespace ScalarJit
namespace Machine

open X86 (Gpr Instr Xmm)
open Codegen (reg slotMem Context Framed Item Lowers Phrase Pool Resolves)
open Evaluation (CallEval EvalM Exit Locals)

/-- Where one activation of a function runs, and the evaluation that it is compared to. -/
structure Setting (σ : Type) where
  host : Host σ
  residue : σ → Residue
  image : Image
  address : SectionId → Nat → UInt64
  ctx : Context
  pool : Pool
  /-- How deep calls may still nest. -/
  fuel : Nat
  calls : CallEval σ
  act : Activation

namespace Setting

variable {σ : Type}

abbrev Simulates [HostAddresses] (w : Setting σ) (m : Machine) (locals : Locals) (s : σ) {α : Type}
    (e : EvalM σ α)
    (Q : α → Locals → Machine → Prop) : Prop :=
  Machine.Simulates w.host w.residue w.image w.act w.fuel m locals s e Q

abbrev InFrame (w : Setting σ) (locals : Locals) (m : Machine) : Prop :=
  Machine.InFrame w.act w.ctx.function locals m

abbrev Code (w : Setting σ) (m : Machine) (items : List Item) : Prop :=
  w.image.At m.pc (resolved w.address items)

def evaluate (w : Setting σ) (depth : Nat) : Phrase → EvalM σ (List Double)
  | .expr e => Option.toList <$> Evaluation.expr w.host w.calls
      (Evaluation.blocksWithin w.host w.calls w.ctx.function depth) e
  | .arguments args => Evaluation.arguments w.host w.calls
      (Evaluation.blocksWithin w.host w.calls w.ctx.function depth) args
  | .statements hasValue list => Option.toList <$> Evaluation.statements w.host w.calls
      (Evaluation.blocksWithin w.host w.calls w.ctx.function depth) hasValue list

abbrev value (w : Setting σ) (depth : Nat) (e : Expr) : EvalM σ Double :=
  Evaluation.required (Evaluation.expr w.host w.calls
    (Evaluation.blocksWithin w.host w.calls w.ctx.function depth) e)

/-- The machine behind code that left values in the registers from `k` on. -/
structure Left (w : Setting σ) (k : Nat) (m : Machine) (size : Nat) (values : List Double)
    (locals : Locals) (last : Machine) : Prop where
  pc : last.pc = behind m.pc size
  frame : w.InFrame locals last
  low : ∀ i < k, last.xmm (reg i) = m.xmm (reg i)
  values : ∀ i x, values[i]? = some x → last.xmm (reg (k + i)) = x

def Does [HostAddresses] (w : Setting σ) (k count : Nat) (items : List Item)
    (e : EvalM σ (List Double)) : Prop :=
  ∀ (m : Machine) (locals : Locals) (s : σ), w.Code m items → w.InFrame locals m →
    w.Simulates m locals s e fun values locals' last =>
      values.length = count ∧ w.Left k m (Codegen.sizeOf items) values locals' last

def Follows [HostAddresses] (w : Setting σ) (depth k : Nat) (phrase : Phrase)
    (items : List Item) : Prop :=
  w.Does k phrase.count items (w.evaluate depth phrase)

/-- What the code of an activation relies on. -/
structure Sound [HostAddresses] (w : Setting σ) (declares : String → Signature → Prop) : Prop where
  framed : Framed w.ctx.function
  apart : Apart w.ctx.function
  wellFormed : w.ctx.function.WellFormed declares
  even : w.act.below.size % 2 = 0
  pool : ∀ offset x, w.pool.Holds offset x →
    w.image.loadDouble (w.address w.ctx.poolSection offset) = .ok x
  serves : ∀ callee target signature args, Resolves w.ctx callee target →
    declares callee signature → args.length = signature.args.length →
    args.length ≤ Codegen.maxArguments →
    Serves w.host w.residue w.image w.address w.fuel target args (w.calls callee args)

section
variable {w : Setting σ} {declares : String → Signature → Prop} {depth k : Nat} {m : Machine}
  {locals : Locals} {s : σ}

theorem code_append {is js : List Item} : w.Code m (is ++ js) ↔
    w.Code m is ∧ w.image.At (behind m.pc (Codegen.sizeOf is)) (resolved w.address js) := by
  rw [Code, resolved_append, Image.at_append, codeSize_resolved]

theorem Left.code {is js : List Item} {values : List Double} {locals' : Locals} {last : Machine}
    (h : w.Left k m (Codegen.sizeOf is) values locals' last) (hat : w.Code m (is ++ js)) :
    w.Code last js := by
  rw [Code, h.pc]
  exact (code_append.1 hat).2

theorem Left.trans {is js : List Item} {values values' : List Double} {locals' locals'' : Locals}
    {next last : Machine} (h : w.Left k m (Codegen.sizeOf is) values locals' next)
    (h' : w.Left k next (Codegen.sizeOf js) values' locals'' last) :
    w.Left k m (Codegen.sizeOf (is ++ js)) values' locals'' last where
  pc := by rw [h'.pc, h.pc, behind_add, Codegen.sizeOf_append]
  frame := h'.frame
  low := fun i hi => (h'.low i hi).trans (h.low i hi)
  values := h'.values

variable [HostAddresses]

theorem Left.single {items : List Item} {x : Double} {last : Machine}
    (hcode : Straight w.image m (resolved w.address items) last) (hin : w.InFrame locals last)
    (hlow : ∀ i < k, last.xmm (reg i) = m.xmm (reg i)) (hx : last.xmm (reg k) = x) :
    w.Left k m (Codegen.sizeOf items) [x] locals last where
  pc := by rw [hcode.pc_eq, codeSize_resolved]
  frame := hin
  low := hlow
  values := by
    intro i y hy
    cases i with
    | zero =>
      cases hy
      exact hx
    | succ i => cases hy

omit [HostAddresses] in
theorem low_of_writes {j : Nat} {x : Double} {last : Machine} (hj : j < 16) (hkj : k ≤ j)
    (hw : Writes (reg j) x m last) : ∀ i < k, last.xmm (reg i) = m.xmm (reg i) := by
  intro i hi
  refine hw.of_ne fun h => ?_
  have := (reg_inj hj (by omega)).1 h
  omega

theorem Left.of_writes {items : List Item} {x : Double} {last : Machine}
    (hcode : Straight w.image m (resolved w.address items) last) (hk : k < 16)
    (hin : w.InFrame locals m) (hw : Writes (reg k) x m last) :
    w.Left k m (Codegen.sizeOf items) [x] locals last :=
  .single hcode (hin.of_eq hw.stack hw.frame) (low_of_writes hk (Nat.le_refl k) hw) hw.self

theorem Left.none {items : List Item} {last : Machine}
    (hcode : Straight w.image m (resolved w.address items) last) (hin : w.InFrame locals last)
    (hlow : ∀ i < k, last.xmm (reg i) = m.xmm (reg i)) :
    w.Left k m (Codegen.sizeOf items) [] locals last :=
  ⟨by rw [hcode.pc_eq, codeSize_resolved], hin, hlow, fun _ _ h => (by cases h)⟩

theorem simulates_straight {items : List Item} {α : Type} {a : α} {last : Machine}
    {Q : α → Locals → Machine → Prop} (hat : w.Code m items)
    (hcode : Straight w.image m (resolved w.address items) last) (h : Q a locals last) :
    w.Simulates m locals s (pure a) Q :=
  Simulates.after (hcode.reaches hat) (.pure h)

theorem Sound.even_stack (hs : w.Sound declares) (hin : w.InFrame locals m) :
    m.stack.size % 2 = 0 := by
  have hbelow := hs.even
  have hsize := hin.size
  have hsmall := hs.framed.small
  rw [Codegen.frameSize_eq] at hsize
  omega

theorem Follows.value {e : Expr} {items : List Item} (h : w.Follows depth k (.expr e) items)
    (hvalue : e.hasValue = true) (hat : w.Code m items) (hin : w.InFrame locals m) :
    w.Simulates m locals s (w.value depth e) fun x locals' last =>
      w.Left k m (Codegen.sizeOf items) [x] locals' last := by
  have hcount : (Phrase.expr e).count = 1 := by rw [Phrase.count, hvalue]; rfl
  have hexpr := Simulates.map_iff.1 (h m locals s hat hin)
  refine Simulates.bind hexpr ?_
  rintro v locals' s' last ⟨hlen, hleft⟩
  rw [hcount] at hlen
  cases v with
  | none => cases hlen
  | some x => exact .pure hleft

/-! ### Literals and variables -/

theorem follows_literal (hs : w.Sound declares) {offset : Nat} {x : Double} (hk : k < 16)
    (hx : w.pool.Holds offset x) :
    w.Follows depth k (.expr (.literal x)) (Codegen.constantItems w.ctx offset k) := by
  intro m locals s hat hin
  obtain ⟨last, hlast, hw⟩ := @straight_constant w.image m _ _ x (reg k) (hs.pool offset x hx)
  refine Simulates.map_iff.2 ?_
  rw [Evaluation.expr]
  exact simulates_straight hat hlast ⟨rfl, .of_writes hlast hk hin hw⟩

omit [HostAddresses] in
theorem ends_readVariable {var : VarRef} {t : Evaluation.State σ}
    {ok : Double → Evaluation.State σ → Prop} {err : Evaluation.Exit → Evaluation.State σ → Prop} :
    Ends (Evaluation.readVariable var) t ok err ↔
      (∀ x, t.locals var = some x → ok x t) ∧ (t.locals var = none → err .stuck t) := by
  simp only [Evaluation.readVariable, ends_bind, ends_get]
  cases hx : t.locals var <;> simp

theorem follows_read (hs : w.Sound declares) {name : String} {var : VarRef} {ty : Ty}
    {mutable : Bool} {v : Variable} (hk : k < 16)
    (hv : declaration? w.ctx.function.blocks var = some v) (hty : ty ≠ .void) :
    w.Follows depth k (.expr (.read name var ty mutable))
      [.plain (.sseLoad .movSd (reg k) (slotMem v.slot))] := by
  intro m locals s hat hin
  have hcell := hin.slots var v hv
  have hdisp := toInt_slotMem hs.framed hv w.act.below.size
  have hvalue : (Expr.read name var ty mutable).hasValue = true := Expr.hasValue_iff.2 hty
  have hcount : (Phrase.expr (.read name var ty mutable)).count = 1 := by
    rw [Phrase.count, hvalue]
    rfl
  rw [hcount]
  refine Simulates.map_iff.2 ?_
  rw [Evaluation.expr]
  refine Simulates.map_iff.2 ?_
  cases hx : locals var with
  | none =>
    rw [hx] at hcell
    refine ends_readVariable.2 ⟨fun x hsome => (by cases hx.symm.trans hsome), fun _ => ?_⟩
    exact ⟨0, m, .refl m s, .unsetCell, step_loadCell_unset hat hin.frame hdisp hcell⟩
  | some x =>
    rw [hx] at hcell
    refine ends_readVariable.2 ⟨fun y hsome => ?_, fun hnone => (by cases hx.symm.trans hnone)⟩
    cases hx.symm.trans hsome
    obtain ⟨last, hlast, hw⟩ := @straight_loadCell w.image m _ .rbp (slotMem v.slot).disp _ _ x (reg k)
      hin.frame hdisp hcell
    exact ⟨_, last, hlast.reaches hat, rfl, .of_writes hlast hk hin hw⟩

theorem simulates_store (hs : w.Sound declares) {var : VarRef} {v : Variable} {e : Expr}
    {is : List Item} (hv : declaration? w.ctx.function.blocks var = some v)
    (hvalue : e.hasValue = true) (h : w.Follows depth k (.expr e) is)
    (hat : w.Code m (is ++ [.plain (.store (slotMem v.slot) (reg k))])) (hin : w.InFrame locals m) :
    w.Simulates m locals s (do
        Evaluation.writeVariable var (← w.value depth e)
        return (none : Option Double)) fun r locals' last => r.toList.length = 0 ∧
      w.Left k m (Codegen.sizeOf (is ++ [.plain (.store (slotMem v.slot) (reg k))])) r.toList
        locals' last := by
  refine Simulates.bind (h.value hvalue (code_append.1 hat).1 hin) ?_
  intro x locals' s' next hleft
  have hx : next.xmm (reg k) = x := hleft.values 0 x rfl
  obtain ⟨last, hlast, hstack, hframe, hxmm⟩ := @straight_storeCell w.image next _ .rbp
    (slotMem v.slot).disp _ _ (reg k) hleft.frame.frame
    (toInt_slotMem hs.framed hv w.act.below.size) (hleft.frame.slot_lt hv)
  rw [hx] at hstack
  have hstore : w.Left k next (Codegen.sizeOf [.plain (.store (slotMem v.slot) (reg k))]) []
      (locals'.set var x) last :=
    .none hlast (hleft.frame.set hs.apart hv hstack hframe) fun i _ => hxmm _
  exact ⟨_, last, hlast.reaches (hleft.code hat), rfl, hleft.trans hstore⟩

theorem follows_write (hs : w.Sound declares) {name : String} {var : VarRef} {v : Variable}
    {e : Expr} {is : List Item} (hv : declaration? w.ctx.function.blocks var = some v)
    (hvalue : e.hasValue = true) (h : w.Follows depth k (.expr e) is) :
    w.Follows depth k (.expr (.write name var e))
      (is ++ [.plain (.store (slotMem v.slot) (reg k))]) := by
  intro m locals s hat hin
  refine Simulates.map_iff.2 ?_
  rw [Evaluation.expr]
  exact simulates_store hs hv hvalue h hat hin

theorem follows_bind (hs : w.Sound declares) {name : String} {var : VarRef} {v : Variable}
    {e : Expr} {is : List Item} (hv : declaration? w.ctx.function.blocks var = some v)
    (hvalue : e.hasValue = true) (h : w.Follows depth k (.expr e) is) :
    w.Follows depth k (.expr (.bind name var e))
      (is ++ [.plain (.store (slotMem v.slot) (reg k))]) := by
  intro m locals s hat hin
  refine Simulates.map_iff.2 ?_
  rw [Evaluation.expr]
  exact simulates_store hs hv hvalue h hat hin

/-! ### Operators -/

omit [HostAddresses] in
theorem expr_binary_eq (host : Host σ) (calls : CallEval σ) (blocks : Evaluation.BlockEval σ)
    (op : BinaryOp) (lhs rhs : Expr) :
    Evaluation.expr host calls blocks (.binary op lhs rhs) =
      Evaluation.arguments host calls blocks [lhs, rhs] >>= fun values =>
        match values with
        | [x, y] => some <$> Evaluation.operation host op x y
        | _ => throw .stuck := by
  simp [Evaluation.expr, Evaluation.arguments]

theorem follows_binary {op : BinaryOp} {lhs rhs : Expr} {is js : List Item}
    (hvalue : (Expr.binary op lhs rhs).hasValue = true)
    (h : w.Follows depth k (.arguments [lhs, rhs]) is)
    (hop : ∀ (next : Machine) (locals : Locals) (s : σ) (x y : Double), w.Code next js →
      w.InFrame locals next → next.xmm (reg k) = x → next.xmm (reg (k + 1)) = y →
      w.Simulates next locals s (Evaluation.operation w.host op x y) fun z locals' last =>
        w.Left k next (Codegen.sizeOf js) [z] locals' last) :
    w.Follows depth k (.expr (.binary op lhs rhs)) (is ++ js) := by
  intro m locals s hat hin
  have hcount : (Phrase.expr (.binary op lhs rhs)).count = 1 := by
    rw [Phrase.count, hvalue]
    rfl
  rw [hcount]
  refine Simulates.map_iff.2 ?_
  rw [expr_binary_eq]
  refine Simulates.bind (h m locals s (code_append.1 hat).1 hin) ?_
  rintro values locals' s' next ⟨hlen, hleft⟩
  match values, hlen, hleft with
  | [x, y], _, hleft =>
    refine Simulates.map_iff.2 ((hop next locals' s' x y (hleft.code hat) hleft.frame
      (hleft.values 0 x rfl) (hleft.values 1 y rfl)).mono ?_)
    intro z locals'' last hlast
    exact ⟨rfl, hleft.trans hlast⟩

omit [HostAddresses] in
theorem operation_arithmetic {op : BinaryOp} {sse : X86.SseOp}
    (hop : Codegen.Lowering.of op = .arithmetic sse) (host : Host σ) (x y : Double) :
    sse ≠ .uComISd ∧ Evaluation.operation host op x y = pure (sseValue sse x y) := by
  cases op <;> cases hop <;> exact ⟨by decide, rfl⟩

theorem follows_arithmetic {op : BinaryOp} {sse : X86.SseOp} {lhs rhs : Expr} {is : List Item}
    (hvalue : (Expr.binary op lhs rhs).hasValue = true) (hk : k + 1 < 16)
    (hop : Codegen.Lowering.of op = .arithmetic sse)
    (h : w.Follows depth k (.arguments [lhs, rhs]) is) :
    w.Follows depth k (.expr (.binary op lhs rhs))
      (is ++ [.plain (.sse sse (reg k) (reg (k + 1)))]) := by
  refine follows_binary hvalue h ?_
  intro next locals s x y hat hin hx hy
  obtain ⟨hne, heval⟩ := operation_arithmetic hop w.host x y
  obtain ⟨last, hlast, hw⟩ := @straight_sse w.image next _ sse hne (reg k) (reg (k + 1))
  rw [hx, hy] at hw
  rw [heval]
  exact simulates_straight hat hlast (.of_writes hlast (by omega) hin hw)

theorem follows_power {op : BinaryOp} {lhs rhs : Expr} {is : List Item} (hs : w.Sound declares)
    (hvalue : (Expr.binary op lhs rhs).hasValue = true) (hk : k + 1 < 16)
    (hop : Codegen.Lowering.of op = .power) (h : w.Follows depth k (.arguments [lhs, rhs]) is) :
    w.Follows depth k (.expr (.binary op lhs rhs))
      (is ++ Codegen.callItems (.host .power) k 2 true) := by
  refine follows_binary hvalue h ?_
  intro next locals s x y hat hin hx hy
  have heval : Evaluation.operation w.host op x y =
      invoke (hostInvocation w.host .power [x, y]) := by
    cases op <;> cases hop
    rfl
  have hserves : Serves w.host w.residue w.image w.address w.fuel (.host .power) [x, y]
      (hostInvocation w.host .power [x, y]) := serves_host rfl (Nat.le_of_ble_eq_true rfl)
  have hargs : ∀ i z, [x, y][i]? = some z → next.xmm (reg (k + i)) = z := by
    intro i z hz
    match i, hz with
    | 0, rfl => exact hx
    | 1, rfl => exact hy
  have htwo : k + [x, y].length ≤ 16 := hk
  have hat' : w.image.At next.pc
      (resolved w.address (Codegen.callItems (.host .power) k [x, y].length true) ++ []) := by
    rw [List.append_nil]
    exact hat
  rw [heval]
  refine (simulates_invoke hserves htwo (fun _ => by omega) hat' hin (hs.even_stack hin)
    hargs).mono ?_
  rintro z _ last ⟨rfl, hpc, hin', hlow, hz⟩
  refine ⟨hpc, hin', hlow, ?_⟩
  intro i z' hz'
  match i, hz' with
  | 0, rfl => exact hz rfl

omit [HostAddresses] in
theorem and_maskOf_one (b : Bool) : sseValue .andPd (maskOf b) .one = .ofBool b := by
  cases b <;> decide

theorem straight_comparison (hs : w.Sound declares) {predicate : X86.Predicate} {swapped : Bool}
    {offset : Nat} {x y : Double} (hk : k + 1 < 16) (hone : w.pool.Holds offset .one)
    (hx : m.xmm (reg k) = x) (hy : m.xmm (reg (k + 1)) = y) :
    ∃ last, Straight w.image m
        (resolved w.address (Codegen.comparisonItems w.ctx predicate swapped offset k)) last ∧
      last.stack = m.stack ∧ last.gpr .rbp = m.gpr .rbp ∧
      (∀ i < k, last.xmm (reg i) = m.xmm (reg i)) ∧
      last.xmm (reg k) = .ofBool (if swapped then predicate.holds y x else predicate.holds x y) := by
  have hapart : reg (k + 1) ≠ reg k := fun h => by
    have := (reg_inj (by omega) (by omega)).1 h
    omega
  generalize hb : (if swapped then predicate.holds y x else predicate.holds x y) = b
  -- the mask in the register `k`, however the operands stand
  obtain ⟨a, ha, hstack, hframe, hlow, hmask⟩ : ∃ a, Straight w.image m (resolved w.address
      (if swapped then [.plain (.compare (reg (k + 1)) (reg k) predicate),
        .plain (.sse .movApd (reg k) (reg (k + 1)))]
      else [.plain (.compare (reg k) (reg (k + 1)) predicate)])) a ∧
      a.stack = m.stack ∧ a.gpr .rbp = m.gpr .rbp ∧
      (∀ i < k, a.xmm (reg i) = m.xmm (reg i)) ∧ a.xmm (reg k) = maskOf b := by
    cases swapped with
    | true =>
      obtain ⟨a, ha, hw⟩ := @straight_compare w.image m _ (reg (k + 1)) (reg k) predicate
      obtain ⟨c, hc, hw'⟩ := @straight_sse w.image a _ .movApd (by decide) (reg k) (reg (k + 1))
      refine ⟨c, ha.append hc, hw'.stack.trans hw.stack, hw'.frame.trans hw.frame, ?_, ?_⟩
      · intro i hi
        rw [low_of_writes (by omega) (Nat.le_refl k) hw' i hi,
          low_of_writes hk (Nat.le_succ k) hw i hi]
      · rw [hw'.self, sseValue, hw.self, hx, hy, ← hb]
        rfl
    | false =>
      obtain ⟨a, ha, hw⟩ := @straight_compare w.image m _ (reg k) (reg (k + 1)) predicate
      refine ⟨a, ha, hw.stack, hw.frame, low_of_writes (by omega) (Nat.le_refl k) hw, ?_⟩
      rw [hw.self, hx, hy, ← hb]
      rfl
  obtain ⟨c, hc, hw⟩ := @straight_constant w.image a _ _ .one (reg (k + 1)) (hs.pool offset _ hone)
  obtain ⟨last, hlast, hw'⟩ := @straight_sse w.image c _ .andPd (by decide) (reg k) (reg (k + 1))
  refine ⟨last, ?_, ?_, ?_, ?_, ?_⟩
  · rw [Codegen.comparisonItems, resolved_append, resolved_append]
    exact ha.append (hc.append hlast)
  · rw [hw'.stack, hw.stack, hstack]
  · rw [hw'.frame, hw.frame, hframe]
  · intro i hi
    rw [low_of_writes (by omega) (Nat.le_refl k) hw' i hi,
      low_of_writes hk (Nat.le_succ k) hw i hi, hlow i hi]
  · rw [hw'.self, hw.self, hw.of_ne hapart, hmask, and_maskOf_one]

theorem follows_comparison {op : BinaryOp} {predicate : X86.Predicate} {swapped : Bool}
    {offset : Nat} {lhs rhs : Expr} {is : List Item} (hs : w.Sound declares)
    (hvalue : (Expr.binary op lhs rhs).hasValue = true) (hk : k + 1 < 16)
    (hop : Codegen.Lowering.of op = .comparison predicate swapped)
    (hone : w.pool.Holds offset .one) (h : w.Follows depth k (.arguments [lhs, rhs]) is) :
    w.Follows depth k (.expr (.binary op lhs rhs))
      (is ++ Codegen.comparisonItems w.ctx predicate swapped offset k) := by
  refine follows_binary hvalue h ?_
  intro next locals s x y hat hin hx hy
  have heval : Evaluation.operation w.host op x y = pure (.ofBool
      (if swapped then predicate.holds y x else predicate.holds x y)) := by
    cases op <;> cases hop <;> rfl
  obtain ⟨last, hlast, hstack, hframe, hlow, hz⟩ :=
    @straight_comparison _ w _ k next _ hs predicate swapped offset x y hk hone hx hy
  rw [heval]
  exact simulates_straight hat hlast (.single hlast (hin.of_eq hstack hframe) hlow hz)

/-! ### Signs -/

theorem follows_plus {e : Expr} {is : List Item} (h : w.Follows depth k (.expr e) is) :
    w.Follows depth k (.expr (.unary .plus e)) is := by
  intro m locals s hat hin
  have hsame : w.evaluate depth (.expr (.unary .plus e)) = w.evaluate depth (.expr e) := by
    rw [evaluate, Evaluation.expr]
    rfl
  rw [hsame]
  exact h m locals s hat hin

theorem follows_minus {e : Expr} {offset : Nat} {is : List Item} (hs : w.Sound declares)
    (hk : k + 1 < 16) (hvalue : e.hasValue = true) (hx : w.pool.Holds offset .negativeZero)
    (h : w.Follows depth k (.expr e) is) :
    w.Follows depth k (.expr (.unary .minus e))
      (is ++ (Codegen.constantItems w.ctx offset (k + 1) ++
        [.plain (.sse .xorPd (reg k) (reg (k + 1)))])) := by
  intro m locals s hat hin
  have hcount : (Phrase.expr (.unary .minus e)).count = 1 := by
    show e.hasValue.toNat = 1
    rw [hvalue]
    rfl
  rw [hcount]
  refine Simulates.map_iff.2 ?_
  rw [Evaluation.expr]
  refine Simulates.bind (h.value hvalue (code_append.1 hat).1 hin) ?_
  intro x locals' s' next hleft
  have hapart : reg (k + 1) ≠ reg k := fun h => by
    have := (reg_inj (by omega) (by omega)).1 h
    omega
  obtain ⟨a, ha, hw⟩ := @straight_constant w.image next _ _ _ (reg (k + 1)) (hs.pool offset _ hx)
  obtain ⟨last, hlast, hw'⟩ := @straight_sse w.image a _ .xorPd (by decide) (reg k) (reg (k + 1))
  have hcode : Straight w.image next (resolved w.address (Codegen.constantItems w.ctx offset (k + 1) ++
      [.plain (.sse .xorPd (reg k) (reg (k + 1)))])) last := by
    rw [resolved_append]
    exact ha.append hlast
  refine simulates_straight (hleft.code hat) hcode ⟨rfl, hleft.trans (.single hcode
    (hleft.frame.of_eq (hw'.stack.trans hw.stack) (hw'.frame.trans hw.frame)) ?_ ?_)⟩
  · intro i hi
    rw [low_of_writes (by omega) (Nat.le_refl k) hw' i hi, low_of_writes hk (Nat.le_succ k) hw i hi]
  · have hx : next.xmm (reg k) = x := hleft.values 0 x rfl
    rw [hw'.self, hw.self, hw.of_ne hapart, hx]
    rfl

end
end Setting
end Machine
end ScalarJit
