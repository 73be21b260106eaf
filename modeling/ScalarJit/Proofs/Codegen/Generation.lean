import ScalarJit.Proofs.Codegen.Branch
import ScalarJit.Proofs.Codegen.Call
import ScalarJit.Proofs.Codegen.Need
import ScalarJit.Proofs.Tree.Parts

/-! # Generating expressions

A well-formed expression becomes the items that `Lowers` gives it, and its value, if it has one, goes
to the first register that is free. Two things that the rules for types allow cannot be lowered: a
value of type void that is returned or passed, and a call with more than eight arguments. -/

namespace ScalarJit

/-- An expression that has no such part; what a block stands for counts as a part of it. -/
inductive Expr.Lowerable (blocks : List Block) : Expr → Prop
  | literal (value : Double) : Lowerable blocks (.literal value)
  | binary {op : BinaryOp} {lhs rhs : Expr} (hl : Lowerable blocks lhs) (hr : Lowerable blocks rhs) :
      Lowerable blocks (.binary op lhs rhs)
  | unary {op : UnaryOp} {operand : Expr} (h : Lowerable blocks operand) :
      Lowerable blocks (.unary op operand)
  | read (name : String) (var : VarRef) (ty : Ty) (mutable : Bool) :
      Lowerable blocks (.read name var ty mutable)
  | write {name : String} {var : VarRef} {value : Expr} (h : Lowerable blocks value) :
      Lowerable blocks (.write name var value)
  | bind {name : String} {var : VarRef} {value : Expr} (h : Lowerable blocks value) :
      Lowerable blocks (.bind name var value)
  | call {callee : String} {args : List Expr} {ty : Ty} (hn : args.length ≤ Codegen.maxArguments)
      (hv : ∀ arg ∈ args, arg.ty ≠ .void) (h : ∀ arg ∈ args, Lowerable blocks arg) :
      Lowerable blocks (.call callee args ty)
  | leave : Lowerable blocks .leave
  | leaveWith {value : Expr} (hv : value.ty ≠ .void) (h : Lowerable blocks value) :
      Lowerable blocks (.leaveWith value)
  | ifThen {condition onTrue : Expr} (hc : Lowerable blocks condition) (ht : Lowerable blocks onTrue) :
      Lowerable blocks (.ifThen condition onTrue)
  | ifThenElse {condition onTrue onFalse : Expr} (hc : Lowerable blocks condition)
      (ht : Lowerable blocks onTrue) (hf : Lowerable blocks onFalse) :
      Lowerable blocks (.ifThenElse condition onTrue onFalse)
  | block {id : BlockId} {ty : Ty}
      (h : ∀ b, blocks[id]? = some b → ∀ e ∈ b.statements, Lowerable blocks e) :
      Lowerable blocks (.block id ty)

theorem Expr.hasValue_iff {e : Expr} : e.hasValue = true ↔ e.ty ≠ .void := by
  rw [Expr.hasValue, Bool.not_eq_true', ← Bool.not_eq_true, Ty.isVoid_iff]

namespace Codegen

open X86 (Xmm)

def Resolvable (ctx : Context) (declares : String → Signature → Prop) : Prop :=
  ∀ callee signature, declares callee signature → ∃ t, Resolves ctx callee t

def demand (ctx : Context) (declares : String → Signature → Prop) (d k : Nat) (e : Expr) : Demand where
  lowerable := e.Lowerable ctx.function.blocks
  framed := Framed ctx.function
  resolved := Resolvable ctx declares
  registers := k + need (blockNeed ctx.function d) e

theorem demand_within {ctx : Context} {declares : String → Signature → Prop} {d k j : Nat}
    {part whole : Expr}
    (hL : whole.Lowerable ctx.function.blocks → part.Lowerable ctx.function.blocks)
    (hn : k + need (blockNeed ctx.function d) part ≤ j + need (blockNeed ctx.function d) whole) :
    (demand ctx declares d k part).Within (demand ctx declares d j whole) := ⟨hL, id, id, hn⟩

variable [HostAddresses]

/-- Code that is short enough for its branches has these items, whatever the pool is extended to. -/
def Becomes (ctx : Context) (d k : Nat) (phrase : Phrase) (is : List Item)
    (t : State) : Prop :=
  t.Short → ∀ pool, t.pool.Extends pool → Lowers ctx pool d k phrase is

theorem Becomes.grows {ctx : Context} {d k : Nat} {phrase : Phrase} {is : List Item} {t u : State}
    (h : Becomes ctx d k phrase is t) (htu : t.Grows u) : Becomes ctx d k phrase is u :=
  fun hu pool hpool => h (htu.short hu) pool (htu.pool.trans hpool)

def Leaves (ctx : Context) (d k : Nat) (e : Expr) (v : Option Xmm) (t : State)
    (is : List Item) :
    Prop :=
  v = (if e.hasValue then some (reg k) else none) ∧ t.used = k + e.hasValue.toNat ∧
    Becomes ctx d k (.expr e) is t

/-- The generator of an expression does what it has to, from any state. -/
def Sound (ctx : Context) (declares : String → Signature → Prop) (d : Nat)
    (e : Expr)
    (m : GenM (Option Xmm)) : Prop :=
  ∀ (s : State) (k : Nat), s.used = k →
    Generates ctx.home (demand ctx declares d k e) m s (Leaves ctx d k e)

variable {ctx : Context} {declares : String → Signature → Prop} {d k : Nat} {s : State} {D : Demand}

theorem Sound.required {e : Expr} {m : GenM (Option Xmm)} (h : Sound ctx declares d e m)
    (hs : s.used = k) (hD : (demand ctx declares d k e).Within D) (hv : D.lowerable → e.hasValue = true) :
    Generates ctx.home D (required m) s fun r t is => r = reg k ∧ e.hasValue = true ∧
      t.used = k + 1 ∧ Becomes ctx d k (.expr e) is t := by
  refine (generates_required ((h s k hs).weaken hD) hv).mono ?_
  rintro r t is - ⟨rfl, hvalue, ht, hlower⟩
  rw [hvalue] at ht
  exact ⟨rfl, hvalue, ht, hlower⟩

/-! ### Arguments -/

theorem generates_arguments {blocks : BlockGen} (args : List Expr)
    (h : ∀ arg ∈ args, Sound ctx declares d arg (expr ctx blocks arg))
    (hD : ∀ index arg, args[index]? = some arg → (demand ctx declares d (k + index) arg).Within D)
    (hv : D.lowerable → ∀ arg ∈ args, arg.hasValue = true) (hs : s.used = k) :
    Generates ctx.home D (arguments ctx blocks args) s fun rs t is =>
      rs = regs k args.length ∧ t.used = k + args.length ∧ Becomes ctx d k (.arguments args) is t := by
  induction args generalizing s k with
  | nil =>
    rw [arguments]
    exact .pure ⟨rfl, hs, fun _ _ _ => .noArguments⟩
  | cons e rest ih =>
    rw [arguments]
    have hmem : e ∈ e :: rest := List.mem_cons_self
    refine .bind ((h e hmem).required hs (hD 0 e rfl) fun hl => hv hl e hmem) ?_
    rintro _ t is hst ⟨rfl, hvalue, ht, hlower⟩
    have hle := t.used_le
    have hlt : k < 16 := by omega
    refine .bind (ih (fun arg ha => h arg (List.mem_cons_of_mem e ha)) (fun index arg hi => ?_)
      (fun hl arg ha => hv hl arg (List.mem_cons_of_mem e ha)) ht) ?_
    · rw [Nat.add_assoc, Nat.add_comm 1]
      exact hD (index + 1) arg hi
    rintro _ u js htu ⟨rfl, hu, hrest⟩
    refine .pure ⟨rfl, by rw [hu, List.length_cons]; omega, fun hshort pool hpool => ?_⟩
    rw [List.append_nil]
    exact .argument hlt hvalue (hlower.grows htu.grows hshort pool hpool) (hrest hshort pool hpool)

theorem generates_operands {lhs rhs : Expr} {l r : GenM (Option Xmm)}
    (hl : Sound ctx declares d lhs l) (hr : Sound ctx declares d rhs r) (hvl : lhs.hasValue = true)
    (hvr : rhs.hasValue = true) (hDl : (demand ctx declares d k lhs).Within D)
    (hDr : (demand ctx declares d (k + 1) rhs).Within D) (hs : s.used = k) :
    Generates ctx.home D (do
      let l ← required l
      let r ← required r
      return (l, r)) s fun p t is => p = (reg k, reg (k + 1)) ∧ t.used = k + 2 ∧ k + 1 < 16 ∧
        Becomes ctx d k (.arguments [lhs, rhs]) is t := by
  refine .bind (hl.required hs hDl fun _ => hvl) ?_
  rintro _ t is hst ⟨rfl, -, ht, hlower⟩
  refine .bind (hr.required ht hDr fun _ => hvr) ?_
  rintro _ u js htu ⟨rfl, -, hu, hlower'⟩
  have hle := u.used_le
  refine .pure ⟨rfl, hu, by omega, fun hshort pool hpool => ?_⟩
  have hrest : Lowers ctx pool d (k + 1) (.arguments [rhs]) (js ++ []) :=
    .argument (by omega) hvr (hlower' hshort pool hpool) .noArguments
  exact .argument (by omega) hvl (hlower.grows htu.grows hshort pool hpool) hrest

/-! ### Operations -/

omit [HostAddresses] in
theorem generates_comparison {predicate : X86.Predicate} {swapped : Bool} (hs : s.used = k + 2) :
    Generates ctx.home D (comparison ctx predicate swapped (reg k) (reg (k + 1))) s fun _ t is =>
      t.used = k + 1 ∧ ∃ offset, t.pool.Holds offset .one ∧
        is = comparisonItems ctx predicate swapped offset k := by
  have rest : ∀ s : State, s.used = k + 2 → Generates ctx.home D (do
      release (reg (k + 1))
      let one ← constant ctx .one
      emit (.sse .andPd (reg k) one)
      release one) s fun _ t is => t.used = k + 1 ∧ ∃ offset, t.pool.Holds offset .one ∧
        is = constantItems ctx offset (k + 1) ++ [.plain (.sse .andPd (reg k) (reg (k + 1)))] := by
    intro s hs
    refine .bind (generates_release hs) ?_
    rintro _ t _ - ⟨rfl, ht⟩
    -- the register that was given up is there for the literal
    have hle := s.used_le
    refine .bind (generates_constant .one ht (by omega)) ?_
    rintro _ u _ - ⟨rfl, hu, -, offset, rfl, hone⟩
    refine .bind (generates_emit _) ?_
    rintro _ v _ huv ⟨rfl, hv⟩
    refine (generates_release (hv.trans hu)).mono ?_
    rintro _ w _ hvw ⟨rfl, hw⟩
    exact ⟨hw, offset, hone.extends (huv.pool.trans hvw.pool), by simp⟩
  unfold comparison
  cases swapped with
  | true =>
    refine .bind (generates_emit _) ?_
    rintro _ t _ - ⟨rfl, ht⟩
    refine .bind (generates_emit _) ?_
    rintro _ u _ - ⟨rfl, hu⟩
    refine (rest u (hu.trans (ht.trans hs))).mono ?_
    rintro _ v _ - ⟨hv, offset, hone, rfl⟩
    exact ⟨hv, offset, hone, rfl⟩
  | false =>
    refine .bind (generates_emit _) ?_
    rintro _ t _ - ⟨rfl, ht⟩
    refine (rest t (ht.trans hs)).mono ?_
    rintro _ v _ - ⟨hv, offset, hone, rfl⟩
    exact ⟨hv, offset, hone, rfl⟩

theorem Sound.operation {op : BinaryOp} {lhs rhs : Expr} {l r : GenM (Option Xmm)}
    (hl : Sound ctx declares d lhs l) (hr : Sound ctx declares d rhs r) (hvl : lhs.hasValue = true)
    (hvr : rhs.hasValue = true) :
    Sound ctx declares d (.binary op lhs rhs) (operation ctx op l r) := by
  intro s k hs
  have hvalue : (Expr.binary op lhs rhs).hasValue = true := hvl
  have hneed : need (blockNeed ctx.function d) (.binary op lhs rhs) =
      max (need (blockNeed ctx.function d) lhs) (1 + need (blockNeed ctx.function d) rhs) := by
    rw [need]
  have hDl : (demand ctx declares d k lhs).Within (demand ctx declares d k (.binary op lhs rhs)) :=
    demand_within (fun h => by cases h; assumption) (by omega)
  have hDr : (demand ctx declares d (k + 1) rhs).Within
      (demand ctx declares d k (.binary op lhs rhs)) :=
    demand_within (fun h => by cases h; assumption) (by omega)
  have hoperands := generates_operands hl hr hvl hvr hDl hDr hs
  unfold Codegen.operation
  cases hop : Lowering.of op with
  | arithmetic sse =>
    refine .bind hoperands ?_
    rintro _ t is - ⟨rfl, ht, hlt, hlower⟩
    refine .bind (generates_emit _) ?_
    rintro _ u _ htu ⟨rfl, hu⟩
    refine .bind (generates_release (k := k + 1) (hu.trans ht)) ?_
    rintro _ v _ huv ⟨rfl, hv⟩
    refine .pure ⟨by rw [hvalue]; rfl, by rw [hvalue, hv]; rfl, fun hshort pool hpool => ?_⟩
    simp only [List.append_nil]
    exact .arithmetic hlt hop (hlower.grows (htu.grows.trans huv.grows) hshort pool hpool)
  | comparison predicate swapped =>
    refine .bind hoperands ?_
    rintro _ t is - ⟨rfl, ht, hlt, hlower⟩
    refine .bind (generates_comparison ht) ?_
    rintro _ u _ htu ⟨hu, offset, hone, rfl⟩
    refine .pure ⟨by rw [hvalue]; rfl, by rw [hvalue, hu]; rfl, fun hshort pool hpool => ?_⟩
    simp only [List.append_nil]
    exact .comparison hlt hop (hone.extends hpool) (hlower.grows htu.grows hshort pool hpool)
  | power =>
    have hargs : Generates ctx.home (demand ctx declares d k (.binary op lhs rhs)) (do
        let operands ← (do
          let l ← Codegen.required l
          let r ← Codegen.required r
          return (l, r))
        return [operands.1, operands.2]) s fun rs t is => rs = regs k 2 ∧ t.used = k + 2 ∧
          (k + 1 < 16 ∧ Becomes ctx d k (.arguments [lhs, rhs]) is t) := by
      refine .bind hoperands ?_
      rintro _ t is - ⟨rfl, ht, hlt, hlower⟩
      refine .pure ⟨rfl, ht, hlt, ?_⟩
      rw [List.append_nil]
      exact hlower
    refine (generates_call (.host .power) true hs hargs (fun _ => by decide) fun _ hk => ?_).mono ?_
    · show 16 < k + need _ _
      omega
    rintro _ w _ - ⟨rfl, hw, -, -, -, u, as, ⟨hlt, hlower⟩, huw, rfl⟩
    refine ⟨by rw [hvalue], by rw [hvalue, hw], fun hshort pool hpool => ?_⟩
    exact .power hlt hop (hlower.grows huw hshort pool hpool)

theorem Sound.negation {e : Expr} {m : GenM (Option Xmm)} (h : Sound ctx declares d e m)
    (hv : e.hasValue = true) : Sound ctx declares d (.unary .minus e) (negation ctx m) := by
  intro s k hs
  have hvalue : (Expr.unary .minus e).hasValue = true := hv
  have hneed : need (blockNeed ctx.function d) (.unary .minus e) =
      max (need (blockNeed ctx.function d) e) 2 := by rw [need]
  unfold Codegen.negation
  refine .bind (h.required hs (demand_within (fun h => by cases h; assumption) (by omega))
    fun _ => hv) ?_
  rintro _ t is - ⟨rfl, -, ht, hlower⟩
  refine .bind (generates_constant .negativeZero ht fun hk => ?_) ?_
  · show 16 < k + need _ _
    omega
  rintro _ u _ htu ⟨rfl, hu, hlt, offset, rfl, hsign⟩
  refine .bind (generates_emit _) ?_
  rintro _ v _ huv ⟨rfl, hv'⟩
  refine .bind (generates_release (hv'.trans hu)) ?_
  rintro _ w _ hvw ⟨rfl, hw⟩
  refine .pure ⟨by rw [hvalue]; rfl, by rw [hvalue, hw]; rfl, fun hshort pool hpool => ?_⟩
  have huw := huv.grows.trans hvw.grows
  simp only [List.append_nil]
  exact .minus hlt hv (hsign.extends (huw.pool.trans hpool))
    (hlower.grows (htu.grows.trans huw) hshort pool hpool)

/-! ### Variables and returns -/

theorem Sound.storeVariable {e : Expr} {m : GenM (Option Xmm)} {var : VarRef} {v : Variable}
    (h : Sound ctx declares d e m) (hd : declaration? ctx.function.blocks var = some v)
    (hv : e.hasValue = true) (hs : s.used = k) (hD : (demand ctx declares d k e).Within D)
    (hf : D.framed → Framed ctx.function) :
    Generates ctx.home D (storeVariable ctx var m) s fun _ t is => t.used = k ∧ k < 16 ∧ ∃ js,
      is = js ++ [.plain (.store (slotMem v.slot) (reg k))] ∧ Becomes ctx d k (.expr e) js t := by
  unfold Codegen.storeVariable
  refine .bind (h.required hs hD fun _ => hv) ?_
  rintro _ t is - ⟨rfl, -, ht, hlower⟩
  have hle := t.used_le
  refine .bind (generates_variableAddress hd hf) ?_
  rintro _ t _ - ⟨rfl, rfl, rfl⟩
  refine .bind (generates_emit _) ?_
  rintro _ u _ htu ⟨rfl, hu⟩
  refine (generates_release (hu.trans ht)).mono ?_
  rintro _ w _ huw ⟨rfl, hw⟩
  exact ⟨hw, by omega, is, by simp, hlower.grows (htu.grows.trans huw.grows)⟩

theorem Sound.leave : Sound ctx declares d .leave (do
    returnValue none
    epilogue
    return none) := by
  intro s k hs
  refine .bind generates_returnNothing ?_
  rintro _ t _ - ⟨rfl, ht⟩
  refine .bind generates_epilogue ?_
  rintro _ u _ - ⟨rfl, hu⟩
  exact .pure ⟨rfl, hu.trans (ht.trans hs), fun _ _ _ => .leave⟩

theorem Sound.leaveWith {e : Expr} {m : GenM (Option Xmm)} (h : Sound ctx declares d e m) :
    Sound ctx declares d (.leaveWith e) (do
      let r ← Codegen.required m
      returnValue (some r)
      epilogue
      return none) := by
  intro s k hs
  have hL : (Expr.leaveWith e).Lowerable ctx.function.blocks →
      e.ty ≠ .void ∧ e.Lowerable ctx.function.blocks := by
    intro h
    cases h with
    | leaveWith hv h => exact ⟨hv, h⟩
  have hD : (demand ctx declares d k e).Within (demand ctx declares d k (.leaveWith e)) :=
    demand_within (fun h => (hL h).2) (Nat.le_of_eq (by rw [need]))
  refine .bind (h.required hs hD fun h => Expr.hasValue_iff.2 (hL h).1) ?_
  rintro _ t is - ⟨rfl, hvalue, ht, hlower⟩
  have hle := t.used_le
  refine .bind (generates_returnValue ht) ?_
  rintro _ u _ htu ⟨rfl, hu⟩
  refine .bind generates_epilogue ?_
  rintro _ v _ huv ⟨rfl, hv⟩
  refine .pure ⟨rfl, hv.trans hu, fun hshort pool hpool => ?_⟩
  rw [List.append_nil]
  exact .leaveWith (by omega) hvalue (hlower.grows (htu.grows.trans huv.grows) hshort pool hpool)

omit [HostAddresses] in
theorem generates_target {callee : String} {signature : Signature}
    (hdeclares : declares callee signature) (hD : D.resolved → Resolvable ctx declares) :
    Generates ctx.home D (target ctx callee) s fun t u is =>
      u = s ∧ is = [] ∧ Resolves ctx callee t := by
  unfold target
  split
  · next id hid => exact .pure ⟨rfl, rfl, .code hid⟩
  · next hnone =>
    split
    · next i hi => exact .pure ⟨rfl, rfl, .host hnone hi⟩
    · next hnoname =>
      refine .fail fun hresolved => ?_
      obtain ⟨t, ht⟩ := hD hresolved callee signature hdeclares
      cases ht with
      | code h =>
        rw [hnone] at h
        cases h
      | host _ hi =>
        rw [hnoname] at hi
        cases hi

theorem Sound.call {blocks : BlockGen} {callee : String} {args : List Expr} {ty : Ty}
    {signature : Signature} (hdeclares : declares callee signature)
    (h : ∀ arg ∈ args, Sound ctx declares d arg (expr ctx blocks arg)) :
    Sound ctx declares d (.call callee args ty) (do
      let t ← target ctx callee
      call ctx t (arguments ctx blocks args) (!ty.isVoid)) := by
  intro s k hs
  have hL : (Expr.call callee args ty).Lowerable ctx.function.blocks →
      args.length ≤ maxArguments ∧ (∀ arg ∈ args, arg.hasValue = true) ∧
        ∀ arg ∈ args, arg.Lowerable ctx.function.blocks := by
    intro h
    cases h with
    | call hn hv h => exact ⟨hn, fun arg ha => Expr.hasValue_iff.2 (hv arg ha), h⟩
  have hneed : need (blockNeed ctx.function d) (.call callee args ty) =
      max (argumentsNeed (blockNeed ctx.function d) 0 args) (!ty.isVoid).toNat := by rw [need]
  have hD : ∀ index arg, args[index]? = some arg → (demand ctx declares d (k + index) arg).Within
      (demand ctx declares d k (.call callee args ty)) := by
    intro index arg hi
    have hle := need_le_argumentsNeed (blockNeed ctx.function d) 0 hi
    exact demand_within (fun h => (hL h).2.2 arg (List.mem_of_getElem? hi)) (by omega)
  refine .bind (generates_target hdeclares id) ?_
  rintro t s _ - ⟨rfl, rfl, ht⟩
  have hargs := generates_arguments args h hD (fun hl => (hL hl).2.1) hs
  refine (generates_call t (!ty.isVoid) hs hargs (fun hl => (hL hl).1) fun hreturns hk => ?_).mono ?_
  · rw [hreturns, Bool.toNat_true] at hneed
    show 16 < k + need _ _
    omega
  rintro _ w _ - ⟨rfl, hw, hcount, hle, hlt, u, as, hlower, huw, rfl⟩
  refine ⟨rfl, hw, fun hshort pool hpool => ?_⟩
  have hvoid : ty ≠ .void → k < 16 := fun hne => hlt (Expr.hasValue_iff (e := .call callee args ty).2 hne)
  exact .call ht hcount hle hvoid (hlower.grows huw hshort pool hpool)

/-! ### Conditionals -/

omit [HostAddresses] in
theorem generates_missing (hasValue : Bool) (hs : s.used = k)
    (hD : k + hasValue.toNat ≤ D.registers) :
    Generates ctx.home D (missingAlternative hasValue) s fun v t is =>
      v = (if hasValue then some (reg k) else none) ∧ t.used = k + hasValue.toNat ∧
        is = missingItems hasValue k := by
  unfold missingAlternative
  cases hasValue with
  | true =>
    rw [Bool.toNat_true] at hD
    refine .bind (generates_acquire (by omega)) ?_
    rintro _ t _ - ⟨rfl, -, rfl, ht⟩
    rw [hs] at ht ⊢
    refine .bind (generates_emit _) ?_
    rintro _ u _ - ⟨rfl, hu⟩
    exact .pure ⟨rfl, hu.trans ht, rfl⟩
  | false => exact .pure ⟨rfl, hs, rfl⟩

theorem Sound.condition {e : Expr} {m : GenM (Option Xmm)} (h : Sound ctx declares d e m)
    (hs : s.used = k) (hD : (demand ctx declares d k e).Within D) (hv : e.hasValue = true) :
    Generates ctx.home D (Codegen.required m) s fun r t is =>
      r = reg k ∧ t.used = k + 1 ∧ Becomes ctx d k (.expr e) is t :=
  (h.required hs hD fun _ => hv).mono fun _ _ _ _ hq => ⟨hq.1, hq.2.2.1, hq.2.2.2⟩

theorem Sound.ifThen {condition onTrue : Expr} {c t : GenM (Option Xmm)}
    (hc : Sound ctx declares d condition c) (ht : Sound ctx declares d onTrue t)
    (hv : condition.hasValue = true) :
    Sound ctx declares d (.ifThen condition onTrue)
      (conditional c t (missingAlternative onTrue.hasValue) onTrue.hasValue) := by
  intro s k hs
  have hneed : need (blockNeed ctx.function d) (.ifThen condition onTrue) =
      max (max (need (blockNeed ctx.function d) condition) 2)
        (max (need (blockNeed ctx.function d) onTrue) onTrue.hasValue.toNat) := by rw [need]
  have hDc : (demand ctx declares d k condition).Within
      (demand ctx declares d k (.ifThen condition onTrue)) :=
    demand_within (fun h => by cases h; assumption) (by omega)
  have hDt : (demand ctx declares d k onTrue).Within
      (demand ctx declares d k (.ifThen condition onTrue)) :=
    demand_within (fun h => by cases h; assumption) (by omega)
  have htwo : k + 2 ≤ (demand ctx declares d k (.ifThen condition onTrue)).registers := by
    show k + 2 ≤ k + need _ _
    omega
  have hmissing : k + onTrue.hasValue.toNat ≤
      (demand ctx declares d k (.ifThen condition onTrue)).registers := by
    show _ ≤ k + need _ _
    omega
  refine (generates_conditional (hc.condition hs hDc hv) (fun u hu => (ht u k hu).weaken hDt)
    (fun u hu => generates_missing onTrue.hasValue hu hmissing) htwo).mono ?_
  rintro _ w _ - ⟨rfl, hw, hlt, u, cs, v, ts, f, fs, ⟨hcs, hcw⟩, ⟨hts, htw⟩, ⟨rfl, -⟩, hsizes, rfl⟩
  refine ⟨rfl, hw, fun hshort pool hpool => ?_⟩
  exact .ifThen hlt hv (hsizes hshort).1 (hcs.grows hcw hshort pool hpool)
    (hts.grows htw hshort pool hpool)

theorem Sound.ifThenElse {condition onTrue onFalse : Expr} {c t f : GenM (Option Xmm)}
    (hc : Sound ctx declares d condition c) (ht : Sound ctx declares d onTrue t)
    (hf : Sound ctx declares d onFalse f) (hv : condition.hasValue = true)
    (hty : onFalse.ty = onTrue.ty) :
    Sound ctx declares d (.ifThenElse condition onTrue onFalse)
      (conditional c t f onTrue.hasValue) := by
  intro s k hs
  have hsame : onFalse.hasValue = onTrue.hasValue := by rw [Expr.hasValue, Expr.hasValue, hty]
  have hneed : need (blockNeed ctx.function d) (.ifThenElse condition onTrue onFalse) =
      max (max (need (blockNeed ctx.function d) condition) 2)
        (max (need (blockNeed ctx.function d) onTrue) (need (blockNeed ctx.function d) onFalse)) := by
    rw [need]
  have hDc : (demand ctx declares d k condition).Within
      (demand ctx declares d k (.ifThenElse condition onTrue onFalse)) :=
    demand_within (fun h => by cases h; assumption) (by omega)
  have hDt : (demand ctx declares d k onTrue).Within
      (demand ctx declares d k (.ifThenElse condition onTrue onFalse)) :=
    demand_within (fun h => by cases h; assumption) (by omega)
  have hDf : (demand ctx declares d k onFalse).Within
      (demand ctx declares d k (.ifThenElse condition onTrue onFalse)) :=
    demand_within (fun h => by cases h; assumption) (by omega)
  have htwo : k + 2 ≤ (demand ctx declares d k (.ifThenElse condition onTrue onFalse)).registers := by
    show k + 2 ≤ k + need _ _
    omega
  have hfalse : ∀ u : State, u.used = k → Generates ctx.home
      (demand ctx declares d k (.ifThenElse condition onTrue onFalse)) f u fun v w is =>
        v = (if onTrue.hasValue then some (reg k) else none) ∧
          w.used = k + onTrue.hasValue.toNat ∧ Becomes ctx d k (.expr onFalse) is w := by
    intro u hu
    rw [← hsame]
    exact (hf u k hu).weaken hDf
  refine (generates_conditional (hc.condition hs hDc hv) (fun u hu => (ht u k hu).weaken hDt) hfalse
    htwo).mono ?_
  rintro _ w _ - ⟨rfl, hw, hlt, u, cs, v, ts, x, fs, ⟨hcs, hcw⟩, ⟨hts, htw⟩, ⟨hfs, hfw⟩, hsizes, rfl⟩
  refine ⟨rfl, hw, fun hshort pool hpool => ?_⟩
  obtain ⟨hsize, hsize'⟩ := hsizes hshort
  exact .ifThenElse hlt hv hsame hsize hsize' (hcs.grows hcw hshort pool hpool)
    (hts.grows htw hshort pool hpool) (hfs.grows hfw hshort pool hpool)

/-! ### Expressions and blocks -/

def BlocksSound (ctx : Context) (declares : String → Signature → Prop)
    (d here : Nat) : Prop :=
  ∀ (id : Nat) (b : Block), here < id → ctx.function.blocks[id]? = some b →
    Sound ctx declares d (.block id b.ty) (blocksWithin ctx d id (!b.ty.isVoid))

theorem sound_expr {here : Nat} {e : Expr}
    (hdouble : ∀ var v, declaration? ctx.function.blocks var = some v → v.ty = .float64)
    (hblocks : BlocksSound ctx declares d here)
    (he : e.WellFormed (ctx.function.surroundings declares) here) :
    Sound ctx declares d e (expr ctx (blocksWithin ctx d) e) := by
  -- What is emitted here is lowered in every later pool: constants are only added to it.
  induction he with
  | literal value =>
    intro s k hs
    rw [expr]
    refine .map ((generates_constant value hs fun hk => ?_).mono ?_)
    · show 16 < k + need _ _
      rw [need]
      omega
    rintro _ t _ - ⟨rfl, ht, hlt, offset, rfl, hx⟩
    exact ⟨rfl, ht, fun _ pool hpool => .literal hlt (hx.extends hpool)⟩
  | binary _ _ hv hty ihl ihr =>
    rw [expr]
    exact ihl.operation ihr (Expr.hasValue_iff.2 hv) (Expr.hasValue_iff.2 (hty ▸ hv))
  | @unary op operand _ hv ih =>
    cases op with
    | plus =>
      intro s k hs
      rw [expr]
      refine ((ih s k hs).weaken (demand_within (fun h => by cases h; assumption)
        (Nat.le_of_eq (by rw [need])))).mono ?_
      rintro v t is - ⟨rfl, ht, hlower⟩
      exact ⟨rfl, ht, fun hshort pool hpool => .plus (hlower hshort pool hpool)⟩
    | minus =>
      rw [expr]
      exact ih.negation (Expr.hasValue_iff.2 hv)
  | @read name var v hd hn _ =>
    intro s k hs
    rw [expr]
    refine .bind (generates_acquire fun hk => ?_) ?_
    · show 16 < k + need _ _
      rw [need]
      omega
    rintro _ t _ - ⟨rfl, hlt, rfl, ht⟩
    rw [hs] at hlt ht ⊢
    refine .bind (generates_variableAddress hd id) ?_
    rintro _ t _ - ⟨rfl, rfl, rfl⟩
    refine .bind (generates_emit _) ?_
    rintro _ u _ - ⟨rfl, hu⟩
    have hvalue : (Expr.read name var v.ty v.mutable).hasValue = true := by
      rw [hdouble var v hd]
      rfl
    exact .pure ⟨by rw [hvalue]; rfl, by rw [hvalue, hu, ht]; rfl, fun _ _ _ => .read hlt hd⟩
  | @write name var v value hd hn _ hm hty _ ih =>
    intro s k hs
    rw [expr]
    have hvalue : value.hasValue = true := by
      rw [Expr.hasValue, hty, hdouble var v hd]
      rfl
    refine .bind (ih.storeVariable hd hvalue hs (demand_within (fun h => by cases h; assumption)
      (Nat.le_of_eq (by rw [need]))) id) ?_
    rintro _ t _ - ⟨ht, hlt, js, rfl, hlower⟩
    refine .pure ⟨rfl, ht, fun hshort pool hpool => ?_⟩
    rw [List.append_nil]
    exact .write hlt hd hvalue (hlower hshort pool hpool)
  | @bind name var v value hd hn _ hty hv _ ih =>
    intro s k hs
    rw [expr]
    have hvalue : value.hasValue = true := Expr.hasValue_iff.2 (hty ▸ hv)
    refine .bind (ih.storeVariable hd hvalue hs (demand_within (fun h => by cases h; assumption)
      (Nat.le_of_eq (by rw [need]))) id) ?_
    rintro _ t _ - ⟨ht, hlt, js, rfl, hlower⟩
    refine .pure ⟨rfl, ht, fun hshort pool hpool => ?_⟩
    rw [List.append_nil]
    exact .bind hlt hd hvalue (hlower hshort pool hpool)
  | call hs hty _ ih =>
    rw [expr]
    exact Sound.call hs ih
  | leave h =>
    rw [expr]
    exact Sound.leave
  | leaveWith _ h ih =>
    rw [expr]
    exact ih.leaveWith
  | ifThen _ _ hv ihc iht =>
    rw [expr]
    exact ihc.ifThen iht (Expr.hasValue_iff.2 hv)
  | ifThenElse _ _ _ hv hty hcat ihc iht ihf =>
    rw [expr]
    exact ihc.ifThenElse iht ihf (Expr.hasValue_iff.2 hv) hty
  | @block id b hblock hp hlt =>
    rw [expr]
    exact hblocks id b hlt hblock

theorem generates_statements {blocks : BlockGen} (hasValue : Bool) (list : List Expr)
    (h : ∀ e ∈ list, Sound ctx declares d e (expr ctx blocks e))
    (hlast : hasValue = match list.getLast? with
      | some e => e.hasValue
      | none => false)
    (hD : ∀ e ∈ list, (demand ctx declares d k e).Within D) (hs : s.used = k) :
    Generates ctx.home D (statements ctx blocks hasValue list) s fun v t is =>
      v = (if hasValue then some (reg k) else none) ∧ t.used = k + hasValue.toNat ∧
        Becomes ctx d k (.statements hasValue list) is t := by
  induction list generalizing s with
  | nil =>
    rw [statements]
    have hvalue : hasValue = false := hlast
    subst hvalue
    exact .pure ⟨rfl, hs, fun _ _ _ => .noStatements⟩
  | cons e rest ih =>
    rw [statements]
    refine .bind ((h e List.mem_cons_self s k hs).weaken (hD e List.mem_cons_self)) ?_
    rintro _ t is hst ⟨rfl, ht, hlower⟩
    -- The last statement leaves its value. That of any other is dropped before the next.
    cases rest with
    | nil =>
      have hvalue : e.hasValue = hasValue := hlast.symm
      rw [hvalue] at ht ⊢
      cases hasValue with
      | true =>
        refine .pure ⟨rfl, ht, fun hshort pool hpool => ?_⟩
        rw [List.append_nil]
        exact .lastStatement hvalue (hlower hshort pool hpool)
      | false =>
        refine .pure ⟨rfl, ht, fun hshort pool hpool => ?_⟩
        rw [List.append_nil]
        exact .lastStatement hvalue (hlower hshort pool hpool)
    | cons next rest =>
      have hrest : ∀ u : State, u.used = k → Generates ctx.home D
          (statements ctx blocks hasValue (next :: rest)) u _ := fun u hu =>
        ih (fun e' he' => h e' (List.mem_cons_of_mem e he')) (by rw [hlast, List.getLast?_cons_cons])
          (fun e' he' => hD e' (List.mem_cons_of_mem e he')) hu
      cases hvalue : e.hasValue with
      | true =>
        rw [hvalue] at ht
        refine .bind (generates_release ht) ?_
        rintro _ u _ htu ⟨rfl, hu⟩
        refine (hrest u hu).mono ?_
        rintro v w js huw ⟨rfl, hw, hlower'⟩
        refine ⟨rfl, hw, fun hshort pool hpool => ?_⟩
        exact .statement (hlower.grows (htu.grows.trans huw.grows) hshort pool hpool)
          (hlower' hshort pool hpool)
      | false =>
        rw [hvalue] at ht
        refine (hrest t ht).mono ?_
        rintro v w js htw ⟨rfl, hw, hlower'⟩
        refine ⟨rfl, hw, fun hshort pool hpool => ?_⟩
        exact .statement (hlower.grows htw.grows hshort pool hpool) (hlower' hshort pool hpool)

omit [HostAddresses] in
theorem Block.not_isVoid_ty (b : Block) : (!b.ty.isVoid) = match b.statements.getLast? with
    | some e => e.hasValue
    | none => false := by
  unfold Block.ty
  cases b.statements.getLast? <;> rfl

/-- A block leads only to blocks after it, so that a depth that reaches past the last is enough. -/
theorem sound_block (hw : ctx.function.WellFormed declares)
    (hdouble : ∀ var v, declaration? ctx.function.blocks var = some v → v.ty = .float64) {d id : Nat}
    {b : Block} (hd : ctx.function.blocks.length ≤ d + id)
    (hb : ctx.function.blocks[id]? = some b) :
    Sound ctx declares d (.block id b.ty) (blocksWithin ctx d id (!b.ty.isVoid)) := by
  induction d generalizing id b with
  | zero =>
    have hlt := (List.getElem?_eq_some_iff.1 hb).1
    omega
  | succ d ih =>
    have hblocks : BlocksSound ctx declares d id := fun other c hid hc => ih (by omega) hc
    have hneed : need (blockNeed ctx.function (d + 1)) (.block id b.ty) =
        statementsNeed (blockNeed ctx.function d) b.statements := by
      rw [need, blockNeed, hb]
    have hD : ∀ (k : Nat), ∀ e ∈ b.statements, (demand ctx declares d k e).Within
        (demand ctx declares (d + 1) k (.block id b.ty)) := by
      intro k e he
      refine ⟨fun h => ?_, fun h => h, fun h => h, ?_⟩
      · cases h with
        | block h => exact h b hb e he
      · show k + need _ e ≤ k + need _ _
        have hle := need_le_statementsNeed (blockNeed ctx.function d) he
        omega
    intro s k hs
    rw [blocksWithin, hb]
    refine (generates_statements (!b.ty.isVoid) b.statements (fun e he => ?_)
      (Block.not_isVoid_ty b) (hD k) hs).mono ?_
    · exact sound_expr hdouble hblocks (hw.statements id b hb e he).2
    · rintro v t is - ⟨rfl, ht, hlower⟩
      exact ⟨rfl, ht, fun hshort pool hpool => .block hb (hlower hshort pool hpool)⟩

theorem sound_functionExpr (hw : ctx.function.WellFormed declares)
    (hdouble : ∀ var v, declaration? ctx.function.blocks var = some v → v.ty = .float64)
    {e : Expr} (he : e ∈ ctx.function.parts) :
    Sound ctx declares ctx.function.blocks.length e (functionExpr ctx e) := by
  have hblocks : ∀ (id : Nat) (b : Block), ctx.function.blocks[id]? = some b → Sound ctx declares
      ctx.function.blocks.length (.block id b.ty)
      (blocksWithin ctx ctx.function.blocks.length id (!b.ty.isVoid)) :=
    fun id _ hb => sound_block hw hdouble (Nat.le_add_right _ id) hb
  rcases hw.part he with rfl | ⟨here, hwell⟩
  · obtain ⟨b, hb, -, -, hbody⟩ := hw.root
    rw [functionExpr, hbody, expr]
    exact hblocks rootBlock b hb
  · exact sound_expr hdouble (fun id b _ hb => hblocks id b hb) hwell

end Codegen
end ScalarJit
