import ScalarJit.Proofs.Codegen.Branch
import ScalarJit.Proofs.Machine.Calls

/-! # Branches and returns

Branches go forward only, by the size of the code that they leave out. A return throws away the frame
of its activation, whatever else is on the stack. -/

namespace ScalarJit
namespace Machine

open X86 (Gpr Instr Xmm)
open Codegen (reg Item)
open Evaluation (EvalM Exit Locals)

variable {image : Image} {m : Machine}

theorem signExtend_ofNat {distance : Nat} (h : distance < 0x80000000) :
    signExtend (Int32.ofNat distance) = UInt64.ofNat distance := by
  have h64 : (Int32.ofNat distance).toInt64 = Int64.ofNat distance :=
    Int32.toInt64_ofNat' (Int.ofNat_le.2 (Nat.le_of_lt_succ h))
  rw [signExtend, h64]
  rfl

section
variable {σ : Type} {host : Host σ} {residue : σ → Residue} {s : σ} [HostAddresses]

theorem reaches_jump {distance : Nat} {rest : List Instr}
    (h : distance < 0x80000000)
    (hat : image.At m.pc (.jump (Int32.ofNat distance) :: rest)) :
    ∃ last, Reaches host residue image 1 m s last s ∧ last.pc = behind m.pc (5 + distance) ∧
      last.stack = m.stack ∧ last.gpr .rbp = m.gpr .rbp ∧ ∀ r, last.xmm r = m.xmm r := by
  have hstep : m.step image = .ok (.running { m.past (.jump (Int32.ofNat distance)) with
      pc := (m.past (.jump (Int32.ofNat distance))).pc + signExtend (Int32.ofNat distance) }) := by
    rw [step_of_at hat]
    rfl
  refine ⟨_, reaches_of_step hstep, ?_, rfl, rfl, fun _ => rfl⟩
  rw [signExtend_ofNat h, ← behind_add]
  rfl

theorem reaches_jumpIfZero {distance : Nat} {rest : List Instr}
    (h : distance < 0x80000000)
    (hat : image.At m.pc (.jumpIfZero (Int32.ofNat distance) :: rest)) :
    ∃ last, Reaches host residue image 1 m s last s ∧
      last.pc = behind m.pc (6 + if m.zero then distance else 0) ∧
      last.stack = m.stack ∧ last.gpr .rbp = m.gpr .rbp ∧ ∀ r, last.xmm r = m.xmm r := by
  have hstep : m.step image = .ok (.running (if m.zero then
      { m.past (.jumpIfZero (Int32.ofNat distance)) with
        pc := (m.past (.jumpIfZero (Int32.ofNat distance))).pc + signExtend (Int32.ofNat distance) }
      else m.past (.jumpIfZero (Int32.ofNat distance)))) := by
    rw [step_of_at hat]
    rfl
  refine ⟨_, reaches_of_step hstep, ?_, ?_, ?_, ?_⟩
  · cases m.zero with
    | true =>
      rw [if_pos rfl, if_pos rfl, signExtend_ofNat h, ← behind_add]
      rfl
    | false => rfl
  · cases m.zero <;> rfl
  · cases m.zero <;> rfl
  · cases m.zero <;> exact fun _ => rfl

end

/-! ### Returns -/

variable [HostAddresses]

theorem straight_deliver {address : SectionId → Nat → UInt64} {value : Option Nat} {x : Double}
    (hx : ∀ k, value = some k → m.xmm (reg k) = x) (hzero : value = none → x = .zero) :
    ∃ last, Straight image m (resolved address (Codegen.deliverItems value)) last ∧
      last.stack = m.stack ∧ last.gpr .rbp = m.gpr .rbp ∧ last.xmm .result = x := by
  cases value with
  | none =>
    obtain ⟨last, hlast, hw⟩ := @straight_clear image m _ .result
    rw [hzero rfl]
    exact ⟨last, hlast, hw.stack, hw.frame, hw.self⟩
  | some k =>
    rw [Codegen.deliverItems]
    split
    · obtain ⟨last, hlast, hw⟩ := @straight_sse image m _ .movSd (by decide) .result (reg k)
      exact ⟨last, hlast, hw.stack, hw.frame, hw.self.trans (hx k rfl)⟩
    · next heq =>
      have heq : reg k = Xmm.result := Decidable.not_not.1 heq
      exact ⟨m, .nil, rfl, rfl, heq ▸ hx k rfl⟩

theorem straight_leave {act : Activation} {f : Function} {locals : Locals}
    (h : InFrame act f locals m) :
    ∃ last, Straight image m [.move .rsp .rbp, .pop .rbp] last ∧ last.stack = act.entry ∧
      last.gpr .rbp = act.frame ∧ ∀ r, last.xmm r = m.xmm r := by
  have hmove : (m.past (.move .rsp .rbp)).execute image (.move .rsp .rbp) =
      .ok (.running ((m.past (.move .rsp .rbp)).setDepth act.below.size)) := by
    rw [execute, gpr_past, h.frame]
    rfl
  have hstack : ((m.past (.move .rsp .rbp)).setDepth act.below.size).stack = act.below := by
    rw [stack_setDepth_of_le (by rw [stack_past, h.size]; omega)]
    exact shrink_eq h.below
  generalize hnext : (m.past (.move .rsp .rbp)).setDepth act.below.size = next at hmove hstack
  have hpop : (next.past (.pop .rbp)).pop =
      .ok (act.frame, { next.past (.pop .rbp) with stack := act.entry }) := by
    rw [pop, stack_past, hstack, Activation.below]
    simp
  have hexec : (next.past (.pop .rbp)).execute image (.pop .rbp) = .ok (.running
      { next.past (.pop .rbp) with
        stack := act.entry
        general := next.general.set 5 act.frame }) := by
    rw [execute, hpop]
    rfl
  refine ⟨_, .cons hmove (by rw [← hnext]; exact pc_setDepth _) (.single hexec rfl), rfl, ?_, ?_⟩
  · rw [gpr_rbp]
    simp
  · intro r
    rw [← hnext]
    simp only [xmm, past, vector_setDepth]

theorem reaches_return {σ : Type} {host : Host σ} {residue : σ → Residue} {s : σ}
    {address : SectionId → Nat → UInt64} {act : Activation} {f : Function} {locals : Locals}
    {value : Option Nat} {x : Double} {more : List Instr} (hin : InFrame act f locals m)
    (hat : image.At m.pc (resolved address (Codegen.returnItems value) ++ more))
    (hx : ∀ k, value = some k → m.xmm (reg k) = x) (hzero : value = none → x = .zero) :
    ∃ j last, Reaches host residue image j m s last s ∧ AtReturn image act x last := by
  obtain ⟨next, hnext, hstack, hframe, hresult⟩ :=
    @straight_deliver image m _ address value x hx hzero
  obtain ⟨last, hlast, hentry, hsaved, hxmm⟩ := @straight_leave image _ _ _ _ _
    (hin.of_eq hstack hframe)
  have hcode : resolved address (Codegen.returnItems value) ++ more =
      resolved address (Codegen.deliverItems value) ++ ([.move .rsp .rbp, .pop .rbp] ++
        (.ret :: more)) := by
    rw [Codegen.returnItems, resolved_append, List.append_assoc]
    rfl
  rw [hcode] at hat
  obtain ⟨hfirst, hrest⟩ := Image.at_append.1 hat
  rw [← hnext.pc_eq] at hrest
  obtain ⟨hleave, hret⟩ := Image.at_append.1 hrest
  rw [← hlast.pc_eq] at hret
  exact ⟨_, last, (hnext.reaches hfirst).trans (hlast.reaches hleave), ⟨more, hret⟩, hentry, hsaved,
    (hxmm _).trans hresult⟩

end Machine
end ScalarJit
