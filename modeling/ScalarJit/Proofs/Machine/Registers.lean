import ScalarJit.Proofs.Codegen.Lowering
import ScalarJit.Proofs.Machine.Reach

/-! # Straight code on registers

What single instructions, and the few that always stand together, leave in the registers. Code keeps
the frame pointer and, but for stores, the stack. -/

namespace ScalarJit
namespace Machine

open X86 (Gpr Instr Mem Predicate SseOp Xmm)
open Codegen (reg)

theorem reg_inj {i j : Nat} (hi : i < 16) (hj : j < 16) : reg i = reg j ↔ i = j := by
  simp only [reg, Xmm.mk.injEq, Fin.mk.injEq]
  rw [Nat.mod_eq_of_lt hi, Nat.mod_eq_of_lt hj]

variable {image : Image} {m last : Machine}

@[simp]
theorem stack_past (m : Machine) (i : Instr) : (m.past i).stack = m.stack := rfl

@[simp]
theorem depth_past (m : Machine) (i : Instr) : (m.past i).depth = m.depth := rfl

@[simp]
theorem gpr_past (m : Machine) (i : Instr) (r : Gpr) : (m.past i).gpr r = m.gpr r := rfl

theorem gpr_rbp (m : Machine) : m.gpr .rbp = m.general[5] := rfl

/-! ### One register written -/

/-- Only one vector register is changed, apart from general registers that nobody relies on. -/
structure Writes (r : Xmm) (x : Double) (m last : Machine) : Prop where
  stack : last.stack = m.stack
  frame : last.gpr .rbp = m.gpr .rbp
  xmm : ∀ other, last.xmm other = if r = other then x else m.xmm other

theorem Writes.self {r : Xmm} {x : Double} (h : Writes r x m last) : last.xmm r = x := by
  rw [h.xmm, if_pos rfl]

theorem Writes.of_ne {r other : Xmm} {x : Double} (h : Writes r x m last) (hne : r ≠ other) :
    last.xmm other = m.xmm other := by
  rw [h.xmm, if_neg hne]

theorem writes_setXmm (m : Machine) (i : Instr) (r : Xmm) (x : Double) :
    Writes r x m ((m.past i).setXmm r x) :=
  ⟨rfl, rfl, fun other => xmm_setXmm _ r other x⟩

variable [HostAddresses]

theorem straight_setXmm {i : Instr} {r : Xmm} {x : Double}
    (h : (m.past i).execute image i = .ok (.running ((m.past i).setXmm r x))) :
    ∃ last, Straight image m [i] last ∧ Writes r x m last :=
  ⟨_, .single h rfl, writes_setXmm m i r x⟩

def sseValue : SseOp → Double → Double → Double
  | .movSd, _, y => y
  | .movApd, _, y => y
  | .addSd, x, y => x.add y
  | .subSd, x, y => x.sub y
  | .mulSd, x, y => x.mul y
  | .divSd, x, y => x.div y
  | .andPd, x, y => ⟨x.bits &&& y.bits⟩
  | .xorPd, x, y => ⟨x.bits ^^^ y.bits⟩
  | .uComISd, x, _ => x

theorem straight_sse {op : SseOp} (hop : op ≠ .uComISd) (dst src : Xmm) :
    ∃ last, Straight image m [.sse op dst src] last ∧
      Writes dst (sseValue op (m.xmm dst) (m.xmm src)) m last := by
  refine straight_setXmm ?_
  cases op with
  | uComISd => exact absurd rfl hop
  | _ => rfl

theorem straight_compare (dst src : Xmm) (predicate : Predicate) :
    ∃ last, Straight image m [.compare dst src predicate] last ∧
      Writes dst (maskOf (predicate.holds (m.xmm dst) (m.xmm src))) m last :=
  straight_setXmm rfl

theorem straight_clear (r : Xmm) :
    ∃ last, Straight image m [.sse .xorPd r r] last ∧ Writes r .zero m last := by
  obtain ⟨last, hlast, hw⟩ := @straight_sse image m _ .xorPd (by decide) r r
  refine ⟨last, hlast, ?_⟩
  have hzero : sseValue .xorPd (m.xmm r) (m.xmm r) = .zero := by
    rw [sseValue, UInt64.xor_self]
    rfl
  rwa [hzero] at hw

theorem straight_test (r zero : Xmm) :
    ∃ last, Straight image m [.sse .uComISd r zero] last ∧ last.stack = m.stack ∧
      last.gpr .rbp = m.gpr .rbp ∧ (∀ other, last.xmm other = m.xmm other) ∧
      last.zero = (m.xmm r).equalOrUnordered (m.xmm zero) := by
  refine ⟨{ m.past (.sse .uComISd r zero) with
    zero := (m.xmm r).equalOrUnordered (m.xmm zero) }, .single rfl rfl, rfl, rfl, ?_, rfl⟩
  exact fun _ => rfl

/-! ### Immediates -/

theorem straight_moveImm {g : Gpr} (hsp : g ≠ .rsp) (hbp : g ≠ .rbp) (imm : UInt64) :
    ∃ last, Straight image m [.moveImm g imm] last ∧ last.stack = m.stack ∧
      last.gpr .rbp = m.gpr .rbp ∧ (∀ other, last.xmm other = m.xmm other) ∧
      last.gpr g = .bits imm ∧ (∀ other, other ≠ g → last.gpr other = m.gpr other) := by
  have happart : ∀ other : Gpr, other ≠ g → g.number.val ≠ other.number.val := by
    intro other hne heq
    apply hne
    cases g
    cases other
    exact congrArg _ (Fin.ext heq.symm)
  have hexec : ((m.past (.moveImm g imm)).execute image (.moveImm g imm)) = .ok (.running
      { m.past (.moveImm g imm) with
        general := m.general.set g.number.val (.bits imm) g.number.isLt }) := by
    simp only [execute, setGpr, if_neg hsp]
    rfl
  have hother : ∀ other, other ≠ g → ({ m.past (.moveImm g imm) with
      general := m.general.set g.number.val (.bits imm) g.number.isLt } : Machine).gpr other =
        m.gpr other := by
    intro other hne
    unfold gpr
    split
    · rfl
    · simp [happart other hne]
  refine ⟨_, .single hexec rfl, rfl, hother _ (Ne.symm hbp), fun _ => rfl, ?_, hother⟩
  simp [gpr, hsp]

theorem straight_constant {address : UInt64} {x : Double} (r : Xmm)
    (hx : image.loadDouble address = .ok x) :
    ∃ last, Straight image m [.moveImm .rax address, .sseLoad .movSd r ⟨.rax, 0⟩] last ∧
      Writes r x m last := by
  obtain ⟨next, hnext, hstack, hframe, hxmm, hrax, -⟩ :=
    @straight_moveImm image m _ .rax (by decide) (by decide) address
  have hload : (next.past (.sseLoad .movSd r ⟨.rax, 0⟩)).load image ⟨.rax, 0⟩ = .ok x := by
    have hzero : signExtend 0 = 0 := by decide
    rw [load, gpr_past, hrax]
    simp only [hzero, UInt64.add_zero, hx]
  have hexec : (next.past (.sseLoad .movSd r ⟨.rax, 0⟩)).execute image
      (.sseLoad .movSd r ⟨.rax, 0⟩) =
        .ok (.running ((next.past (.sseLoad .movSd r ⟨.rax, 0⟩)).setXmm r x)) := by
    rw [execute, hload]
    rfl
  obtain ⟨last, hlast, hw⟩ := straight_setXmm hexec
  refine ⟨last, hnext.append hlast, hw.stack.trans hstack, hw.frame.trans hframe, ?_⟩
  intro other
  rw [hw.xmm, hxmm]

/-! ### Cells of the stack -/

omit [HostAddresses] in
theorem cellIndex_eq {depth cell : Nat} {disp : Int} (hdisp : disp = 8 * ((depth : Int) - 1 - cell))
    (hcell : cell < m.depth) : m.cellIndex depth disp = .ok cell := by
  have hdiv : disp / 8 = (depth : Int) - 1 - cell := by omega
  have hcond : disp % 8 = 0 ∧ 0 ≤ (depth : Int) - disp / 8 - 1 ∧
      (depth : Int) - disp / 8 - 1 < m.depth := by
    rw [hdiv]
    omega
  unfold cellIndex
  dsimp only
  rw [if_pos hcond, hdiv]
  congr 1
  omega

theorem straight_loadCell {base : Gpr} {disp : Int32} {depth cell : Nat} {x : Double} (r : Xmm)
    (hbase : m.gpr base = .stack depth) (hdisp : disp.toInt = 8 * ((depth : Int) - 1 - cell))
    (hcell : m.stack[cell]? = some (some (.bits x.bits))) :
    ∃ last, Straight image m [.sseLoad .movSd r ⟨base, disp⟩] last ∧ Writes r x m last := by
  have hlt : cell < m.depth := (Array.getElem?_eq_some_iff.1 hcell).1
  have hload : (m.past (.sseLoad .movSd r ⟨base, disp⟩)).load image ⟨base, disp⟩ = .ok x := by
    rw [load, gpr_past, hbase]
    have hindex : (m.past (.sseLoad .movSd r ⟨base, disp⟩)).cellIndex depth disp.toInt = .ok cell :=
      cellIndex_eq hdisp hlt
    simp only [loadCell, hindex, stack_past]
    simp only [bind, Except.bind, hcell]
    rfl
  have hexec : (m.past (.sseLoad .movSd r ⟨base, disp⟩)).execute image
      (.sseLoad .movSd r ⟨base, disp⟩) =
        .ok (.running ((m.past (.sseLoad .movSd r ⟨base, disp⟩)).setXmm r x)) := by
    rw [execute, hload]
    rfl
  exact straight_setXmm hexec

theorem step_loadCell_unset {base : Gpr} {disp : Int32} {depth cell : Nat} {r : Xmm}
    {rest : List Instr} (hat : image.At m.pc (.sseLoad .movSd r ⟨base, disp⟩ :: rest))
    (hbase : m.gpr base = .stack depth) (hdisp : disp.toInt = 8 * ((depth : Int) - 1 - cell))
    (hcell : m.stack[cell]? = some none) : m.step image = .error .unsetCell := by
  have hlt : cell < m.depth := (Array.getElem?_eq_some_iff.1 hcell).1
  have hindex : (m.past (.sseLoad .movSd r ⟨base, disp⟩)).cellIndex depth disp.toInt = .ok cell :=
    cellIndex_eq hdisp hlt
  rw [step_of_at hat, execute, load, gpr_past, hbase]
  simp only [loadCell, hindex, stack_past]
  simp only [bind, Except.bind, hcell]
  rfl

theorem straight_storeCell {base : Gpr} {disp : Int32} {depth cell : Nat} (r : Xmm)
    (hbase : m.gpr base = .stack depth) (hdisp : disp.toInt = 8 * ((depth : Int) - 1 - cell))
    (hlt : cell < m.stack.size) :
    ∃ last, Straight image m [.store ⟨base, disp⟩ r] last ∧
      last.stack = m.stack.setIfInBounds cell (some (.bits (m.xmm r).bits)) ∧
      last.gpr .rbp = m.gpr .rbp ∧ ∀ other, last.xmm other = m.xmm other := by
  have hindex : (m.past (.store ⟨base, disp⟩ r)).cellIndex depth disp.toInt = .ok cell :=
    cellIndex_eq hdisp hlt
  have hexec : (m.past (.store ⟨base, disp⟩ r)).execute image (.store ⟨base, disp⟩ r) =
      .ok (.running { m.past (.store ⟨base, disp⟩ r) with
        stack := m.stack.setIfInBounds cell (some (.bits (m.xmm r).bits)) }) := by
    rw [execute, store, gpr_past, hbase]
    simp only [storeCell, hindex]
    rfl
  exact ⟨_, .single hexec rfl, rfl, rfl, fun _ => rfl⟩

end Machine
end ScalarJit
