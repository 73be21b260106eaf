import ScalarJit.Proofs.Machine.Simulation

/-! # Straight code on the stack

A call saves the registers that hold values in cells of its own on top of the stack, loads the
arguments from there, and when it is back takes out the registers that were held before. -/

namespace ScalarJit
namespace Machine

open X86 (Gpr Instr Xmm)
open Codegen (reg spillCell callArea)

variable {image : Image} {m : Machine}

theorem gpr_rsp (m : Machine) : m.gpr .rsp = .stack m.stack.size := rfl

theorem toInt_spillCell {i : Nat} (hi : i < 16) (depth : Nat) (hdepth : i < depth) :
    (spillCell i).disp.toInt = 8 * ((depth : Int) - 1 - (depth - 1 - i : Nat)) := by
  rw [spillCell, Int32.toInt_ofNat_of_lt (by omega)]
  omega

theorem shrink_eq {α : Type} {cells start : Array α} (h : ∀ i < start.size, cells[i]? = start[i]?) :
    cells.shrink start.size = start := by
  apply Array.ext_getElem?
  intro i
  rw [← Array.getElem?_toList, Array.toList_shrink, List.getElem?_take]
  split
  · next hi => exact Array.getElem?_toList.trans (h i hi)
  · next hi => rw [Array.getElem?_eq_none (Nat.le_of_not_lt hi)]

/-! ### The area of a call -/

theorem callArea_eq (held : Nat) : callArea held = (8 * held + 15) / 16 * 16 := rfl

theorem stack_setDepth_of_le {depth : Nat} (h : depth ≤ m.stack.size) :
    (m.setDepth depth).stack = m.stack.shrink depth := by
  have h' : depth ≤ m.depth := h
  rw [setDepth, if_pos h']

theorem stack_setDepth_add (count : Nat) :
    (m.setDepth (m.depth + count)).stack = m.stack ++ Array.replicate count none := by
  unfold setDepth
  split
  · next h =>
    have hzero : count = 0 := by omega
    subst hzero
    simp [depth]
  · have hcount : m.depth + count - m.depth = count := by omega
    rw [hcount]

@[simp]
theorem general_setDepth (depth : Nat) : (m.setDepth depth).general = m.general := by
  unfold setDepth
  split <;> rfl

@[simp]
theorem vector_setDepth (depth : Nat) : (m.setDepth depth).vector = m.vector := by
  unfold setDepth
  split <;> rfl

@[simp]
theorem pc_setDepth (depth : Nat) : (m.setDepth depth).pc = m.pc := by
  unfold setDepth
  split <;> rfl

theorem cells_ofNat {bytes : Nat} (h : bytes % 8 = 0) (hlt : bytes < 0x80000000) :
    cells (Int32.ofNat bytes) = .ok (bytes / 8) := by
  have hint : (Int32.ofNat bytes).toInt = bytes := Int32.toInt_ofNat_of_lt hlt
  unfold cells
  rw [hint, if_pos (by omega)]
  rfl

variable [HostAddresses]

theorem straight_reserve {bytes : Nat} (h : bytes % 8 = 0) (hlt : bytes < 0x80000000) :
    ∃ last, Straight image m [.reserve (Int32.ofNat bytes)] last ∧
      last.stack = m.stack ++ Array.replicate (bytes / 8) none ∧
      last.gpr .rbp = m.gpr .rbp ∧ ∀ r, last.xmm r = m.xmm r := by
  have hexec : (m.past (.reserve (Int32.ofNat bytes))).execute image
      (.reserve (Int32.ofNat bytes)) = .ok (.running ((m.past (.reserve (Int32.ofNat bytes))).setDepth
        (m.depth + bytes / 8))) := by
    rw [execute, cells_ofNat h hlt]
    rfl
  refine ⟨_, .single hexec (pc_setDepth _), ?_, ?_, ?_⟩
  · exact stack_setDepth_add (bytes / 8)
  · rw [gpr_rbp, gpr_rbp]
    simp only [general_setDepth]
    rfl
  · intro r
    simp only [xmm, vector_setDepth]
    rfl

theorem straight_free {bytes : Nat} (h : bytes % 8 = 0) (hlt : bytes < 0x80000000)
    (hsize : bytes / 8 ≤ m.stack.size) :
    ∃ last, Straight image m [.free (Int32.ofNat bytes)] last ∧
      last.stack = m.stack.shrink (m.stack.size - bytes / 8) ∧
      last.gpr .rbp = m.gpr .rbp ∧ ∀ r, last.xmm r = m.xmm r := by
  have hdepth : ¬ (m.past (.free (Int32.ofNat bytes))).depth < bytes / 8 := Nat.not_lt.2 hsize
  have hexec : (m.past (.free (Int32.ofNat bytes))).execute image (.free (Int32.ofNat bytes)) =
      .ok (.running ((m.past (.free (Int32.ofNat bytes))).setDepth (m.depth - bytes / 8))) := by
    rw [execute, cells_ofNat h hlt]
    simp only [bind, Except.bind, if_neg hdepth]
    rfl
  refine ⟨_, .single hexec (pc_setDepth _), ?_, ?_, ?_⟩
  · exact stack_setDepth_of_le (Nat.sub_le _ _)
  · rw [gpr_rbp, gpr_rbp]
    simp only [general_setDepth]
    rfl
  · intro r
    simp only [xmm, vector_setDepth]
    rfl

/-! ### Registers in cells -/

def spillCode (count : Nat) : List Instr := (List.range count).map fun i => .store (spillCell i) (reg i)

def loadCode (base count : Nat) : List Instr :=
  (List.range count).map fun i => .sseLoad .movSd (reg i) (spillCell (base + i))

theorem straight_spill {count : Nat} (hcount : count ≤ 16) (hsize : count ≤ m.stack.size) :
    ∃ last, Straight image m (spillCode count) last ∧ last.stack.size = m.stack.size ∧
      last.gpr .rbp = m.gpr .rbp ∧ (∀ r, last.xmm r = m.xmm r) ∧
      (∀ i < count, last.stack[m.stack.size - 1 - i]? = some (some (.bits (m.xmm (reg i)).bits))) ∧
      ∀ i < m.stack.size - count, last.stack[i]? = m.stack[i]? := by
  induction count with
  | zero => exact ⟨m, .nil, rfl, rfl, fun _ => rfl, fun i hi => absurd hi (Nat.not_lt_zero i), fun _ _ => rfl⟩
  | succ count ih =>
    obtain ⟨next, hnext, hn, hframe, hxmm, hheld, hbelow⟩ := ih (by omega) (by omega)
    have hlt : m.stack.size - 1 - count < next.stack.size := by omega
    have hdisp := toInt_spillCell (i := count) (by omega) next.stack.size (by omega)
    rw [hn] at hdisp
    obtain ⟨last, hlast, hstack, hframe', hxmm'⟩ := @straight_storeCell image next _ .rsp
      (spillCell count).disp m.stack.size (m.stack.size - 1 - count) (reg count)
      (by rw [gpr_rsp, hn]) hdisp hlt
    refine ⟨last, ?_, ?_, hframe'.trans hframe, fun r => (hxmm' r).trans (hxmm r), ?_, ?_⟩
    · rw [spillCode, List.range_succ, List.map_append]
      exact hnext.append hlast
    · rw [hstack, Array.size_setIfInBounds, hn]
    · intro i hi
      rw [hstack]
      by_cases heq : i = count
      · subst heq
        rw [Array.getElem?_setIfInBounds_self_of_lt hlt, hxmm]
      · rw [Array.getElem?_setIfInBounds_ne (by omega)]
        exact hheld i (by omega)
    · intro i hi
      rw [hstack, Array.getElem?_setIfInBounds_ne (by omega)]
      exact hbelow i (by omega)

theorem straight_load {base count : Nat} (hcount : base + count ≤ 16)
    (hsize : base + count ≤ m.stack.size) {values : Nat → Double}
    (hheld : ∀ i < count,
      m.stack[m.stack.size - 1 - (base + i)]? = some (some (.bits (values i).bits))) :
    ∃ last, Straight image m (loadCode base count) last ∧ last.stack = m.stack ∧
      last.gpr .rbp = m.gpr .rbp ∧ (∀ i < count, last.xmm (reg i) = values i) ∧
      ∀ i, count ≤ i → i < 16 → last.xmm (reg i) = m.xmm (reg i) := by
  induction count with
  | zero => exact ⟨m, .nil, rfl, rfl, fun i hi => absurd hi (Nat.not_lt_zero i), fun _ _ _ => rfl⟩
  | succ count ih =>
    obtain ⟨next, hnext, hstack, hframe, hlow, hhigh⟩ :=
      ih (by omega) (by omega) fun i hi => hheld i (by omega)
    have hdisp := toInt_spillCell (i := base + count) (by omega) m.stack.size (by omega)
    have hcell := hheld count (by omega)
    rw [← hstack] at hcell
    obtain ⟨last, hlast, hw⟩ := @straight_loadCell image next _ .rsp (spillCell (base + count)).disp
      m.stack.size (m.stack.size - 1 - (base + count)) (values count) (reg count)
      (by rw [gpr_rsp, hstack]) hdisp (by rw [hstack] at hcell ⊢; exact hcell)
    refine ⟨last, ?_, hw.stack.trans hstack, hw.frame.trans hframe, ?_, ?_⟩
    · rw [loadCode, List.range_succ, List.map_append]
      exact hnext.append hlast
    · intro i hi
      by_cases heq : i = count
      · subst heq
        exact hw.self
      · rw [hw.of_ne fun h => heq ((reg_inj (by omega) (by omega)).1 h).symm]
        exact hlow i (by omega)
    · intro i hi hlt
      rw [hw.of_ne fun h => by
        have := (reg_inj (by omega) (by omega)).1 h
        omega]
      exact hhigh i (by omega) hlt

end Machine
end ScalarJit
