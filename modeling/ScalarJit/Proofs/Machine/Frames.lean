import ScalarJit.Proofs.Machine.Functions

/-! # Frames

What the code of a function does to the stack, whichever way it is gone through. The function saves the
frame pointer and makes room for its variables; around a call it makes room for the registers that are
held, below the variables; and at its end it gives everything back. Between these the stack pointer
stays where it is, and nothing outside the frame is written.

Code is gone through from any machine that stands in the frame: `Passes` says that all is well on the
way if all is well behind the code. Its rules follow how expressions are lowered. -/

namespace ScalarJit

open X86 (Gpr Instr Mem Xmm)
open Codegen (callArea frameSize Framed Item Lowers LowersFunction Phrase Pool Target reg slotMem
  spillCell)

def Word.address? (bottom : Int) : Word → Option Int
  | .stack depth => some (bottom - 8 * depth)
  | _ => none

namespace X86.Instr

def isReserve : Instr → Bool
  | .reserve _ => true
  | _ => false

def isFree : Instr → Bool
  | .free _ => true
  | _ => false

end X86.Instr

def Function.prologue (f : Function) : List Instr :=
  [.push .rbp, .move .rbp .rsp] ++
    if 0 < roundUp 16 (8 * f.slots) then [.reserve (Int32.ofNat (roundUp 16 (8 * f.slots)))] else []

def slotAt (rbp : Int) (slot : Nat) : Int := rbp - 8 * (slot + 1)

namespace Machine

/-! ### The rules -/

def rsp (bottom : Int) (m : Machine) : Int := bottom - 8 * m.depth

/-- An operand is the slot of a variable, between the stack pointer and the frame pointer. -/
def AtSlot (f : Function) (bottom : Int) (m : Machine) (mem : Mem) : Prop :=
  ∃ var v rbp, declaration? f.blocks var = some v ∧ mem.base = .rbp ∧
    (m.gpr .rbp).address? bottom = some rbp ∧ rbp + mem.disp.toInt = slotAt rbp v.slot ∧
    m.rsp bottom ≤ slotAt rbp v.slot ∧ slotAt rbp v.slot + 8 ≤ rbp

/-- An operand is a numbered cell above the stack pointer, below the frame and all slots in it. -/
def AtCell (f : Function) (bottom : Int) (m : Machine) (mem : Mem) (index : Nat) : Prop :=
  mem.base = .rsp ∧ mem.disp.toInt = 8 * index ∧
    ∃ rbp, (m.gpr .rbp).address? bottom = some rbp ∧
      m.rsp bottom + 8 * index + 8 ≤ rbp - roundUp 16 (8 * f.slots) ∧
      ∀ var v, declaration? f.blocks var = some v → m.rsp bottom + 8 * index + 8 ≤ slotAt rbp v.slot

/-- What has to hold where an instruction of a function is carried out. A register is spilled to the
cell with its number. -/
def Permitted (f : Function) (bottom : Int) (entry m : Machine) : Instr → Prop
  | .call _ => m.rsp bottom % 16 = 0
  | .ret => m.rsp bottom = entry.rsp bottom ∧ m.gpr .rbp = entry.gpr .rbp
  | .store mem r => AtSlot f bottom m mem ∨ AtCell f bottom m mem r.number.val
  | .sseLoad _ _ mem => (∃ literal, m.gpr mem.base = .bits literal) ∨ AtSlot f bottom m mem ∨
      ∃ index, AtCell f bottom m mem index
  | _ => True

/-- A machine in an activation of a function: `entry` is the machine that entered it, and `trace` has
the instructions that were carried out since then. -/
structure Disciplined (image : Image) (f : Function) (bottom : Int) (entry : Machine)
    (trace : List Instr) (m : Machine) : Prop where
  permitted : ∀ i after, image.fetch m.pc = .ok (i, after) → Permitted f bottom entry m i
  /-- The frame is set up before all else. -/
  begins : trace <+: f.prologue ∨ f.prologue <+: trace
  /-- Until it is given back, the frame has its size but for the room of a call. -/
  framed : ∀ more, trace = f.prologue ++ more → .move .rsp .rbp ∉ more →
    more.countP Instr.isReserve = more.countP Instr.isFree →
    ∃ rbp, (m.gpr .rbp).address? bottom = some rbp ∧ m.rsp bottom = rbp - roundUp 16 (8 * f.slots)

/-! ### Steps of an activation -/

/-- A step of an activation. A call is one step, which ends behind it with the stack and the frame
pointer as they were. -/
inductive Moves [HostAddresses] (image : Image) (m : Machine) : Instr → Machine → Prop
  | own {i : Instr} {after : UInt64} {next : Machine} (hi : image.fetch m.pc = .ok (i, after))
      (hcall : ∀ g, i ≠ .call g) (hret : i ≠ .ret) (hstep : m.step image = .ok (.running next)) :
      Moves image m i next
  | call {g : Gpr} {after : UInt64} {next : Machine} (hi : image.fetch m.pc = .ok (.call g, after))
      (hpc : next.pc = after) (hstack : next.stack = m.stack)
      (hframe : next.gpr .rbp = m.gpr .rbp) : Moves image m (.call g) next

inductive Walk [HostAddresses] (image : Image) : Machine → List Instr → Machine → Prop
  | nil {m : Machine} : Walk image m [] m
  | cons {m next last : Machine} {i : Instr} {trace : List Instr} (h : Moves image m i next)
      (rest : Walk image next trace last) : Walk image m (i :: trace) last

section
variable {image : Image} {m next last : Machine} {i j : Instr} {rest trace : List Instr}
    [HostAddresses]

theorem Walk.snoc (h : Walk image m trace next) (h' : Moves image next i last) :
    Walk image m (trace ++ [i]) last := by
  induction h with
  | nil => exact .cons h' .nil
  | cons hmove _ ih => exact .cons hmove (ih h')

omit [HostAddresses] in
theorem fetch_of_at (hat : image.At m.pc (i :: rest)) {after : UInt64}
    (h : image.fetch m.pc = .ok (j, after)) : j = i ∧ after = (m.past i).pc := by
  rw [hat.1] at h
  cases h
  exact ⟨rfl, rfl⟩

theorem Moves.eq_of_at (hat : image.At m.pc (i :: rest)) (h : Moves image m j next) : j = i := by
  cases h with
  | own hi _ _ _ => exact (fetch_of_at hat hi).1
  | call hi _ _ _ => exact (fetch_of_at hat hi).1

theorem Straight.eq_of_execute (h : Straight image m [i] last)
    (hexec : (m.past i).execute image i = .ok (.running next)) :
    next = last ∧ next.pc = (m.past i).pc := by
  cases h with
  | cons hstep hpc hnil =>
    cases hnil
    rw [hstep] at hexec
    cases hexec
    exact ⟨rfl, hpc⟩

theorem Moves.execute (hat : image.At m.pc (i :: rest)) (h : Moves image m i next)
    (hcall : ∀ g, i ≠ .call g) : i ≠ .ret ∧ (m.past i).execute image i = .ok (.running next) := by
  cases h with
  | own _ _ hret hstep => exact ⟨hret, (step_of_at hat).symm.trans hstep⟩
  | @call g _ _ _ _ _ _ => exact absurd rfl (hcall g)

end

/-! ### Activations -/

structure Visit where
  image : Image
  address : SectionId → Nat → UInt64
  ctx : Codegen.Context
  pool : Pool
  bottom : Int
  entry : Machine
  callable : UInt64 → Prop

namespace Visit

abbrev f (w : Visit) : Function := w.ctx.function

def below (w : Visit) : Array (Option Word) := w.entry.stack.push (some (w.entry.gpr .rbp))

/-- What an activation needs to be able to go on behind its calls, and its caller behind it. -/
def Intact (w : Visit) (m : Machine) : Instr → Prop
  | .call g => ∃ word, m.gpr g = .bits word ∧ w.callable word
  | .ret => m.stack = w.entry.stack
  | _ => True

structure Good (w : Visit) (trace : List Instr) (m : Machine) : Prop where
  disciplined : Disciplined w.image w.f w.bottom w.entry trace m
  intact : ∀ i after, w.image.fetch m.pc = .ok (i, after) → w.Intact m i

/-- After what has been carried out so far, all goes well from a machine on. -/
def Safe [HostAddresses] (w : Visit) (sofar : List Instr → Prop) (m : Machine) : Prop :=
  ∀ before, sofar before → ∀ trace last, Walk w.image m trace last → w.Good (before ++ trace) last

structure Fits [HostAddresses] (w : Visit) : Prop where
  framed : Framed w.f
  aligned : w.entry.rsp w.bottom % 16 = 8
  functions : ∀ callee id, w.ctx.sections.lookup callee = some id → w.callable (w.address id 0)
  host : ∀ h : HostFunction, w.callable h.address

/-- A machine in the frame, with room for some cells below it. -/
structure Standing (w : Visit) (extra : Nat) (m : Machine) : Prop where
  frame : m.gpr .rbp = .stack w.below.size
  size : m.stack.size = w.below.size + frameSize w.f / 8 + extra
  below : ∀ i < w.below.size, m.stack[i]? = w.below[i]?

/-- The frame was set up, and there is room for some cells, made by one instruction. -/
def Inside (w : Visit) (extra : Nat) (trace : List Instr) : Prop :=
  ∃ more, trace = w.f.prologue ++ more ∧ .move .rsp .rbp ∉ more ∧
    more.countP Instr.isReserve = more.countP Instr.isFree + if extra = 0 then 0 else 1

def Leaving (w : Visit) (trace : List Instr) : Prop :=
  ∃ more, trace = w.f.prologue ++ more ∧ .move .rsp .rbp ∈ more

section
variable {w : Visit} {m next : Machine} {extra : Nat} {i : Instr} {code rest : List Instr}
  {sofar : List Instr → Prop}

theorem Safe.step [HostAddresses] (later : List Instr → Prop) (hat : w.image.At m.pc (i :: rest))
    (hnow : ∀ before, sofar before → w.Good before m)
    (hthen : ∀ before, sofar before → later (before ++ [i]))
    (hnext : ∀ next, Moves w.image m i next → w.Safe later next) : w.Safe sofar m := by
  intro before hbefore trace last hwalk
  cases hwalk with
  | nil =>
    rw [List.append_nil]
    exact hnow before hbefore
  | cons hmove hrest =>
    obtain rfl := hmove.eq_of_at hat
    have hgood := hnext _ hmove _ (hthen before hbefore) _ _ hrest
    rwa [List.append_assoc] at hgood

theorem good_of_at {trace : List Instr} (hat : w.image.At m.pc (i :: rest))
    (hpermitted : Permitted w.f w.bottom w.entry m i) (hintact : w.Intact m i)
    (hbegins : trace <+: w.f.prologue ∨ w.f.prologue <+: trace)
    (hframed : ∀ more, trace = w.f.prologue ++ more → .move .rsp .rbp ∉ more →
      more.countP Instr.isReserve = more.countP Instr.isFree →
      ∃ rbp, (m.gpr .rbp).address? w.bottom = some rbp ∧
        m.rsp w.bottom = rbp - roundUp 16 (8 * w.f.slots)) : w.Good trace m where
  disciplined :=
    { permitted := fun j after hj => by
        rw [(fetch_of_at hat hj).1]
        exact hpermitted
      begins := hbegins
      framed := hframed }
  intact j after hj := by
    rw [(fetch_of_at hat hj).1]
    exact hintact

/-! ### Machines in the frame -/

theorem Fits.frameSize_eq [HostAddresses] (h : w.Fits) :
    frameSize w.f = roundUp 16 (8 * w.f.slots) ∧ frameSize w.f = 16 * ((w.f.slots + 1) / 2) := by
  have hsmall := h.framed.small
  have heq := Codegen.frameSize_eq w.f
  exact ⟨rfl, by omega⟩

theorem Standing.rbp (h : w.Standing extra m) :
    (m.gpr .rbp).address? w.bottom = some (w.bottom - 8 * w.below.size) := by
  rw [h.frame]
  rfl

theorem Standing.rsp [HostAddresses] (h : w.Standing extra m) (hw : w.Fits) :
    m.rsp w.bottom = w.bottom - 8 * w.below.size - roundUp 16 (8 * w.f.slots) - 8 * extra := by
  obtain ⟨hround, hframe⟩ := hw.frameSize_eq
  rw [Machine.rsp, depth, h.size, ← hround]
  omega

theorem Standing.good [HostAddresses] (h : w.Standing extra m) (hw : w.Fits)
    (hat : w.image.At m.pc (i :: rest))
    (hpermitted : Permitted w.f w.bottom w.entry m i) (hintact : w.Intact m i)
    {before : List Instr} (hbefore : w.Inside extra before) : w.Good before m := by
  obtain ⟨done, rfl, -, hcount⟩ := hbefore
  refine good_of_at hat hpermitted hintact (.inr (List.prefix_append ..)) ?_
  intro more hmore _ hbalanced
  obtain rfl := List.append_cancel_left hmore
  -- While there is room for cells, one reservation has not been given back.
  have hzero : extra = 0 := by
    split at hcount
    · assumption
    · omega
  refine ⟨_, h.rbp, ?_⟩
  rw [h.rsp hw, hzero]
  omega

theorem Standing.of_eq (h : w.Standing extra m) (hstack : next.stack = m.stack)
    (hframe : next.gpr .rbp = m.gpr .rbp) : w.Standing extra next where
  frame := hframe.trans h.frame
  size := by rw [hstack, h.size]
  below := by rw [hstack]; exact h.below

theorem Standing.set (h : w.Standing extra m) {cell : Nat} {x : Option Word}
    (hcell : w.below.size ≤ cell) (hstack : next.stack = m.stack.setIfInBounds cell x)
    (hframe : next.gpr .rbp = m.gpr .rbp) : w.Standing extra next where
  frame := hframe.trans h.frame
  size := by rw [hstack, Array.size_setIfInBounds, h.size]
  below := by
    intro i hi
    rw [hstack, Array.getElem?_setIfInBounds_ne (by omega)]
    exact h.below i hi

/-! ### Passing code -/

/-- All is well along code if all is well behind it. -/
def Passes [HostAddresses] (w : Visit) (extra : Nat) (code : List Instr) : Prop :=
  ∀ m rest, w.image.At m.pc (code ++ rest) → w.Standing extra m →
    (∀ next, w.Standing extra next → next.pc = behind m.pc (codeSize code) →
      w.Safe (w.Inside extra) next) → w.Safe (w.Inside extra) m

theorem Passes.nil [HostAddresses] : w.Passes extra [] := fun m _ _ hm hnext => hnext m hm
    (behind_zero _).symm

theorem Passes.append [HostAddresses] {more : List Instr} (h : w.Passes extra code)
    (h' : w.Passes extra more) :
    w.Passes extra (code ++ more) := by
  intro m rest hat hm hnext
  rw [List.append_assoc] at hat
  obtain ⟨-, hmore⟩ := Image.at_append.1 hat
  refine h m _ hat hm fun mid hmid hpc => ?_
  rw [← hpc] at hmore
  refine h' mid rest hmore hmid fun next hstanding hlast => hnext next hstanding ?_
  rw [hlast, hpc, behind_add, codeSize_append]

theorem Passes.ite [HostAddresses] {c : Prop} [Decidable c] (h : c → w.Passes extra code) :
    w.Passes extra (if c then code else []) := by
  split
  · exact h ‹c›
  · exact .nil

def Quiet (i : Instr) : Prop :=
  i.isReserve = false ∧ i.isFree = false ∧ i ≠ .move .rsp .rbp

theorem Inside.snoc {trace : List Instr} (h : w.Inside extra trace) (hi : Quiet i) :
    w.Inside extra (trace ++ [i]) := by
  obtain ⟨more, rfl, hmove, hcount⟩ := h
  obtain ⟨hreserve, hfree, hne⟩ := hi
  refine ⟨more ++ [i], List.append_assoc .., ?_, ?_⟩
  · rw [List.mem_append, List.mem_singleton]
    rintro (hmem | heq)
    · exact hmove hmem
    · exact hne heq.symm
  · simp only [List.countP_append, List.countP_singleton, hreserve, hfree, hcount]
    simp

theorem Standing.safe [HostAddresses] {Q : Machine → Prop} (h : w.Standing extra m) (hw : w.Fits)
    (hat : w.image.At m.pc (i :: rest)) (hquiet : Quiet i)
    (hpermitted : Permitted w.f w.bottom w.entry m i) (hintact : w.Intact m i)
    (hkeeps : ∀ next, Moves w.image m i next → w.Standing extra next ∧ Q next)
    (hnext : ∀ next, w.Standing extra next → Q next → w.Safe (w.Inside extra) next) :
    w.Safe (w.Inside extra) m := by
  refine Safe.step _ hat (fun _ => h.good hw hat hpermitted hintact) (fun _ hb => hb.snoc hquiet) ?_
  intro next hmove
  obtain ⟨hstanding, hq⟩ := hkeeps next hmove
  exact hnext next hstanding hq

theorem passes_single [HostAddresses] (hw : w.Fits) (hquiet : Quiet i)
    (hpermitted : ∀ m, w.Standing extra m → Permitted w.f w.bottom w.entry m i ∧ w.Intact m i)
    (hkeeps : ∀ m next rest, w.Standing extra m → w.image.At m.pc (i :: rest) →
      Moves w.image m i next → w.Standing extra next ∧ next.pc = (m.past i).pc) :
    w.Passes extra [i] := by
  intro m rest hat hm hnext
  obtain ⟨hp, hi⟩ := hpermitted m hm
  exact hm.safe hw hat hquiet hp hi (fun next => hkeeps m next rest hm hat) hnext

def still : Instr → Bool
  | .sse .. | .compare .. | .sseLoad .movSd .. => true
  | .moveImm dst _ => dst ≠ .rsp && dst ≠ .rbp
  | _ => false

theorem quiet_of_still (h : still i = true) : Quiet i := by
  cases i with
  | move | reserve | free => cases h
  | _ => exact ⟨rfl, rfl, by simp⟩

end

end Visit

theorem Moves.still [HostAddresses] {image : Image} {m next : Machine} {i : Instr}
    {rest : List Instr}
    (hat : image.At m.pc (i :: rest)) (hstill : Visit.still i = true) (h : Moves image m i next) :
    next.pc = (m.past i).pc ∧ next.stack = m.stack ∧ next.gpr .rbp = m.gpr .rbp := by
  have hexec := (h.execute hat fun g hg => by rw [hg] at hstill; cases hstill).2
  cases i with
  | sse op dst src =>
    cases hexec
    cases op <;> exact ⟨rfl, rfl, rfl⟩
  | compare dst src predicate =>
    cases hexec
    exact ⟨rfl, rfl, rfl⟩
  | moveImm dst imm =>
    simp only [Visit.still, Bool.and_eq_true, decide_eq_true_eq] at hstill
    obtain ⟨last, hlast, hstack, hframe, -⟩ := @straight_moveImm image m _ dst hstill.1 hstill.2 imm
    obtain ⟨rfl, hpc⟩ := hlast.eq_of_execute hexec
    exact ⟨hpc, hstack, hframe⟩
  | sseLoad op dst src =>
    cases op with
    | movSd =>
      rw [Machine.execute] at hexec
      cases hload : (m.past (.sseLoad .movSd dst src)).load image src with
      | error fault =>
        rw [hload] at hexec
        cases hexec
      | ok x =>
        rw [hload] at hexec
        cases hexec
        exact ⟨rfl, rfl, rfl⟩
    | _ => cases hstill
  | _ => cases hstill

namespace Visit

section
variable {w : Visit} {m next : Machine} {extra : Nat} {i : Instr} {code rest : List Instr}
    [HostAddresses]

theorem passes_still (hw : w.Fits) (hstill : still i = true)
    (hpermitted : ∀ m, w.Standing extra m → Permitted w.f w.bottom w.entry m i) :
    w.Passes extra [i] := by
  have hintact (m : Machine) : w.Intact m i := by
    cases i <;> first | exact trivial | cases hstill
  refine passes_single hw (quiet_of_still hstill) (fun m hm => ⟨hpermitted m hm, hintact m⟩) ?_
  intro m next rest hm hat hmove
  obtain ⟨hpc, hstack, hframe⟩ := hmove.still hat hstill
  exact ⟨hm.of_eq hstack hframe, hpc⟩

theorem passes_sse (hw : w.Fits) (op : X86.SseOp) (dst src : Xmm) :
    w.Passes extra [.sse op dst src] :=
  passes_still hw rfl fun _ _ => trivial

/-! ### Slots -/

theorem Standing.atSlot (h : w.Standing extra m) (hw : w.Fits) {var : VarRef} {v : Variable}
    (hv : declaration? w.f.blocks var = some v) : AtSlot w.f w.bottom m (slotMem v.slot) := by
  have hdisp := toInt_slotMem hw.framed hv 0
  have hslot := hw.framed.slot_lt var v hv
  obtain ⟨hround, hframe⟩ := hw.frameSize_eq
  refine ⟨var, v, _, hv, rfl, h.rbp, ?_, ?_, ?_⟩
  · rw [slotAt]
    omega
  · rw [h.rsp hw, slotAt]
    omega
  · rw [slotAt]
    omega

theorem passes_load (hw : w.Fits) {var : VarRef} {v : Variable}
    (hv : declaration? w.f.blocks var = some v) (r : Xmm) :
    w.Passes extra [.sseLoad .movSd r (slotMem v.slot)] :=
  passes_still hw rfl fun _ hm => .inr (.inl (hm.atSlot hw hv))

theorem passes_store (hw : w.Fits) {var : VarRef} {v : Variable}
    (hv : declaration? w.f.blocks var = some v) (r : Xmm) :
    w.Passes extra [.store (slotMem v.slot) r] := by
  refine passes_single hw ⟨rfl, rfl, by simp⟩ (fun m hm => ⟨.inl (hm.atSlot hw hv), trivial⟩) ?_
  intro m next rest hm hat hmove
  have hslot := hw.framed.slot_lt var v hv
  have hle := slots_le_frame hw.framed
  have hsize := hm.size
  obtain ⟨last, hlast, hstack, hframe, -⟩ := @straight_storeCell w.image m _ .rbp
    (slotMem v.slot).disp _ (w.below.size + v.slot) r hm.frame (toInt_slotMem hw.framed hv _) (by omega)
  obtain ⟨rfl, hpc⟩ := hlast.eq_of_execute (hmove.execute hat (by simp)).2
  exact ⟨hm.set (Nat.le_add_right ..) hstack hframe, hpc⟩

/-! ### Cells -/

theorem Standing.atCell (h : w.Standing extra m) (hw : w.Fits) {index : Nat} (hindex : index < extra)
    (hlt : index < 16) : AtCell w.f w.bottom m (spillCell index) index := by
  obtain ⟨hround, hframe⟩ := hw.frameSize_eq
  have hrsp := h.rsp hw
  have hdisp : (spillCell index).disp.toInt = 8 * index := by
    rw [spillCell, Int32.toInt_ofNat_of_lt (by omega)]
    omega
  refine ⟨rfl, hdisp, _, h.rbp, by omega, fun var v hv => ?_⟩
  have hslot := hw.framed.slot_lt var v hv
  rw [slotAt]
  omega

theorem passes_loadCell (hw : w.Fits) {index : Nat} (hindex : index < extra) (hlt : index < 16)
    (r : Xmm) : w.Passes extra [.sseLoad .movSd r (spillCell index)] :=
  passes_still hw rfl fun _ hm => .inr (.inr ⟨index, hm.atCell hw hindex hlt⟩)

theorem passes_storeCell (hw : w.Fits) {index : Nat} (hindex : index < extra) (hlt : index < 16) :
    w.Passes extra [.store (spillCell index) (reg index)] := by
  have hnumber : (reg index).number.val = index := Nat.mod_eq_of_lt hlt
  refine passes_single hw ⟨rfl, rfl, by simp⟩ (fun m hm => ⟨.inr ?_, trivial⟩) ?_
  · rw [hnumber]
    exact hm.atCell hw hindex hlt
  intro m next rest hm hat hmove
  have hsize := hm.size
  obtain ⟨last, hlast, hstack, hframe, -⟩ := @straight_storeCell w.image m _ .rsp
    (spillCell index).disp m.stack.size (m.stack.size - 1 - index) (reg index) (gpr_rsp m)
    (toInt_spillCell hlt _ (by omega)) (by omega)
  obtain ⟨rfl, hpc⟩ := hlast.eq_of_execute (hmove.execute hat (by simp)).2
  exact ⟨hm.set (by omega) hstack hframe, hpc⟩

theorem passes_range {count : Nat} {make : Nat → Instr}
    (h : ∀ index < count, w.Passes extra [make index]) :
    w.Passes extra ((List.range count).map make) := by
  induction count with
  | zero => exact .nil
  | succ count ih =>
    rw [List.range_succ, List.map_append]
    exact (ih fun index hindex => h index (Nat.lt_succ_of_lt hindex)).append (h count (Nat.lt_succ_self _))

/-! ### Literals and calls -/

theorem passes_linked (hw : w.Fits) {imm : UInt64} (hquiet : Quiet i)
    (hpermitted : ∀ m, w.Standing extra m → m.gpr .rax = .bits imm →
      Permitted w.f w.bottom w.entry m i ∧ w.Intact m i)
    (hkeeps : ∀ m next rest, w.Standing extra m → w.image.At m.pc (i :: rest) →
      Moves w.image m i next → w.Standing extra next ∧ next.pc = (m.past i).pc) :
    w.Passes extra [.moveImm .rax imm, i] := by
  intro m rest hat hm hnext
  refine hm.safe (Q := fun next => next.pc = (m.past (.moveImm .rax imm)).pc ∧
    next.gpr .rax = .bits imm) hw hat ⟨rfl, rfl, by simp⟩ trivial trivial ?_ ?_
  · intro next hmove
    obtain ⟨last, hlast, hstack, hframe, -, hrax, -⟩ :=
      @straight_moveImm w.image m _ .rax (by decide) (by decide) imm
    obtain ⟨rfl, hpc⟩ := hlast.eq_of_execute (hmove.execute hat (by simp)).2
    exact ⟨hm.of_eq hstack hframe, hpc, hrax⟩
  · rintro next hstanding ⟨hpc, hrax⟩
    have hat' : w.image.At next.pc (i :: rest) := by
      rw [hpc]
      exact hat.2
    obtain ⟨hp, hi⟩ := hpermitted next hstanding hrax
    refine hstanding.safe hw hat' hquiet hp hi (fun last => hkeeps next last rest hstanding hat') ?_
    intro last hlast hpc'
    refine hnext last hlast ?_
    rw [hpc', past, hpc, past, behind_add]
    rfl

theorem passes_constant (hw : w.Fits) (imm : UInt64) (r : Xmm) :
    w.Passes extra [.moveImm .rax imm, .sseLoad .movSd r ⟨.rax, 0⟩] := by
  refine passes_linked hw ⟨rfl, rfl, by simp⟩ (fun m _ hrax => ⟨.inl ⟨imm, hrax⟩, trivial⟩) ?_
  intro m next rest hm hat hmove
  obtain ⟨hpc, hstack, hframe⟩ := hmove.still hat rfl
  exact ⟨hm.of_eq hstack hframe, hpc⟩

theorem Standing.aligned (h : w.Standing extra m) (hw : w.Fits) (heven : extra % 2 = 0) :
    m.rsp w.bottom % 16 = 0 := by
  obtain ⟨hround, hframe⟩ := hw.frameSize_eq
  have hentry := hw.aligned
  have hsize : w.below.size = w.entry.depth + 1 := Array.size_push _
  rw [Machine.rsp] at hentry
  rw [h.rsp hw, hsize, ← hround, hframe]
  omega

theorem passes_callRax (hw : w.Fits) (heven : extra % 2 = 0) {imm : UInt64}
    (himm : w.callable imm) : w.Passes extra [.moveImm .rax imm, .call .rax] := by
  refine passes_linked hw ⟨rfl, rfl, by simp⟩
    (fun m hm hrax => ⟨hm.aligned hw heven, imm, hrax, himm⟩) ?_
  intro m next rest hm hat hmove
  cases hmove with
  | own _ hcall _ _ => exact absurd rfl (hcall .rax)
  | call hi hpc hstack hframe =>
    exact ⟨hm.of_eq hstack hframe, hpc.trans (fetch_of_at hat hi).2⟩

theorem passes_target (hw : w.Fits) (heven : extra % 2 = 0) {target : Target}
    (h : ∀ id, target = .code id → w.callable (w.address id 0)) :
    w.Passes extra (resolved w.address (Codegen.targetItems target)) := by
  cases target with
  | code id => exact passes_callRax hw heven (h id rfl)
  | host hf =>
    rw [resolved_targetItems_host, List.append_assoc]
    exact .append (.ite fun _ => passes_still hw rfl fun _ _ => trivial)
      (passes_callRax hw heven (hw.host hf))

/-! ### The room of a call -/

omit [HostAddresses] in
theorem Inside.reserve {trace : List Instr} (h : w.Inside 0 trace) (hextra : extra ≠ 0)
    (bytes : Int32) : w.Inside extra (trace ++ [.reserve bytes]) := by
  obtain ⟨more, rfl, hmove, hcount⟩ := h
  refine ⟨more ++ [.reserve bytes], List.append_assoc .., by simpa using hmove, ?_⟩
  rw [if_pos rfl] at hcount
  rw [if_neg hextra]
  simp [Instr.isReserve, Instr.isFree, hcount]

omit [HostAddresses] in
theorem Inside.free {trace : List Instr} (h : w.Inside extra trace) (hextra : extra ≠ 0)
    (bytes : Int32) : w.Inside 0 (trace ++ [.free bytes]) := by
  obtain ⟨more, rfl, hmove, hcount⟩ := h
  refine ⟨more ++ [.free bytes], List.append_assoc .., by simpa using hmove, ?_⟩
  rw [if_neg hextra] at hcount
  simp [Instr.isReserve, Instr.isFree, hcount]

theorem Standing.reserve (h : w.Standing 0 m) {bytes : Nat} (hbytes : bytes % 8 = 0)
    (hlt : bytes < 0x80000000) (hat : w.image.At m.pc (.reserve (Int32.ofNat bytes) :: rest))
    (hmove : Moves w.image m (.reserve (Int32.ofNat bytes)) next) :
    w.Standing (bytes / 8) next ∧ next.pc = (m.past (.reserve (Int32.ofNat bytes))).pc := by
  obtain ⟨last, hlast, hstack, hframe, -⟩ := @straight_reserve w.image m _ bytes hbytes hlt
  obtain ⟨rfl, hpc⟩ := hlast.eq_of_execute (hmove.execute hat (by simp)).2
  refine ⟨⟨hframe.trans h.frame, ?_, fun i hi => ?_⟩, hpc⟩
  · rw [hstack, Array.size_append, Array.size_replicate, h.size]
    omega
  · have hsize := h.size
    rw [hstack, Array.getElem?_append_left (by omega)]
    exact h.below i hi

theorem Standing.free {bytes : Nat} (h : w.Standing (bytes / 8) m) (hbytes : bytes % 8 = 0)
    (hlt : bytes < 0x80000000) (hat : w.image.At m.pc (.free (Int32.ofNat bytes) :: rest))
    (hmove : Moves w.image m (.free (Int32.ofNat bytes)) next) :
    w.Standing 0 next ∧ next.pc = (m.past (.free (Int32.ofNat bytes))).pc := by
  have hsize := h.size
  obtain ⟨last, hlast, hstack, hframe, -⟩ := @straight_free w.image m _ bytes hbytes hlt (by omega)
  obtain ⟨rfl, hpc⟩ := hlast.eq_of_execute (hmove.execute hat (by simp)).2
  refine ⟨⟨hframe.trans h.frame, ?_, fun i hi => ?_⟩, hpc⟩
  · rw [hstack, Array.size_shrink]
    omega
  · rw [hstack, ← Array.getElem?_toList, Array.toList_shrink, List.getElem?_take, if_pos (by omega),
      Array.getElem?_toList]
    exact h.below i hi

theorem passes_room (hw : w.Fits) {bytes : Nat} (hbytes : bytes % 8 = 0) (hlt : bytes < 0x80000000)
    (h : w.Passes (bytes / 8) code) :
    w.Passes 0 ((if 0 < bytes then [.reserve (Int32.ofNat bytes)] else []) ++
      (code ++ if 0 < bytes then [.free (Int32.ofNat bytes)] else [])) := by
  by_cases hpos : 0 < bytes
  · have hextra : bytes / 8 ≠ 0 := by omega
    rw [if_pos hpos, if_pos hpos]
    intro m rest hat hm hnext
    rw [List.append_assoc, List.append_assoc] at hat
    refine Safe.step _ hat (fun _ => hm.good hw hat trivial trivial)
      (fun _ hb => hb.reserve hextra _) fun inner hmove => ?_
    obtain ⟨hinner, hpc⟩ := hm.reserve hbytes hlt hat hmove
    have hat' : w.image.At inner.pc (code ++ (.free (Int32.ofNat bytes) :: rest)) := by
      rw [hpc]
      exact hat.2
    refine h inner _ hat' hinner fun last hlast hpc' => ?_
    have hat'' : w.image.At last.pc (.free (Int32.ofNat bytes) :: rest) := by
      rw [hpc']
      exact (Image.at_append.1 hat').2
    refine Safe.step _ hat'' (fun _ => hlast.good hw hat'' trivial trivial)
      (fun _ hb => hb.free hextra _) fun final hmove' => ?_
    obtain ⟨hfinal, hpc''⟩ := hlast.free hbytes hlt hat'' hmove'
    refine hnext final hfinal ?_
    rw [hpc'', past, hpc', hpc, past, behind_add, behind_add, codeSize_append, codeSize_append]
    rfl
  · have hzero : bytes / 8 = 0 := by omega
    rw [if_neg hpos, if_neg hpos, List.nil_append, List.append_nil]
    rwa [hzero] at h

theorem passes_call (hw : w.Fits) {target : Target} {k count : Nat} {returns : Bool}
    (hcount : k + count ≤ 16) (h : ∀ id, target = .code id → w.callable (w.address id 0)) :
    w.Passes 0 (resolved w.address (Codegen.callItems target k count returns)) := by
  have harea := callArea_eq (k + count)
  have hmid : w.Passes (callArea (k + count) / 8) (spillCode (k + count) ++ (loadCode k count ++
      (resolved w.address (Codegen.targetItems target) ++ ((if returns ∧ reg k ≠ Xmm.result then
        [.sse .movSd (reg k) .result] else []) ++ loadCode 0 k)))) := by
    refine .append (passes_range fun index hindex => passes_storeCell hw (by omega) (by omega)) ?_
    refine .append (passes_range fun index hindex => passes_loadCell hw (by omega) (by omega) _) ?_
    refine .append (passes_target hw (by omega) h) ?_
    refine .append (.ite fun _ => passes_sse hw _ _ _) ?_
    exact passes_range fun index hindex => passes_loadCell hw (by omega) (by omega) _
  have hroom := passes_room hw (by omega) (by omega) hmid
  rw [resolved_callItems]
  simpa only [prepareCode, finishCode, List.append_assoc] using hroom

/-! ### Branches -/

theorem Standing.branch (h : w.Standing extra m) {distance : Nat} (hlt : distance < 0x80000000)
    (hat : w.image.At m.pc (.jumpIfZero (Int32.ofNat distance) :: rest))
    (hmove : Moves w.image m (.jumpIfZero (Int32.ofNat distance)) next) :
    w.Standing extra next ∧ (next.pc = behind m.pc 6 ∨ next.pc = behind m.pc (6 + distance)) := by
  have hexec := (hmove.execute hat (by simp)).2
  rw [Machine.execute] at hexec
  split at hexec
  · cases hexec
    refine ⟨h.of_eq rfl rfl, .inr ?_⟩
    rw [← behind_add, signExtend_ofNat hlt]
    rfl
  · cases hexec
    exact ⟨h.of_eq rfl rfl, .inl rfl⟩

theorem Standing.jump (h : w.Standing extra m) {distance : Nat} (hlt : distance < 0x80000000)
    (hat : w.image.At m.pc (.jump (Int32.ofNat distance) :: rest))
    (hmove : Moves w.image m (.jump (Int32.ofNat distance)) next) :
    w.Standing extra next ∧ next.pc = behind m.pc (5 + distance) := by
  have hexec := (hmove.execute hat (by simp)).2
  cases hexec
  refine ⟨h.of_eq rfl rfl, ?_⟩
  rw [← behind_add, signExtend_ofNat hlt]
  rfl

theorem passes_branches (hw : w.Fits) {onTrue onFalse : List Instr}
    (ht : w.Passes extra onTrue) (hf : w.Passes extra onFalse)
    (hts : codeSize onTrue + 5 < 0x80000000) (hfs : codeSize onFalse < 0x80000000) :
    w.Passes extra (.jumpIfZero (Int32.ofNat (codeSize onTrue + 5)) ::
      (onTrue ++ (.jump (Int32.ofNat (codeSize onFalse)) :: onFalse))) := by
  intro m rest hat hm hnext
  have hsize : codeSize (.jumpIfZero (Int32.ofNat (codeSize onTrue + 5)) ::
      (onTrue ++ (.jump (Int32.ofNat (codeSize onFalse)) :: onFalse))) =
        6 + (codeSize onTrue + (5 + codeSize onFalse)) := by
    rw [codeSize_cons, codeSize_append, codeSize_cons]
    rfl
  rw [hsize] at hnext
  have hcode : w.image.At (behind m.pc 6)
      (onTrue ++ (.jump (Int32.ofNat (codeSize onFalse)) :: (onFalse ++ rest))) := by
    have hrest := hat.2
    rw [List.append_eq, List.append_assoc] at hrest
    exact hrest
  obtain ⟨-, hjump⟩ := Image.at_append.1 hcode
  -- The machine is not asked which way it goes.
  refine hm.safe hw hat ⟨rfl, rfl, by simp⟩ trivial trivial (fun _ => hm.branch hts hat) ?_
  rintro next hstanding (hpc | hpc)
  · rw [← hpc] at hcode hjump
    refine ht next _ hcode hstanding fun last hlast hpc' => ?_
    rw [← hpc'] at hjump
    refine hlast.safe hw hjump ⟨rfl, rfl, by simp⟩ trivial trivial (fun _ => hlast.jump hfs hjump) ?_
    intro final hfinal hpc''
    refine hnext final hfinal ?_
    rw [hpc'', hpc', hpc, behind_add, behind_add]
  · have hother : w.image.At next.pc (onFalse ++ rest) := by
      have hbehind := hjump.2
      rw [behind_add, behind_add] at hbehind
      have hlen : (Instr.jump (Int32.ofNat (codeSize onFalse))).encode.length = 5 := rfl
      rw [hpc, ← Nat.add_assoc]
      rwa [hlen] at hbehind
    have hlast : 6 + (codeSize onTrue + 5) + codeSize onFalse =
        6 + (codeSize onTrue + (5 + codeSize onFalse)) := by omega
    refine hf next _ hother hstanding fun last hstanding hpc' => hnext last hstanding ?_
    rw [hpc', hpc, behind_add, hlast]

theorem passes_conditional (hw : w.Fits) {k : Nat} {cs ts fs : List Item}
    (hc : w.Passes extra (resolved w.address cs)) (ht : w.Passes extra (resolved w.address ts))
    (hf : w.Passes extra (resolved w.address fs)) (hts : Codegen.sizeOf ts + 5 < 0x80000000)
    (hfs : Codegen.sizeOf fs < 0x80000000) :
    w.Passes extra (resolved w.address (Codegen.conditionalItems k cs ts fs)) := by
  rw [← codeSize_resolved w.address] at hts hfs
  have hbranches := passes_branches hw ht hf hts hfs
  have hclear : w.Passes extra [.sse .xorPd (reg (k + 1)) (reg (k + 1))] := passes_sse hw _ _ _
  have htest := hclear.append (passes_sse hw .uComISd (reg k) (reg (k + 1)))
  rw [codeSize_resolved, codeSize_resolved] at hbranches
  rw [Codegen.conditionalItems, resolved_append, resolved_append, resolved_append]
  exact hc.append (htest.append hbranches)

/-! ### Returns -/

omit [HostAddresses] in
theorem Leaving.snoc {trace : List Instr} (h : w.Leaving trace) : w.Leaving (trace ++ [i]) := by
  obtain ⟨more, rfl, hmem⟩ := h
  exact ⟨more ++ [i], List.append_assoc .., List.mem_append_left _ hmem⟩

omit [HostAddresses] in
theorem Inside.leave {trace : List Instr} (h : w.Inside extra trace) :
    w.Leaving (trace ++ [.move .rsp .rbp]) := by
  obtain ⟨more, rfl, -, -⟩ := h
  exact ⟨more ++ [.move .rsp .rbp], List.append_assoc .., by simp⟩

omit [HostAddresses] in
theorem Leaving.good {trace : List Instr} (h : w.Leaving trace) (hat : w.image.At m.pc (i :: rest))
    (hpermitted : Permitted w.f w.bottom w.entry m i) (hintact : w.Intact m i) : w.Good trace m := by
  obtain ⟨done, rfl, hmem⟩ := h
  refine good_of_at hat hpermitted hintact (.inr (List.prefix_append ..)) ?_
  intro more hmore hnot
  rw [List.append_cancel_left hmore] at hmem
  exact absurd hmem hnot

theorem Standing.move (h : w.Standing extra m) (hat : w.image.At m.pc (.move .rsp .rbp :: rest))
    (hmove : Moves w.image m (.move .rsp .rbp) next) :
    next.stack = w.below ∧ next.pc = (m.past (.move .rsp .rbp)).pc := by
  have hexec := (hmove.execute hat (by simp)).2
  have hsize := h.size
  rw [Machine.execute, gpr_past, h.frame] at hexec
  cases hexec
  refine ⟨?_, pc_setDepth _⟩
  rw [stack_setDepth_of_le (by rw [stack_past]; omega)]
  exact shrink_eq h.below

theorem pop_below (hstack : m.stack = w.below) (hat : w.image.At m.pc (.pop .rbp :: rest))
    (hmove : Moves w.image m (.pop .rbp) next) :
    next.stack = w.entry.stack ∧ next.gpr .rbp = w.entry.gpr .rbp ∧
      next.pc = (m.past (.pop .rbp)).pc := by
  have hexec := (hmove.execute hat (by simp)).2
  have hpop : (m.past (.pop .rbp)).pop =
      .ok (w.entry.gpr .rbp, { m.past (.pop .rbp) with stack := w.entry.stack }) := by
    rw [pop, stack_past, hstack, below]
    simp
  rw [Machine.execute, hpop] at hexec
  cases hexec
  exact ⟨rfl, Vector.getElem_set_self _, rfl⟩

theorem passes_deliver (hw : w.Fits) (value : Option Nat) :
    w.Passes extra (resolved w.address (Codegen.deliverItems value)) := by
  cases value with
  | none => exact passes_sse hw _ _ _
  | some k =>
    rw [Codegen.deliverItems]
    split
    · exact passes_sse hw _ _ _
    · exact .nil

theorem Standing.safe_return (h : w.Standing 0 m) (hw : w.Fits) {value : Option Nat}
    (hat : w.image.At m.pc (resolved w.address (Codegen.returnItems value) ++ rest)) :
    w.Safe (w.Inside 0) m := by
  rw [Codegen.returnItems, resolved_append, List.append_assoc] at hat
  obtain ⟨-, hleave⟩ := Image.at_append.1 hat
  refine passes_deliver hw value m _ hat h fun a ha hpc => ?_
  have hata : w.image.At a.pc (.move .rsp .rbp :: .pop .rbp :: .ret :: rest) := by
    rw [hpc]
    exact hleave
  refine Safe.step _ hata (fun _ => ha.good hw hata trivial trivial) (fun _ hb => hb.leave) ?_
  intro b hmove
  obtain ⟨hstack, hpc⟩ := ha.move hata hmove
  have hatb : w.image.At b.pc (.pop .rbp :: .ret :: rest) := by
    rw [hpc]
    exact hata.2
  refine Safe.step _ hatb (fun _ hb => hb.good hatb trivial trivial) (fun _ hb => hb.snoc) ?_
  intro c hpop
  obtain ⟨hentry, hframe, hpc⟩ := pop_below hstack hatb hpop
  have hatc : w.image.At c.pc (.ret :: rest) := by
    rw [hpc]
    exact hatb.2
  have hrsp : c.rsp w.bottom = w.entry.rsp w.bottom := by
    rw [Machine.rsp, Machine.rsp, depth, depth, hentry]
  refine Safe.step _ hatc (fun _ hb => hb.good hatc ⟨hrsp, hframe⟩ hentry) (fun _ hb => hb.snoc) ?_
  -- A return is a step of the caller, so there is nothing behind it.
  intro d hret
  exact absurd rfl (hret.execute hatc (by simp)).1

theorem passes_return (hw : w.Fits) (value : Option Nat) :
    w.Passes 0 (resolved w.address (Codegen.returnItems value)) :=
  fun _ _ hat hm _ => hm.safe_return hw hat

/-! ### Expressions -/

theorem passes_comparison (hw : w.Fits) {predicate : X86.Predicate} {swapped : Bool} {offset k : Nat} :
    w.Passes extra (resolved w.address
      (Codegen.comparisonItems w.ctx predicate swapped offset k)) := by
  have hcompare (dst src : Xmm) : w.Passes extra [.compare dst src predicate] :=
    passes_still hw rfl fun _ _ => trivial
  rw [Codegen.comparisonItems, resolved_append, resolved_append]
  refine .append ?_ ((passes_constant hw _ _).append (passes_sse hw _ _ _))
  cases swapped with
  | true => exact (hcompare _ _).append (passes_sse hw _ _ _)
  | false => exact hcompare _ _

theorem passes_of_lowers (hw : w.Fits) {depth k : Nat} {phrase : Phrase} {items : List Item}
    (h : Lowers w.ctx w.pool depth k phrase items) : w.Passes 0 (resolved w.address items) := by
  -- `Passes` composes over appended code, so a rule passes its parts and then its own items.
  induction h with
  | literal hk hx => exact passes_constant hw _ _
  | read hk hv => exact passes_load hw hv _
  | write hk hv hvalue h ih =>
    rw [resolved_append]
    exact ih.append (passes_store hw hv _)
  | bind hk hv hvalue h ih =>
    rw [resolved_append]
    exact ih.append (passes_store hw hv _)
  | arithmetic hk hop h ih =>
    rw [resolved_append]
    exact ih.append (passes_sse hw _ _ _)
  | comparison hk hop hx h ih =>
    rw [resolved_append]
    exact ih.append (passes_comparison hw)
  | power hk hop h ih =>
    rw [resolved_append]
    exact ih.append (passes_call hw hk fun id hid => by cases hid)
  | plus h ih => exact ih
  | minus hk hvalue hx h ih =>
    rw [resolved_append, resolved_append]
    exact ih.append ((passes_constant hw _ _).append (passes_sse hw _ _ _))
  | call ht hargs hk hr h ih =>
    rw [resolved_append]
    refine ih.append (passes_call hw hk fun id hid => ?_)
    subst hid
    cases ht with
    | code hlookup => exact hw.functions _ id hlookup
  | leave => exact passes_return hw none
  | leaveWith hk hvalue h ih =>
    rw [resolved_append]
    exact ih.append (passes_return hw _)
  | ifThen hk hvalue hts hc ht ihc iht =>
    refine passes_conditional hw ihc iht ?_ hts (Codegen.sizeOf_missingItems_lt _ _)
    rw [Codegen.missingItems]
    split
    · exact passes_sse hw _ _ _
    · exact .nil
  | ifThenElse hk hvalue hsame hts hfs hc ht hf ihc iht ihf =>
    exact passes_conditional hw ihc iht ihf hts hfs
  | block hb h ih => exact ih
  | noArguments => exact .nil
  | argument hk hvalue h hrest ih ihrest =>
    rw [resolved_append]
    exact ih.append ihrest
  | noStatements => exact .nil
  | lastStatement hvalue h ih => exact ih
  | statement h hrest ih ihrest =>
    rw [resolved_append]
    exact ih.append ihrest

/-! ### Functions -/

omit [HostAddresses] in
theorem good_early {trace : List Instr} (hat : w.image.At m.pc (i :: rest))
    (hpermitted : Permitted w.f w.bottom w.entry m i) (hintact : w.Intact m i)
    (htrace : trace <+: w.f.prologue) (hlt : trace.length < w.f.prologue.length) : w.Good trace m := by
  refine good_of_at hat hpermitted hintact (.inl htrace) ?_
  rintro more rfl - -
  rw [List.length_append] at hlt
  omega

theorem push_entry (hat : w.image.At w.entry.pc (.push .rbp :: rest))
    (hmove : Moves w.image w.entry (.push .rbp) next) :
    next.stack = w.below ∧ next.pc = (w.entry.past (.push .rbp)).pc := by
  have hexec := (hmove.execute hat (by simp)).2
  cases hexec
  exact ⟨rfl, rfl⟩

theorem set_frame (hstack : m.stack = w.below) (hat : w.image.At m.pc (.move .rbp .rsp :: rest))
    (hmove : Moves w.image m (.move .rbp .rsp) next) :
    next.stack = w.below ∧ next.gpr .rbp = .stack w.below.size ∧
      next.pc = (m.past (.move .rbp .rsp)).pc := by
  have hexec := (hmove.execute hat (by simp)).2
  cases hexec
  refine ⟨hstack, ?_, rfl⟩
  rw [← hstack]
  exact Vector.getElem_set_self _

theorem safe_enter (hat : w.image.At w.entry.pc (.push .rbp :: .move .rbp .rsp :: code))
    (hnext : ∀ m, m.stack = w.below → m.gpr .rbp = .stack w.below.size → w.image.At m.pc code →
      w.Safe (fun before => before = [.push .rbp, .move .rbp .rsp]) m) :
    w.Safe (fun before => before = []) w.entry := by
  obtain ⟨more, hprologue⟩ : ∃ more, w.f.prologue = [.push .rbp, .move .rbp .rsp] ++ more := ⟨_, rfl⟩
  refine Safe.step (fun before => before = [.push .rbp]) hat ?_ ?_ fun a hpush => ?_
  · rintro _ rfl
    exact good_early hat trivial trivial (List.nil_prefix ..) (by rw [hprologue]; simp)
  · rintro _ rfl
    rfl
  obtain ⟨hstack, hpc⟩ := push_entry hat hpush
  have hata : w.image.At a.pc (.move .rbp .rsp :: code) := by
    rw [hpc]
    exact hat.2
  refine Safe.step (fun before => before = [.push .rbp, .move .rbp .rsp]) hata ?_ ?_ fun b hset => ?_
  · rintro _ rfl
    exact good_early hata trivial trivial (by rw [hprologue]; simp) (by rw [hprologue]; simp)
  · rintro _ rfl
    rfl
  obtain ⟨hstack, hframe, hpc⟩ := set_frame hstack hata hset
  refine hnext b hstack hframe ?_
  rw [hpc]
  exact hata.2

theorem safe_frame (hw : w.Fits) (hstack : m.stack = w.below)
    (hframe : m.gpr .rbp = .stack w.below.size)
    (hat : w.image.At m.pc (resolved w.address (if 0 < frameSize w.f then
      [.plain (.reserve (Int32.ofNat (frameSize w.f)))] else []) ++ code))
    (hnext : ∀ next, w.Standing 0 next → w.image.At next.pc code → w.Safe (w.Inside 0) next) :
    w.Safe (fun before => before = [.push .rbp, .move .rbp .rsp]) m := by
  obtain ⟨hround, hsize⟩ := hw.frameSize_eq
  have hsmall := hw.framed.small
  have hinside {trace : List Instr} (htrace : trace = w.f.prologue) : w.Inside 0 trace :=
    ⟨[], by rw [htrace, List.append_nil], by simp, rfl⟩
  by_cases hpos : 0 < frameSize w.f
  · rw [if_pos hpos] at hat
    have hprologue : w.f.prologue =
        [.push .rbp, .move .rbp .rsp] ++ [.reserve (Int32.ofNat (frameSize w.f))] := by
      rw [Function.prologue, ← hround, if_pos hpos]
    refine Safe.step (w.Inside 0) hat ?_ ?_ fun next hmove => ?_
    · rintro _ rfl
      refine good_early hat trivial trivial ?_ ?_
      · rw [hprologue]
        exact List.prefix_append ..
      · rw [hprologue]
        exact Nat.lt_succ_self 2
    · rintro _ rfl
      exact hinside hprologue.symm
    · obtain ⟨last, hlast, hroom, hkept, -⟩ :=
        @straight_reserve w.image m _ (frameSize w.f) (by omega) (by omega)
      obtain ⟨rfl, hpc⟩ := hlast.eq_of_execute (hmove.execute hat (by simp [Item.resolve])).2
      refine hnext next ⟨hkept.trans hframe, ?_, fun i hi => ?_⟩ ?_
      · rw [hroom, hstack, Array.size_append, Array.size_replicate]
        rfl
      · rw [hroom, hstack, Array.getElem?_append_left hi]
      · rw [hpc]
        exact hat.2
  · -- Without slots there is nothing to reserve, and the frame is there already.
    have hzero : frameSize w.f / 8 = 0 := by omega
    have hprologue : w.f.prologue = [.push .rbp, .move .rbp .rsp] := by
      rw [Function.prologue, ← hround, if_neg hpos]
      rfl
    rw [if_neg hpos] at hat
    have hsafe : w.Safe (w.Inside 0) m := by
      refine hnext m ⟨hframe, ?_, fun i _ => by rw [hstack]⟩ hat
      rw [hstack, hzero]
      rfl
    rintro before rfl
    exact hsafe _ (hinside hprologue.symm)

theorem passes_storeArguments (hw : w.Fits) {count : Nat}
    (hargs : ∀ index < count, ∃ v, declaration? w.f.blocks ⟨rootBlock, index⟩ = some v) :
    w.Passes 0 (resolved w.address (Codegen.storeItems w.f 0 count)) := by
  have hcode : resolved w.address (Codegen.storeItems w.f 0 count) = (List.range count).map fun index =>
      Instr.store (slotMem (Codegen.argumentSlot w.f index)) (reg index) := by
    rw [Codegen.storeItems, resolved, List.map_map, List.range_eq_range']
    rfl
  rw [hcode]
  refine passes_range fun index hindex => ?_
  obtain ⟨v, hv⟩ := hargs index hindex
  have hslot : Codegen.argumentSlot w.f index = v.slot := by
    rw [Codegen.argumentSlot, hv]
    rfl
  rw [hslot]
  exact passes_store hw hv _

theorem safe_function (hw : w.Fits) {items : List Item} (h : LowersFunction w.ctx w.pool items)
    (hargs : ∀ index < w.f.signature.args.length,
      ∃ v, declaration? w.f.blocks ⟨rootBlock, index⟩ = some v)
    (hat : w.image.At w.entry.pc (resolved w.address items)) :
    w.Safe (fun before => before = []) w.entry := by
  obtain ⟨is, hbody, rfl⟩ := h.body
  rw [Codegen.functionItems, resolved_append, resolved_append] at hat
  refine safe_enter hat fun b hstack hframe hatb => ?_
  refine safe_frame hw hstack hframe hatb fun c hc hatc => ?_
  rw [resolved_append, resolved_append, ← List.append_assoc] at hatc
  have hpasses := (passes_storeArguments hw hargs).append (passes_of_lowers hw hbody)
  refine hpasses c _ hatc hc fun d hd hpc => ?_
  have hatd : w.image.At d.pc (resolved w.address
      (Codegen.returnItems (if w.f.body.hasValue then some 0 else none)) ++ []) := by
    rw [hpc, List.append_nil]
    exact (Image.at_append.1 hatc).2
  exact hd.safe_return hw hatd

end
end Visit
end Machine
end ScalarJit
