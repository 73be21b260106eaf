import ScalarJit.Proofs.Codegen.Shape
import ScalarJit.Proofs.Machine.Agreement

/-! # The sections of a compiled program

Each section with code has the shape that its function gives it, and no other section has links. -/

namespace ScalarJit

open X86 (Instr Gpr encodeAll startOf BranchesLand)

namespace Codegen

/-! ### Branches -/

def Item.straight : Item → Bool
  | .plain (.jump _) => false
  | .plain (.jumpIfZero _) => false
  | _ => true

/-- Branches lead past items that follow: a jump past any, a branch on zero past a jump and those
before it. -/
inductive Lands : List Item → Prop
  | nil : Lands []
  | step {i : Item} {items : List Item} (hi : i.straight = true) (h : Lands items) :
      Lands (i :: items)
  | jump {skipped rest : List Item} (hsize : sizeOf skipped < 0x80000000)
      (h : Lands (skipped ++ rest)) :
      Lands (.plain (.jump (Int32.ofNat (sizeOf skipped))) :: (skipped ++ rest))
  | jumpIfZero {skipped rest : List Item} {past : Int32} (hsize : sizeOf skipped + 5 < 0x80000000)
      (h : Lands (skipped ++ .plain (.jump past) :: rest)) :
      Lands (.plain (.jumpIfZero (Int32.ofNat (sizeOf skipped + 5))) ::
        (skipped ++ .plain (.jump past) :: rest))

section
variable {ctx : Context} {pool : Pool} {items more : List Item}

theorem Lands.append (h : Lands items) (h' : Lands more) : Lands (items ++ more) := by
  induction h with
  | nil => exact h'
  | step hi _ ih => exact .step hi ih
  | @jump skipped rest hsize _ ih =>
    rw [List.append_assoc] at ih
    rw [List.cons_append, List.append_assoc]
    exact .jump hsize ih
  | @jumpIfZero skipped rest past hsize _ ih =>
    rw [List.append_assoc, List.cons_append] at ih
    rw [List.cons_append, List.append_assoc, List.cons_append]
    exact .jumpIfZero hsize ih

theorem lands_straight (h : ∀ i ∈ items, i.straight = true) : Lands items := by
  induction items with
  | nil => exact .nil
  | cons i items ih =>
    exact .step (h i List.mem_cons_self) (ih fun j hj => h j (List.mem_cons_of_mem _ hj))

theorem straight_returnItems (value : Option Nat) : ∀ i ∈ returnItems value, i.straight = true := by
  cases value with
  | none => simp [returnItems, deliverItems, Item.straight]
  | some k => by_cases hk : reg k = X86.Xmm.result <;>
      simp [returnItems, deliverItems, Item.straight, hk]

theorem straight_targetItems [HostAddresses]
    (t : Target) : ∀ i ∈ targetItems t, i.straight = true := by
  cases t with
  | code id => simp [targetItems, Item.straight]
  | host f => cases hf : f.takesContext <;> simp [targetItems, Item.straight, hf]

theorem straight_callItems [HostAddresses] (t : Target) (k count : Nat) (returns : Bool) :
    ∀ i ∈ callItems t k count returns, i.straight = true := by
  have htarget := straight_targetItems t
  intro i hi
  simp only [callItems, spillItems, argumentItems, resultItems, reloadItems, List.mem_append,
    List.mem_ite_nil_right, List.mem_singleton, List.mem_map] at hi
  obtain ⟨-, rfl⟩ | ⟨_, -, rfl⟩ | ⟨_, -, rfl⟩ | hi | ⟨-, rfl⟩ | ⟨_, -, rfl⟩ | ⟨-, rfl⟩ := hi
  · rfl
  · rfl
  · rfl
  · exact htarget i hi
  · rfl
  · rfl
  · rfl

theorem lands_conditionalItems {condition onTrue onFalse : List Item} (k : Nat)
    (hc : Lands condition) (ht : Lands onTrue) (hf : Lands onFalse)
    (hts : sizeOf onTrue + 5 < 0x80000000) (hfs : sizeOf onFalse < 0x80000000) :
    Lands (conditionalItems k condition onTrue onFalse) := by
  have hjump : Lands (.plain (.jump (Int32.ofNat (sizeOf onFalse))) :: (onFalse ++ [])) :=
    .jump hfs (by rwa [List.append_nil])
  rw [List.append_nil] at hjump
  exact hc.append (.step rfl (.step rfl (.jumpIfZero hts (ht.append hjump))))

theorem Lowers.lands [HostAddresses] {d k : Nat} {phrase : Phrase}
    (h : Lowers ctx pool d k phrase items) :
    Lands items := by
  induction h with
  | literal => exact .step rfl (.step rfl .nil)
  | read => exact .step rfl .nil
  | write _ _ _ _ ih => exact ih.append (.step rfl .nil)
  | bind _ _ _ _ ih => exact ih.append (.step rfl .nil)
  | arithmetic _ _ _ ih => exact ih.append (.step rfl .nil)
  | @comparison _ _ _ _ _ swapped _ _ _ _ _ _ _ ih =>
    refine ih.append (lands_straight ?_)
    cases swapped <;> simp [comparisonItems, constantItems, Item.straight]
  | power _ _ _ ih => exact ih.append (lands_straight (straight_callItems _ _ _ _))
  | plus _ ih => exact ih
  | minus _ _ _ _ ih => exact ih.append (.step rfl (.step rfl (.step rfl .nil)))
  | call _ _ _ _ _ ih => exact ih.append (lands_straight (straight_callItems _ _ _ _))
  | leave => exact lands_straight (straight_returnItems none)
  | leaveWith _ _ _ ih => exact ih.append (lands_straight (straight_returnItems _))
  | @ifThen _ k _ onTrue _ _ _ _ hts _ _ ihc iht =>
    have hmissing : ∀ i ∈ missingItems onTrue.hasValue k, i.straight = true := by
      cases onTrue.hasValue <;> simp [missingItems, Item.straight]
    exact lands_conditionalItems k ihc iht (lands_straight hmissing) hts
      (sizeOf_missingItems_lt _ k)
  | ifThenElse _ _ _ hts hfs _ _ _ ihc iht ihf => exact lands_conditionalItems _ ihc iht ihf hts hfs
  | block _ _ ih => exact ih
  | noArguments => exact .nil
  | argument _ _ _ _ ih ihrest => exact ih.append ihrest
  | noStatements => exact .nil
  | lastStatement _ _ ih => exact ih
  | statement _ _ ih ihrest => exact ih.append ihrest

structure LeadsTo (items : List Item) (index target : Nat) (offset : Int32) : Prop where
  behind : index < target
  distance : (sizeOf (items.take target) : Int) = sizeOf (items.take (index + 1)) + offset.toInt

theorem LeadsTo.cons {index target : Nat} {offset : Int32} (h : LeadsTo items index target offset)
    (i : Item) : LeadsTo (i :: items) (index + 1) (target + 1) offset where
  behind := Nat.succ_lt_succ h.behind
  distance := by
    have hdistance := h.distance
    rw [List.take_succ_cons, List.take_succ_cons, sizeOf_cons, sizeOf_cons]
    omega

theorem leadsTo_over (i : Item) (skipped rest : List Item) (hsize : sizeOf skipped < 0x80000000) :
    LeadsTo (i :: (skipped ++ rest)) 0 (skipped.length + 1) (Int32.ofNat (sizeOf skipped)) where
  behind := Nat.succ_pos _
  distance := by
    rw [Int32.toInt_ofNat_of_lt hsize, List.take_succ_cons, List.take_left, sizeOf_cons]
    simp [sizeOf_cons]

theorem Lands.jump_leadsTo (h : Lands items) {index : Nat} {offset : Int32}
    (hi : items[index]? = some (.plain (.jump offset))) :
    ∃ target, target ≤ items.length ∧ LeadsTo items index target offset := by
  induction h generalizing index with
  | nil => cases hi
  | step hstraight _ ih =>
    cases index with
    | zero =>
      cases hi
      cases hstraight
    | succ index =>
      obtain ⟨target, hle, hleads⟩ := ih hi
      exact ⟨target + 1, Nat.succ_le_succ hle, hleads.cons _⟩
  | @jump skipped rest hsize _ ih =>
    cases index with
    | zero =>
      cases hi
      exact ⟨skipped.length + 1, by simp, leadsTo_over _ skipped rest hsize⟩
    | succ index =>
      obtain ⟨target, hle, hleads⟩ := ih hi
      exact ⟨target + 1, Nat.succ_le_succ hle, hleads.cons _⟩
  | jumpIfZero _ _ ih =>
    cases index with
    | zero => cases hi
    | succ index =>
      obtain ⟨target, hle, hleads⟩ := ih hi
      exact ⟨target + 1, Nat.succ_le_succ hle, hleads.cons _⟩

theorem Lands.jumpIfZero_leadsTo (h : Lands items) {index : Nat} {offset : Int32}
    (hi : items[index]? = some (.plain (.jumpIfZero offset))) :
    ∃ target, index < target ∧ (∃ past, items[target]? = some (.plain (.jump past))) ∧
      LeadsTo items index (target + 1) offset := by
  induction h generalizing index with
  | nil => cases hi
  | step hstraight _ ih =>
    cases index with
    | zero =>
      cases hi
      cases hstraight
    | succ index =>
      obtain ⟨target, hlt, hpast, hleads⟩ := ih hi
      exact ⟨target + 1, Nat.succ_lt_succ hlt, hpast, hleads.cons _⟩
  | jump _ _ ih =>
    cases index with
    | zero => cases hi
    | succ index =>
      obtain ⟨target, hlt, hpast, hleads⟩ := ih hi
      exact ⟨target + 1, Nat.succ_lt_succ hlt, hpast, hleads.cons _⟩
  | @jumpIfZero skipped rest past hsize _ ih =>
    cases index with
    | zero =>
      cases hi
      have hsizes : sizeOf (skipped ++ [.plain (.jump past)]) = sizeOf skipped + 5 := by
        rw [sizeOf_append, sizeOf_jump]
      have hleads := leadsTo_over (.plain (.jumpIfZero (Int32.ofNat (sizeOf skipped + 5))))
        (skipped ++ [.plain (.jump past)]) rest (by omega)
      rw [hsizes, List.append_assoc, List.length_append] at hleads
      exact ⟨skipped.length + 1, Nat.succ_pos _, ⟨past, by simp⟩, hleads⟩
    | succ index =>
      obtain ⟨target, hlt, hpast, hleads⟩ := ih hi
      exact ⟨target + 1, Nat.succ_lt_succ hlt, hpast, hleads.cons _⟩

theorem startOf_emittedAll (items : List Item) (index : Nat) :
    startOf (emittedAll items) index = sizeOf (items.take index) := by
  rw [startOf, sizeOf, bytesOf_eq, emittedAll, emittedAll, List.map_take]

theorem getElem?_emittedAll {index : Nat} {i : Item} (hi : items[index]? = some i) :
    (emittedAll items)[index]? = some i.emitted := by
  rw [emittedAll, List.getElem?_map, hi]
  rfl

theorem plain_of_emittedAll {index : Nat} {i : Instr} (hi : (emittedAll items)[index]? = some i)
    (hne : i ≠ .moveImm .rax 0) : items[index]? = some (.plain i) := by
  rw [emittedAll, List.getElem?_map, Option.map_eq_some_iff] at hi
  obtain ⟨item, hitem, rfl⟩ := hi
  cases item with
  | plain i => exact hitem
  | linked target offset => exact absurd rfl hne

theorem Lands.branchesLand {last : List Item} (hitems : Lands items)
    (hlast : ∀ i ∈ last, i.straight = true) (hne : last ≠ []) :
    BranchesLand (emittedAll (items ++ last)) := by
  have hbefore : ∀ {index : Nat} {i : Instr}, (Item.plain i).straight = false →
      (emittedAll (items ++ last))[index]? = some i → items[index]? = some (.plain i) := by
    intro index i hbranch hi
    have hitem := plain_of_emittedAll hi (by rintro rfl; cases hbranch)
    rw [List.getElem?_append] at hitem
    split at hitem
    · exact hitem
    · have hstraight := hlast _ (List.mem_of_getElem? hitem)
      rw [hbranch] at hstraight
      cases hstraight
  have hlength : (emittedAll (items ++ last)).length = items.length + last.length := by
    rw [emittedAll, List.length_map, List.length_append]
  have hpos := List.length_pos_iff.2 hne
  have htake : ∀ n ≤ items.length, startOf (emittedAll (items ++ last)) n = sizeOf (items.take n) := by
    intro n hn
    rw [startOf_emittedAll, List.take_append_of_le_length hn]
  constructor
  · intro index offset hi
    obtain ⟨target, hle, hleads⟩ := hitems.jump_leadsTo (hbefore rfl hi)
    have hbehind := hleads.behind
    refine ⟨target, hbehind, by omega, ?_⟩
    rw [htake target hle, htake (index + 1) (by omega)]
    exact hleads.distance
  · intro index offset hi
    obtain ⟨target, hlt, ⟨past, hpast⟩, hleads⟩ := hitems.jumpIfZero_leadsTo (hbefore rfl hi)
    have hin : target < items.length := (List.getElem?_eq_some_iff.1 hpast).1
    refine ⟨target, hlt, by omega, ⟨past, ?_⟩, ?_⟩
    · rw [emittedAll, List.getElem?_map, List.getElem?_append_left hin, hpast]
      rfl
    · rw [htake (target + 1) hin, htake (index + 1) (by omega)]
      exact hleads.distance

theorem LowersFunction.branchesLand [HostAddresses] (h : LowersFunction ctx pool items) :
    BranchesLand (emittedAll items) := by
  obtain ⟨is, hlower, rfl⟩ := h.body
  have hentry : ∀ i ∈ Machine.entryItems ctx.function, i.straight = true := by
    intro i hi
    simp only [Machine.entryItems, storeItems, List.mem_append, List.mem_cons, List.not_mem_nil, or_false,
      List.mem_ite_nil_right, List.mem_map] at hi
    obtain (rfl | rfl) | ⟨-, rfl⟩ | ⟨_, -, rfl⟩ := hi <;> rfl
  rw [Machine.functionItems_eq, ← List.append_assoc]
  refine ((lands_straight hentry).append hlower.lands).branchesLand (straight_returnItems _) ?_
  rw [returnItems]
  exact List.append_ne_nil_of_right_ne_nil _ (List.cons_ne_nil _ _)

/-! ### Links of items -/

theorem mem_linksOf {home : SectionId} {position : Nat} {l : Link} :
    l ∈ linksOf home position items ↔ ∃ index target offset,
      items[index]? = some (.linked target offset) ∧
        l = ⟨home, position + sizeOf (items.take index) + 2, target, offset⟩ := by
  induction items generalizing position with
  | nil => simp [linksOf]
  | cons i items ih =>
    have hstep : ∀ index target offset, (i :: items)[index]? = some (.linked target offset) ∧
        l = ⟨home, position + sizeOf ((i :: items).take index) + 2, target, offset⟩ ↔
      (index = 0 ∧ i = .linked target offset ∧ l = ⟨home, position + 2, target, offset⟩) ∨
      ∃ before, index = before + 1 ∧ items[before]? = some (.linked target offset) ∧
        l = ⟨home, position + i.size + sizeOf (items.take before) + 2, target, offset⟩ := by
      intro index target offset
      cases index with
      | zero => simp
      | succ index => simp [sizeOf_cons, Nat.add_assoc]
    simp only [hstep]
    cases i with
    | plain i =>
      rw [linksOf, ih]
      constructor
      · rintro ⟨index, target, offset, hitem, hl⟩
        exact ⟨index + 1, target, offset, .inr ⟨index, rfl, hitem, hl⟩⟩
      · rintro ⟨_, target, offset, ⟨-, hi, -⟩ | ⟨index, -, hitem, hl⟩⟩
        · cases hi
        · exact ⟨index, target, offset, hitem, hl⟩
    | linked target offset =>
      rw [linksOf, List.mem_cons, ih, size_linked]
      constructor
      · rintro (hl | ⟨index, target, offset, hitem, hl⟩)
        · exact ⟨0, target, offset, .inl ⟨rfl, rfl, hl⟩⟩
        · exact ⟨index + 1, target, offset, .inr ⟨index, rfl, hitem, hl⟩⟩
      · rintro ⟨_, target, offset, ⟨-, hi, hl⟩ | ⟨index, -, hitem, hl⟩⟩
        · cases hi
          exact .inl hl
        · exact .inr ⟨index, target, offset, hitem, hl⟩

theorem pairwise_linksOf (home : SectionId) (position : Nat) (items : List Item) :
    (linksOf home position items).Pairwise fun l l' => l.pointerOffset + 8 ≤ l'.pointerOffset := by
  induction items generalizing position with
  | nil => exact .nil
  | cons i items ih =>
    cases i with
    | plain i => exact ih _
    | linked target offset =>
      refine .cons (fun l hl => ?_) (ih _)
      obtain ⟨index, target, offset, -, rfl⟩ := mem_linksOf.1 hl
      dsimp only
      omega

theorem zeros_of_linked {index offset : Nat} {target : SectionId}
    (hitem : items[index]? = some (.linked target offset)) :
    sizeOf (items.take index) + 2 + 8 ≤ (bytesOf items).length ∧
      ((bytesOf items).drop (sizeOf (items.take index) + 2)).take 8 = List.replicate 8 0 := by
  obtain ⟨hlt, hget⟩ := List.getElem?_eq_some_iff.1 hitem
  have htake : items.take (index + 1) = items.take index ++ [.linked target offset] := by
    rw [← hget, List.take_succ_eq_append_getElem hlt]
  have hend : X86.endOf (emittedAll items) index = sizeOf (items.take index) + 10 := by
    have hsize := startOf_emittedAll items (index + 1)
    rw [htake, sizeOf_append, sizeOf_cons, size_linked] at hsize
    exact hsize
  have hbytes := (X86.take_drop_endOf (getElem?_emittedAll hitem) (Image.encode_moveImm_rax 0)
    (Bytes.length_ofWord 0)).2
  rw [hend, ← bytesOf_eq] at hbytes
  refine ⟨?_, hbytes⟩
  have hlength := congrArg List.length hbytes
  rw [List.length_take, List.length_drop, Bytes.length_ofWord] at hlength
  omega

/-! ### Links of groups -/

structure Housed (ctx : Context) (pool : Pool) (o : Object) : Prop where
  pool : ∀ offset x, pool.Holds offset x →
    o.sections[ctx.poolSection]? = some ⟨.readOnly, pool.bytes⟩
  sections : ctx.sections = o.entries

variable {refs : List Reference} {o : Object}

theorem Wired.serves [HostAddresses] (h : Wired ctx pool refs items) (ho : Housed ctx pool o)
    (home : SectionId)
    (before : List Item) :
    List.Forall₂ (o.Serves (emittedAll (before ++ items))) refs
      (linksOf home (sizeOf before) items) := by
  have hget : ∀ (before items : List Item) (n : Nat) (i : Item), items[n]? = some i →
      (emittedAll (before ++ items))[before.length + n]? = some i.emitted := by
    intro before items n i hi
    rw [emittedAll, List.getElem?_map, List.getElem?_append_right (Nat.le_add_right _ _),
      Nat.add_sub_cancel_left, hi]
    rfl
  have hstart : ∀ before items : List Item,
      startOf (emittedAll (before ++ items)) before.length = sizeOf before := by
    intro before items
    rw [startOf_emittedAll, List.take_left]
  -- `before` grows by the items of each reference, so that the next one is found behind them.
  induction h generalizing before with
  | nil => exact .nil
  | @plain refs items i hi _ ih =>
    have hrest := ih (before ++ [.plain i])
    rw [List.append_assoc, sizeOf_append, sizeOf_cons] at hrest
    exact hrest
  | @constant refs items offset x dst hx _ ih =>
    have hrest := ih (before ++ [.linked ctx.poolSection offset,
      .plain (.sseLoad .movSd dst ⟨.rax, 0⟩)])
    rw [List.append_assoc, sizeOf_append, sizeOf_cons, sizeOf_cons, sizeOf_nil, Nat.add_zero,
      size_linked, ← Nat.add_assoc] at hrest
    obtain ⟨start, after, hbytes, hlength⟩ := hx.bytes
    refine .cons (@Object.Serves.constant o _ x _ before.length dst _ (hget before _ 0 (.linked _ _) rfl) ?_
      (hget before _ 1 (.plain _) rfl) (ho.pool _ _ hx) ?_ ?_) hrest
    · rw [hstart]
    · obtain ⟨index, rfl, -⟩ := hx
      exact Nat.dvd_mul_right 8 index
    · rw [hbytes, ← hlength, List.drop_left, ← Bytes.length_ofWord x.bits, List.take_left]
  | @function refs items name id hid _ ih =>
    have hrest := ih (before ++ [.linked id 0, .plain (.call .rax)])
    rw [List.append_assoc, sizeOf_append, sizeOf_cons, sizeOf_cons, sizeOf_nil, Nat.add_zero,
      size_linked, ← Nat.add_assoc] at hrest
    refine .cons (@Object.Serves.function o _ name _ before.length (hget before _ 0 (.linked _ _) rfl) ?_
      (hget before _ 1 (.plain _) rfl) ?_ rfl) hrest
    · rw [hstart]
    · rw [Object.entry?, ← ho.sections]
      exact hid
  | @host refs items f _ ih =>
    have hrest := ih (before ++ [.plain (.moveImm .rax f.address), .plain (.call .rax)])
    rw [List.append_assoc, sizeOf_append, sizeOf_cons, sizeOf_cons, sizeOf_nil, Nat.add_zero,
      ← Nat.add_assoc] at hrest
    exact hrest

inductive Grouped [HostAddresses] (items : List Item) : Nat → Instr → Prop
  | address {index : Nat} (f : HostFunction) : Grouped items index (.moveImm .rax f.address)
  | load {before offset : Nat} {target : SectionId} (dst : X86.Xmm)
      (h : items[before]? = some (.linked target offset)) :
      Grouped items (before + 1) (.sseLoad .movSd dst ⟨.rax, 0⟩)
  | call {before offset : Nat} {target : SectionId}
      (h : items[before]? = some (.linked target offset)) : Grouped items (before + 1) (.call .rax)
  | host {before : Nat} {f : HostFunction}
      (h : items[before]? = some (.plain (.moveImm .rax f.address))) :
      Grouped items (before + 1) (.call .rax)

theorem Grouped.cons [HostAddresses] {index : Nat} {i : Instr} (h : Grouped items index i)
    (first : Item) :
    Grouped (first :: items) (index + 1) i := by
  cases h with
  | address f => exact .address f
  | load dst h => exact .load dst h
  | call h => exact .call h
  | host h => exact .host h

theorem Wired.grouped [HostAddresses] (h : Wired ctx pool refs items) {index : Nat} {i : Instr}
    (hi : items[index]? = some (.plain i)) (hordinary : ordinary i = false) :
    Grouped items index i := by
  induction h generalizing index with
  | nil => cases hi
  | plain hplain _ ih =>
    cases index with
    | zero =>
      cases hi
      rw [hplain] at hordinary
      cases hordinary
    | succ index => exact (ih hi).cons _
  | constant _ _ ih =>
    rcases index with _ | _ | index
    · cases hi
    · cases hi
      exact .load _ rfl
    · exact ((ih hi).cons _).cons _
  | function _ _ ih =>
    rcases index with _ | _ | index
    · cases hi
    · cases hi
      exact .call rfl
    · exact ((ih hi).cons _).cons _
  | host f _ ih =>
    rcases index with _ | _ | index
    · cases hi
      exact .address f
    · cases hi
      exact .host rfl
    · exact ((ih hi).cons _).cons _

/-- Only items to be linked load zero into `rax`. -/
theorem Wired.linked [HostAddresses] (h : Wired ctx pool refs items) {index : Nat}
    (hi : (emittedAll items)[index]? = some (.moveImm .rax 0)) :
    ∃ target offset, items[index]? = some (.linked target offset) := by
  rw [emittedAll, List.getElem?_map, Option.map_eq_some_iff] at hi
  obtain ⟨item, hitem, hemitted⟩ := hi
  cases item with
  | linked target offset => exact ⟨target, offset, hitem⟩
  | plain i =>
    cases (hemitted : i = _)
    generalize hzero : (0 : UInt64) = zero at hitem
    cases h.grouped hitem rfl with
    | address f => exact absurd hzero.symm (HostAddresses.ne_zero f)

theorem Wired.loads [HostAddresses] (h : Wired ctx pool refs items) {index : Nat} {op : X86.SseOp}
    {dst : X86.Xmm}
    {disp : Int32} (hi : (emittedAll items)[index]? = some (.sseLoad op dst ⟨.rax, disp⟩)) :
    ∃ before, index = before + 1 ∧ (emittedAll items)[before]? = some (.moveImm .rax 0) := by
  have hitem := plain_of_emittedAll hi (by intro hne; cases hne)
  cases h.grouped hitem rfl with
  | load _ hbefore => exact ⟨_, rfl, getElem?_emittedAll hbefore⟩

theorem Wired.calls [HostAddresses] (h : Wired ctx pool refs items) {index : Nat} {target : Gpr}
    (hi : (emittedAll items)[index]? = some (.call target)) :
    target = .rax ∧ ∃ before, index = before + 1 ∧
      ((emittedAll items)[before]? = some (.moveImm .rax 0) ∨
        ∃ host : HostFunction, (emittedAll items)[before]? = some (.moveImm .rax host.address)) := by
  have hitem := plain_of_emittedAll hi (by intro hne; cases hne)
  cases h.grouped hitem rfl with
  | call hbefore => exact ⟨rfl, _, rfl, .inl (getElem?_emittedAll hbefore)⟩
  | host hbefore => exact ⟨rfl, _, rfl, .inr ⟨_, getElem?_emittedAll hbefore⟩⟩

/-! ### Links of functions in turn -/

theorem mem_linksFrom {home : SectionId} {code : List (List Item)} {l : Link}
    (h : l ∈ linksFrom home code) :
    ∃ n items, code[n]? = some items ∧ l ∈ linksOf (home + n) 0 items := by
  induction code generalizing home with
  | nil => cases h
  | cons items code ih =>
    rcases List.mem_append.1 h with h | h
    · exact ⟨0, items, rfl, h⟩
    · obtain ⟨n, more, hmore, hl⟩ := ih h
      rw [Nat.add_assoc, Nat.add_comm 1 n] at hl
      exact ⟨n + 1, more, hmore, hl⟩

theorem pointerSection_linksOf {home : SectionId} {position : Nat} {l : Link}
    (h : l ∈ linksOf home position items) : l.pointerSection = home := by
  obtain ⟨_, _, _, -, rfl⟩ := mem_linksOf.1 h
  rfl

theorem le_pointerSection_linksFrom {home : SectionId} {code : List (List Item)} {l : Link}
    (h : l ∈ linksFrom home code) : home ≤ l.pointerSection := by
  obtain ⟨n, items, -, hl⟩ := mem_linksFrom h
  rw [pointerSection_linksOf hl]
  exact Nat.le_add_right home n

theorem filter_linksFrom {home : SectionId} {code : List (List Item)} {n : Nat}
    (h : code[n]? = some items) :
    (linksFrom home code).filter (·.pointerSection == home + n) = linksOf (home + n) 0 items := by
  induction code generalizing home n with
  | nil => cases h
  | cons first code ih =>
    rw [linksFrom, List.filter_append]
    cases n with
    | zero =>
      cases h
      have hown : (linksOf home 0 items).filter (·.pointerSection == home) = linksOf home 0 items :=
        List.filter_eq_self.2 fun l hl => beq_iff_eq.2 (pointerSection_linksOf hl)
      have hothers : (linksFrom (home + 1) code).filter (·.pointerSection == home) = [] := by
        refine List.filter_eq_nil_iff.2 fun l hl heq => ?_
        have hle := le_pointerSection_linksFrom hl
        rw [beq_iff_eq.1 heq] at hle
        exact Nat.not_succ_le_self home hle
      rw [Nat.add_zero, hown, hothers, List.append_nil]
    | succ n =>
      have hfirst : (linksOf home 0 first).filter (·.pointerSection == home + (n + 1)) = [] := by
        refine List.filter_eq_nil_iff.2 fun l hl heq => ?_
        have hsame := (pointerSection_linksOf hl).symm.trans (beq_iff_eq.1 heq)
        exact Nat.ne_of_lt (Nat.lt_add_of_pos_right (Nat.succ_pos n)) hsame
      have hrest := @ih (home + 1) n h
      rw [Nat.add_assoc, Nat.add_comm 1 n] at hrest
      rw [hfirst, hrest, List.nil_append]

/-- Slots of links are apart: they are in different sections, or one ends before the other starts. -/
def Apart (l l' : Link) : Prop :=
  l.pointerSection ≠ l'.pointerSection ∨ l.pointerOffset + 8 ≤ l'.pointerOffset

theorem pairwise_linksFrom (home : SectionId) (code : List (List Item)) :
    (linksFrom home code).Pairwise Apart := by
  induction code generalizing home with
  | nil => exact .nil
  | cons items code ih =>
    refine List.pairwise_append.2 ⟨(pairwise_linksOf home 0 items).imp .inr, ih (home + 1), ?_⟩
    intro l hl l' hl'
    refine .inl ?_
    rw [pointerSection_linksOf hl]
    exact Nat.ne_of_lt (le_pointerSection_linksFrom hl')

end
end Codegen

/-! ### Programs -/

theorem lookup_of_mem {α : Type} {entries : List (Named α)} {name : String} {a : α}
    (hnodup : (entries.map (·.1)).Nodup) (h : (name, a) ∈ entries) : entries.lookup name = some a := by
  induction entries with
  | nil => cases h
  | cons entry rest ih =>
    obtain ⟨hfirst, hrest⟩ := List.nodup_cons.1 hnodup
    rcases List.mem_cons.1 h with rfl | h
    · rw [List.lookup_cons_self]
    · have hne : (name == entry.1) = false := by
        rw [beq_eq_false_iff_ne]
        rintro rfl
        exact hfirst (List.mem_map.2 ⟨_, h, rfl⟩)
      rw [List.lookup_cons, hne]
      exact ih hrest h

namespace Program
namespace Lowered

open Codegen

variable {p : Program} {o : Object} {pool : Pool} {code : List (List Item)} [HostAddresses]

theorem function_of_code (h : p.Lowered o pool code) (hp : p.Ordered) {id : SectionId}
    {items : List Item} (hitems : code[id]? = some items) :
    ∃ name f, o.entries[id]? = some (name, id) ∧ p.function? name = some f ∧
      LowersFunction ⟨f, id, p.functions.length, o.entries⟩ pool items := by
  have hid : id < (Named.sort p.functions).length := by
    rw [← h.functions.length_eq]
    exact (List.getElem?_eq_some_iff.1 hitems).1
  obtain ⟨⟨name, f⟩, hentry⟩ : ∃ entry, (Named.sort p.functions)[id]? = some entry :=
    ⟨_, List.getElem?_eq_getElem hid⟩
  obtain ⟨found, hfound, hlower⟩ := h.functions.getElem hentry
  rw [hitems, Option.some_inj] at hfound
  subst hfound
  rw [Nat.zero_add] at hlower
  refine ⟨name, f, ?_, ?_, hlower⟩
  · rw [h.entries, List.getElem?_map, List.getElem?_zipIdx, hentry]
    simp
  · have hnames : (p.functions.map (·.1)).Nodup := (List.nodup_append.1 hp.names).1
    exact lookup_of_mem hnames (Named.mem_sort.1 (List.mem_of_getElem? hentry))

theorem code_of_executable (h : p.Lowered o pool code) {id : SectionId} {s : Section}
    (hs : o.sections[id]? = some s) (hrights : s.rights = .executable) :
    ∃ items, code[id]? = some items ∧ s = sectionOf items := by
  rw [h.sections, List.getElem?_append] at hs
  split at hs
  · rw [List.getElem?_map, Option.map_eq_some_iff] at hs
    obtain ⟨items, hitems, rfl⟩ := hs
    exact ⟨items, hitems, rfl⟩
  · split at hs
    · cases hs
    · rw [List.getElem?_singleton] at hs
      split at hs
      · cases hs
        cases hrights
      · cases hs

theorem isFunction_eq (h : p.Lowered o pool code) (hp : p.Ordered) (f : Function) (id : SectionId) :
    (⟨f, id, p.functions.length, o.entries⟩ : Context).isFunction =
      fun name => (p.function? name).isSome := by
  funext name
  rw [Context.isFunction]
  cases hid : o.entries.lookup name with
  | none =>
    rw [h.function_of_no_entry hp hid]
    rfl
  | some found =>
    obtain ⟨g, _, hg, -⟩ := h.function_of_entry hp hid
    rw [hg]
    rfl

theorem housed (h : p.Lowered o pool code) (f : Function) (id : SectionId) :
    Housed ⟨f, id, p.functions.length, o.entries⟩ pool o :=
  ⟨fun _ _ hx => h.section_pool hx, rfl⟩

theorem shaped (h : p.Lowered o pool code) (hp : p.Ordered) {id : SectionId} {items : List Item}
    (hitems : code[id]? = some items) :
    ∃ name f, o.entries[id]? = some (name, id) ∧ p.function? name = some f ∧
      o.Shaped p id f (bytesOf items).toArray (emittedAll items) := by
  obtain ⟨name, f, hentry, hf, hlower⟩ := h.function_of_code hp hitems
  have hwired := hlower.wired
  have hlinks : o.links.filter (·.pointerSection == id) = linksOf id 0 items := by
    have hfilter := @filter_linksFrom items 0 code id hitems
    rw [Nat.zero_add] at hfilter
    rw [h.links, hfilter]
  have hmem : ∀ l, (l ∈ o.links ∧ l.pointerSection = id) ↔ l ∈ linksOf id 0 items := by
    intro l
    rw [← hlinks, List.mem_filter, beq_iff_eq]
  refine ⟨name, f, hentry, hf, ?_, hlower.listing, ?_, hlower.branchesLand, ?_, ?_,
    fun _ _ _ _ => hwired.loads, fun _ _ => hwired.calls, ?_⟩
  · rw [bytesOf_eq, X86.decodeAll_encodeAll]
  · intro before onTrue onFalse after hfork
    have hroom := h.functions.sizeOf_le (List.mem_of_getElem? hitems)
    have hlimit : X86.Assembler.defaultLimit < 0x80000000 := by decide
    rw [Codegen.sizeOf, bytesOf_eq, hfork, X86.encodeAll_append, X86.encodeAll_append, List.length_append,
      List.length_append] at hroom
    rw [hfork]
    exact X86.leads_fork (by omega)
  · have hserves := hwired.serves (h.housed f id) id []
    rw [Phrase.references, h.isFunction_eq hp] at hserves
    rw [hlinks]
    exact hserves
  · intro index hi
    obtain ⟨target, offset, hitem⟩ := hwired.linked hi
    obtain ⟨hl, hsection⟩ := (hmem _).2 (mem_linksOf.2 ⟨index, target, offset, hitem, rfl⟩)
    refine ⟨_, hl, hsection, ?_⟩
    rw [startOf_emittedAll, Nat.zero_add]
  · intro l hl hsection
    obtain ⟨index, target, offset, hitem, rfl⟩ := mem_linksOf.1 ((hmem l).1 ⟨hl, hsection⟩)
    rw [Nat.zero_add]
    exact zeros_of_linked hitem

end Lowered

/-- A source is compiled to code of this shape: every executable section is that of a function, reads
back as the instructions that the tree of the function gives, with the displacements of branches, and
has one link for each literal and each function that it refers to. Links are to executable sections
only, and their slots are apart. -/
theorem shaped_compile [HostAddresses] (source : List Char) (hlen : source.length < sourceLimit)
    (o : Object)
    (hcompile : (Program.parse source).compile = .ok o) :
    (∀ id s, o.sections[id]? = some s → s.rights = .executable →
      ∃ name f code, o.entries[id]? = some (name, id) ∧
        (Program.parse source).function? name = some f ∧
        o.Shaped (Program.parse source) id f s.data code) ∧
    (∀ l ∈ o.links, ∃ s, o.sections[l.pointerSection]? = some s ∧ s.rights = .executable) ∧
    o.links.Pairwise Codegen.Apart := by
  have hanswers := answers_compile_parse hlen (errorCount_of_compile hcompile)
  rw [hcompile] at hanswers
  obtain ⟨pool, code, h⟩ := hanswers
  refine ⟨?_, ?_, ?_⟩
  · intro id s hs hrights
    obtain ⟨items, hitems, rfl⟩ := h.code_of_executable hs hrights
    obtain ⟨name, f, hentry, hf, hshaped⟩ := h.shaped (ordered_parse source) hitems
    exact ⟨name, f, _, hentry, hf, hshaped⟩
  · intro l hl
    rw [h.links] at hl
    obtain ⟨n, items, hitems, hmem⟩ := Codegen.mem_linksFrom hl
    rw [Nat.zero_add] at hmem
    rw [Codegen.pointerSection_linksOf hmem]
    exact ⟨_, h.section_code hitems, rfl⟩
  · rw [h.links]
    exact Codegen.pairwise_linksFrom 0 code

def factorial : List Char :=
  ("func fact(n: Float64) -> Float64 \x7b\n if n < 2 \x7b return 1 \x7d\n" ++
    " return n * fact(n - 1)\n\x7d").toList

open scoped HostAddresses in
theorem compile_factorial : ∃ o s, (Program.parse factorial).compile = .ok o ∧
    o.sections[0]? = some s ∧ s.rights = .executable ∧ o.links.length = 5 := by
  have hall : ((Program.parse factorial).compile.toOption.any fun o =>
      (o.sections[0]?.any (·.rights == .executable)) && o.links.length == 5) = true := by
    decide +kernel
  obtain ⟨o, hc, hboth⟩ := exists_ok_of_any hall
  obtain ⟨hfirst, hlinks⟩ := Bool.and_eq_true_iff.1 hboth
  obtain ⟨s, hs, hrights⟩ := (Option.any_eq_true _ _).1 hfirst
  exact ⟨o, s, hc, hs, by simpa using hrights, by simpa using hlinks⟩

open scoped HostAddresses in
theorem shaped_compile_factorial : ∃ o s name f code,
    (Program.parse factorial).compile = .ok o ∧ o.links.length = 5 ∧
      o.sections[0]? = some s ∧ o.entries[0]? = some (name, 0) ∧
      (Program.parse factorial).function? name = some f ∧
      o.Shaped (Program.parse factorial) 0 f s.data code ∧ o.links.Pairwise Codegen.Apart := by
  obtain ⟨o, s, hcompile, hs, hrights, hlinks⟩ := compile_factorial
  obtain ⟨hshaped, -, hapart⟩ := shaped_compile factorial (by decide +kernel) o hcompile
  obtain ⟨name, f, code, hentry, hf, hcode⟩ := hshaped 0 s hs hrights
  exact ⟨o, s, name, f, code, hcompile, hlinks, hs, hentry, hf, hcode, hapart⟩

end Program
end ScalarJit
