import ScalarJit.Proofs.Codegen.Program
import ScalarJit.Proofs.Machine.Phrases

/-! # Code of functions

A function sets up its frame, puts its arguments into their slots and goes on with its body. Its calls
nest one level less deep than itself, so that the code of all functions of a program does what they
mean, by induction on how deep calls nest. -/

namespace ScalarJit
namespace Machine

open X86 (Gpr Instr Xmm)
open Codegen (reg slotMem frameSize argumentSlot Framed Item Lowers LowersFunction Phrase Pool Resolves)
open Evaluation (CallEval EvalM Exit Locals)

/-! ### Frames -/

theorem apart_of_wellFormed {declares : String → Signature → Prop} {f : Function}
    (hf : f.WellFormed declares) : Apart f := by
  have hnodup : (slotsOf f.blocks).Nodup := hf.slots.nodup_iff.2 List.nodup_range
  obtain ⟨hwithin, hacross⟩ := List.pairwise_flatMap.1 (List.pairwise_map.1 hnodup)
  have ordered {xs : List Variable} (h : xs.Pairwise fun v w => v.slot ≠ w.slot) {i j : Nat}
      {v w : Variable} (hv : xs[i]? = some v) (hw : xs[j]? = some w) (hij : i < j) :
      v.slot ≠ w.slot := by
    obtain ⟨hi, rfl⟩ := List.getElem?_eq_some_iff.1 hv
    obtain ⟨hj, rfl⟩ := List.getElem?_eq_some_iff.1 hw
    exact List.pairwise_iff_getElem.1 h i j hi hj hij
  have apart {i j : Nat} {b c : Block} {v w : Variable} (hb : f.blocks[i]? = some b)
      (hc : f.blocks[j]? = some c) (hv : v ∈ b.locals) (hw : w ∈ c.locals) (hij : i < j) :
      v.slot ≠ w.slot := by
    obtain ⟨hi, rfl⟩ := List.getElem?_eq_some_iff.1 hb
    obtain ⟨hj, rfl⟩ := List.getElem?_eq_some_iff.1 hc
    exact List.pairwise_iff_getElem.1 hacross i j hi hj hij v hv w hw
  intro var v other w hv hw heq
  obtain ⟨b, hb, hvb⟩ := Option.bind_eq_some_iff.1 hv
  obtain ⟨c, hc, hwc⟩ := Option.bind_eq_some_iff.1 hw
  have hvm := List.mem_of_getElem? hvb
  have hwm := List.mem_of_getElem? hwc
  -- No slot is given twice, neither in one block nor in two.
  have hblock : var.block = other.block := by
    rcases Nat.lt_trichotomy var.block other.block with hlt | heqb | hgt
    · exact absurd heq (apart hb hc hvm hwm hlt)
    · exact heqb
    · exact absurd heq.symm (apart hc hb hwm hvm hgt)
  rw [hblock, hc, Option.some_inj] at hb
  subst hb
  have hpair := hwithin c (List.mem_of_getElem? hc)
  have hindex : var.index = other.index := by
    rcases Nat.lt_trichotomy var.index other.index with hlt | heqi | hgt
    · exact absurd heq (ordered hpair hvb hwc hlt)
    · exact heqi
    · exact absurd heq.symm (ordered hpair hwc hvb hgt)
  cases var
  cases other
  cases hblock
  cases hindex
  rfl

section
variable {image : Image} {m : Machine} {f : Function} {declares : String → Signature → Prop}

theorem straight_enter [HostAddresses] (m : Machine) : ∃ last, Straight image m
    [.push .rbp, .move .rbp .rsp] last ∧
    last.stack = m.stack.push (some (m.gpr .rbp)) ∧
    last.gpr .rbp = .stack (m.stack.size + 1) ∧ ∀ r, last.xmm r = m.xmm r := by
  have hpush : (m.past (.push .rbp)).execute image (.push .rbp) =
      .ok (.running ((m.past (.push .rbp)).push (m.gpr .rbp))) := rfl
  generalize hnext : (m.past (.push .rbp)).push (m.gpr .rbp) = next at hpush
  have hstack : next.stack = m.stack.push (some (m.gpr .rbp)) := by rw [← hnext]; rfl
  have hexec : (next.past (.move .rbp .rsp)).execute image (.move .rbp .rsp) = .ok (.running
      { next.past (.move .rbp .rsp) with general := next.general.set 5 (.stack next.depth) }) := rfl
  refine ⟨_, .cons hpush (by rw [← hnext]; rfl) (.single hexec rfl), hstack, ?_, ?_⟩
  · rw [gpr_rbp]
    simp [depth, hstack]
  · intro r
    rw [← hnext]
    rfl

theorem straight_frame [HostAddresses] (hf : Framed f) {act : Activation}
    (hstack : m.stack = act.below)
    (hframe : m.gpr .rbp = .stack act.below.size) (address : SectionId → Nat → UInt64) :
    ∃ last, Straight image m (resolved address (if 0 < frameSize f then
        [.plain (.reserve (Int32.ofNat (frameSize f)))] else [])) last ∧
      InFrame act f (.ofArguments []) last ∧ ∀ r, last.xmm r = m.xmm r := by
  have hsmall := hf.small
  have heq := Codegen.frameSize_eq f
  obtain ⟨last, hlast, hst, hbp, hxmm⟩ : ∃ last, Straight image m (resolved address
      (if 0 < frameSize f then [.plain (.reserve (Int32.ofNat (frameSize f)))] else [])) last ∧
      last.stack = m.stack ++ Array.replicate (frameSize f / 8) none ∧
      last.gpr .rbp = m.gpr .rbp ∧ ∀ r, last.xmm r = m.xmm r := by
    by_cases hpos : 0 < frameSize f
    · rw [if_pos hpos]
      exact straight_reserve (by omega) (by omega)
    · have hzero : frameSize f / 8 = 0 := by omega
      rw [if_neg hpos]
      exact ⟨m, .nil, by rw [hzero]; simp, rfl, fun _ => rfl⟩
  refine ⟨last, hlast, ⟨hbp.trans hframe, ?_, ?_, ?_⟩, hxmm⟩
  · rw [hst, hstack, Array.size_append, Array.size_replicate]
  · intro i hi
    rw [hst, hstack, Array.getElem?_append_left hi]
  · intro var v hv
    have hslot := hf.slot_lt var v hv
    have hle := slots_le_frame hf
    have hlocals : (Locals.ofArguments [] var).map (fun x : Double => Word.bits x.bits) = none := by
      simp [Locals.ofArguments]
    rw [hst, hstack, Array.getElem?_append_right (by omega), hlocals, Nat.add_sub_cancel_left,
      Array.getElem?_replicate, if_pos (by omega)]

theorem ofArguments_take_succ {args : List Double} {count : Nat} (h : count < args.length) :
    (Locals.ofArguments (args.take count)).set ⟨rootBlock, count⟩ args[count] =
      .ofArguments (args.take (count + 1)) := by
  funext ⟨block, index⟩
  unfold Locals.set Locals.ofArguments
  dsimp only
  by_cases hb : block = rootBlock
  · subst hb
    rw [if_pos rfl, if_pos rfl, List.getElem?_take, List.getElem?_take]
    by_cases hi : index = count
    · subst hi
      rw [if_pos rfl, if_pos (Nat.lt_succ_self _), List.getElem?_eq_getElem h]
    · rw [if_neg (by simp [hi])]
      by_cases hlt : index < count
      · rw [if_pos hlt, if_pos (by omega)]
      · rw [if_neg hlt, if_neg (by omega)]
  · rw [if_neg (by simp [hb]), if_neg hb, if_neg hb]

theorem straight_arguments [HostAddresses] (hw : f.WellFormed declares) (hf : Framed f)
    {act : Activation}
    {args : List Double} (hargs : args.length = f.signature.args.length)
    (hpassed : Passed args m) (hin : InFrame act f (.ofArguments []) m)
    (address : SectionId → Nat → UInt64) {count : Nat} (hcount : count ≤ args.length) :
    ∃ last, Straight image m (resolved address (Codegen.storeItems f 0 count)) last ∧
      InFrame act f (.ofArguments (args.take count)) last ∧ ∀ r, last.xmm r = m.xmm r := by
  induction count with
  | zero => exact ⟨m, .nil, hin, fun _ => rfl⟩
  | succ count ih =>
    obtain ⟨next, hnext, hinn, hxmm⟩ := ih (by omega)
    obtain ⟨v, hv⟩ := Codegen.declaration?_argument hw (by omega : count < f.signature.args.length)
    have hslot : argumentSlot f count = v.slot := by rw [argumentSlot, hv]; rfl
    have hlt : count < args.length := hcount
    have hx : next.xmm (reg count) = args[count] :=
      (hxmm _).trans (hpassed count _ (List.getElem?_eq_getElem hlt))
    obtain ⟨last, hlast, hstack, hframe, hxmm'⟩ := @straight_storeCell image next _ .rbp
      (slotMem v.slot).disp _ _ (reg count) hinn.frame (toInt_slotMem hf hv act.below.size)
      (hinn.slot_lt hv)
    rw [hx] at hstack
    refine ⟨last, ?_, ?_, fun r => (hxmm' r).trans (hxmm r)⟩
    · have hitems : Codegen.storeItems f 0 (count + 1) = Codegen.storeItems f 0 count ++
          [.plain (.store (slotMem v.slot) (reg count))] := by
        rw [Codegen.storeItems, List.range'_concat, List.map_append, ← hslot]
        simp [Codegen.storeItems]
      rw [hitems, resolved_append]
      exact hnext.append hlast
    · rw [← ofArguments_take_succ hlt]
      exact hinn.set (apart_of_wellFormed hw) hv hstack hframe

def entryItems (f : Function) : List Item :=
  [.plain (.push .rbp), .plain (.move .rbp .rsp)] ++
    ((if 0 < frameSize f then [.plain (.reserve (Int32.ofNat (frameSize f)))] else []) ++
      Codegen.storeItems f 0 f.signature.args.length)

theorem functionItems_eq (f : Function) (body : List Item) :
    Codegen.functionItems f body = entryItems f ++
      (body ++ Codegen.returnItems (if f.body.hasValue then some 0 else none)) := by
  simp only [Codegen.functionItems, entryItems, List.append_assoc]

theorem straight_entry [HostAddresses] (hw : f.WellFormed declares) (hf : Framed f)
    {args : List Double}
    (hargs : args.length = f.signature.args.length) (hpassed : Passed args m)
    (address : SectionId → Nat → UInt64) :
    ∃ last, Straight image m (resolved address (entryItems f)) last ∧
      InFrame ⟨m.stack, m.gpr .rbp⟩ f (.ofArguments args) last := by
  obtain ⟨a, ha, hstack, hframe, hxmm⟩ := @straight_enter image _ m
  obtain ⟨b, hb, hinb, hxmmb⟩ := @straight_frame image a f _ hf ⟨m.stack, m.gpr .rbp⟩ hstack
    (by rw [hframe, Activation.below, Array.size_push]) address
  have hpassedb : Passed args b := fun i x hx => by rw [hxmmb, hxmm, hpassed i x hx]
  obtain ⟨last, hlast, hin, -⟩ := @straight_arguments image b f declares _ hw hf _ args hargs hpassedb
    hinb address args.length (Nat.le_refl _)
  rw [List.take_length] at hin
  refine ⟨last, ?_, hin⟩
  rw [entryItems, resolved_append, resolved_append, ← hargs]
  exact ha.append (hb.append hlast)

end

/-! ### Functions -/

section
variable {σ : Type} [HostAddresses]

theorem Setting.follows_body {w : Setting σ} {declares : String → Signature → Prop} {depth : Nat}
    {is : List Item} (hs : w.Sound declares)
    (h : Lowers w.ctx w.pool depth 0 (.expr w.ctx.function.body) is) :
    w.Follows depth 0 (.expr w.ctx.function.body) is := by
  obtain ⟨b, hb, -, -, hbody⟩ := hs.wellFormed.root
  rw [hbody] at h ⊢
  cases h with
  | block hb h =>
    refine follows_block hb (@follows_of_lowers _ w declares _ _ _ hs _ _ h rootBlock ?_)
    exact fun e he => (hs.wellFormed.statements _ _ hb e he).2

theorem Setting.reaches_delivered {w : Setting σ} {hasValue : Bool} {value : Option Double}
    {locals : Locals} {m : Machine} {s : σ} (hframe : w.InFrame locals m)
    (hlength : value.toList.length = hasValue.toNat)
    (hvalue : ∀ x, value = some x → m.xmm (reg 0) = x)
    (hat : w.image.At m.pc (resolved w.address
      (Codegen.returnItems (if hasValue then some 0 else none)))) :
    ∃ j last, Reaches w.host w.residue w.image j m s last s ∧
      AtReturn w.image w.act (value.getD .zero) last := by
  rw [← List.append_nil (resolved _ _)] at hat
  cases value with
  | none =>
    cases hasValue with
    | true => cases hlength
    | false => exact reaches_return hframe hat (fun _ hk => by cases hk) fun _ => rfl
  | some x =>
    cases hasValue with
    | false => cases hlength
    | true =>
      refine reaches_return hframe hat (fun k hk => ?_) fun hnone => by cases hnone
      cases hk
      exact hvalue x rfl

/-- The code of a function does what the function does, one call deeper than the calls in it. -/
theorem enters_function {w : Setting σ} {declares : String → Signature → Prop} {items : List Item}
    {args : List Double} (hlower : LowersFunction w.ctx w.pool items)
    (hcode : w.image.At (w.address w.ctx.home 0) (resolved w.address items))
    (hargs : args.length = w.ctx.function.signature.args.length)
    (hsound : ∀ act : Activation, act.below.size % 2 = 0 →
      ({ w with act } : Setting σ).Sound declares) :
    Enters w.host w.residue w.image (w.fuel + 1) (w.address w.ctx.home 0) args
      (Evaluation.applyFunction w.host w.calls w.ctx.function args) := by
  intro m s hpc hodd hpassed
  have heven : (m.stack.push (some (m.gpr .rbp))).size % 2 = 0 := by
    rw [Array.size_push]
    omega
  have hs := hsound ⟨m.stack, m.gpr .rbp⟩ heven
  obtain ⟨is, hbody, rfl⟩ := hlower.body
  rw [← hpc, functionItems_eq, resolved_append] at hcode
  obtain ⟨hentry, hrest⟩ := Image.at_append.1 hcode
  obtain ⟨next, hnext, hin⟩ := @straight_entry w.image m w.ctx.function declares _ hs.wellFormed
    hlower.framed args hargs hpassed w.address
  rw [← hnext.pc_eq, resolved_append] at hrest
  obtain ⟨hcodebody, hcodereturn⟩ := Image.at_append.1 hrest
  have hto : Reaches w.host w.residue w.image _ m s next s := hnext.reaches hentry
  have hpos : 1 ≤ (resolved w.address (entryItems w.ctx.function)).length :=
    Nat.succ_le_succ (Nat.zero_le _)
  have hends := ends_iff.1
    (Simulates.map_iff.1 (Setting.follows_body hs hbody next (.ofArguments args) s hcodebody hin))
  unfold Evaluation.applyFunction
  dsimp only [EStateM.run]
  cases hrun : Evaluation.expr w.host w.calls (Evaluation.blocksWithin w.host w.calls w.ctx.function
      w.ctx.function.blocks.length) w.ctx.function.body ⟨.ofArguments args, s⟩ with
  | ok v t =>
    obtain ⟨j, last, hreach, hlength, hleft⟩ := hends.1 v t hrun
    have hat : w.image.At last.pc (resolved w.address
        (Codegen.returnItems (if w.ctx.function.body.hasValue then some 0 else none))) := by
      rw [hleft.pc, ← codeSize_resolved w.address]
      exact hcodereturn
    obtain ⟨i, final, hreach', hreturn⟩ := Setting.reaches_delivered hleft.frame hlength
      (fun x hx => hleft.values 0 x (by rw [hx]; rfl)) hat
    exact ⟨_, final, (hto.trans hreach).trans hreach', hreturn⟩
  | error exit t =>
    obtain ⟨j, last, hreach, hleft⟩ := hends.2 exit t hrun
    cases exit with
    | returned value => exact ⟨_, last, hto.trans hreach, hleft⟩
    | outOfFuel =>
      have hfuel : w.fuel ≤ j := hleft
      exact ⟨_, last, hto.trans hreach, by rw [Broken]; omega⟩
    | stuck => exact ⟨_, last, hto.trans hreach, hleft⟩

end
end Machine
end ScalarJit
