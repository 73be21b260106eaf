import ScalarJit.Proofs.Codegen.Generation

/-! # Generating functions and programs

A function is its frame, the stores of its arguments, its body and the way back. The sections of a
program are those of its functions in order, each generated from what the functions before it left in
the pool and among the links. -/

namespace ScalarJit.Codegen

open X86 (Assembler Instr Xmm)

def frameSize (f : Function) : Nat := roundUp 16 (8 * f.slots)

def argumentSlot (f : Function) (index : Nat) : Nat :=
  ((declaration? f.blocks ⟨rootBlock, index⟩).map (·.slot)).getD 0

def storeItems (f : Function) (index count : Nat) : List Item :=
  (List.range' index count).map fun i => .plain (.store (slotMem (argumentSlot f i)) (reg i))

def functionItems (f : Function) (body : List Item) : List Item :=
  [.plain (.push .rbp), .plain (.move .rbp .rsp)] ++
    ((if 0 < frameSize f then [.plain (.reserve (Int32.ofNat (frameSize f)))] else []) ++
      (storeItems f 0 f.signature.args.length ++
        (body ++ returnItems (if f.body.hasValue then some 0 else none))))

structure LowersFunction [HostAddresses] (ctx : Context) (pool : Pool)
    (items : List Item) : Prop where
  framed : Framed ctx.function
  args : ctx.function.signature.args.length ≤ maxArguments
  body : ∃ is, Lowers ctx pool ctx.function.blocks.length 0 (.expr ctx.function.body) is ∧
    items = functionItems ctx.function is

/-! ### Frames -/

theorem slot_lt_of_wellFormed {declares : String → Signature → Prop} {f : Function}
    (hf : f.WellFormed declares) {var : VarRef} {v : Variable}
    (hv : declaration? f.blocks var = some v) : v.slot < f.slots := by
  obtain ⟨b, hb, hlocal⟩ := Option.bind_eq_some_iff.1 hv
  have hmem : v.slot ∈ slotsOf f.blocks := by
    refine List.mem_map.2 ⟨v, List.mem_flatMap.2 ⟨b, List.mem_of_getElem? hb, ?_⟩, rfl⟩
    exact List.mem_of_getElem? hlocal
  exact List.mem_range.1 (hf.slots.mem_iff.1 hmem)

theorem frameSize_eq (f : Function) : frameSize f = (8 * f.slots + 15) / 16 * 16 := rfl

/-! ### One function -/

variable {ctx : Context} {s : State} {D : Demand}

theorem declaration?_argument {declares : String → Signature → Prop} {f : Function}
    (hf : f.WellFormed declares) {index : Nat} (hindex : index < f.signature.args.length) :
    ∃ v, declaration? f.blocks ⟨rootBlock, index⟩ = some v := by
  obtain ⟨b, hb, -, hargs, -⟩ := hf.root
  have hlen : index < b.locals.length := by
    have h := congrArg List.length hargs
    simp only [List.length_map, List.length_take] at h
    omega
  exact ⟨b.locals[index], by rw [declaration?, hb, Option.bind_some, List.getElem?_eq_getElem hlen]⟩

theorem generates_storeArguments {declares : String → Signature → Prop}
    (hw : ctx.function.WellFormed declares) (hf : Framed ctx.function) (count index : Nat)
    (hcount : index + count = ctx.function.signature.args.length)
    (hargs : ctx.function.signature.args.length ≤ maxArguments) :
    Generates ctx.home D (storeArguments ctx count index) s fun _ t is =>
      is = storeItems ctx.function index count ∧ t.used = s.used := by
  induction count generalizing index s with
  | zero => exact .pure ⟨rfl, rfl⟩
  | succ count ih =>
    rw [storeArguments]
    rw [maxArguments] at hargs
    have hindex : index < ctx.function.signature.args.length := by omega
    obtain ⟨v, hv⟩ := declaration?_argument hw hindex
    rw [hv, argument?_eq (by omega)]
    dsimp only
    have hlt := hf.slot_lt _ v hv
    have hsmall := hf.small
    refine .bind (generates_slotAddress fun _ => by omega) ?_
    rintro _ s _ - ⟨rfl, rfl, rfl⟩
    refine .bind (generates_emit _) ?_
    rintro _ t _ - ⟨rfl, ht⟩
    refine (ih (index + 1) (by omega)).mono ?_
    rintro _ u _ - ⟨rfl, hu⟩
    refine ⟨?_, hu.trans ht⟩
    simp [storeItems, List.range'_succ, argumentSlot, hv]

def functionDemand (ctx : Context) (declares : String → Signature → Prop) : Demand where
  lowerable := ctx.function.body.Lowerable ctx.function.blocks
  framed := 8 * ctx.function.slots + 15 ≤ wordMax
  resolved := Resolvable ctx declares
  registers := ctx.function.need

structure Ready (declares : String → Signature → Prop) (f : Function) : Prop where
  wellFormed : f.WellFormed declares
  args : f.signature.args.length ≤ maxArguments
  double : ∀ var v, declaration? f.blocks var = some v → v.ty = .float64

theorem Ready.framed {declares : String → Signature → Prop} {f : Function} (h : Ready declares f)
    (hframe : 0 < frameSize f → frameSize f < 0x80000000) : Framed f where
  small := by
    have heq := frameSize_eq f
    by_cases hpos : 0 < frameSize f
    · have hlt := hframe hpos
      omega
    · omega
  double := h.double
  slot_lt := fun _ _ hv => slot_lt_of_wellFormed h.wellFormed hv

theorem generates_body [HostAddresses] {declares : String → Signature → Prop}
    (h : Ready declares ctx.function)
    (hf : Framed ctx.function) (hs : s.used = 0) :
    Generates ctx.home (functionDemand ctx declares) (do
      let value ← functionExpr ctx ctx.function.body
      returnValue value
      epilogue
      let held ← live
      if held ≠ [] then internal (.registersHeld held.length) else pure ()) s fun _ t is =>
        ∃ js, is = js ++ returnItems (if ctx.function.body.hasValue then some 0 else none) ∧
          Becomes ctx ctx.function.blocks.length 0 (.expr ctx.function.body) js t := by
  have hsound := sound_functionExpr h.wellFormed h.double
    (Function.mem_parts.2 (.inl (Expr.self_mem_parts ctx.function.body)))
  have hwithin : (demand ctx declares ctx.function.blocks.length 0 ctx.function.body).Within
      (functionDemand ctx declares) := ⟨id, fun _ => hf, id, Nat.le_of_eq (Nat.zero_add _)⟩
  have finish : ∀ t : State, t.used = 0 → Generates ctx.home (functionDemand ctx declares) (do
        epilogue
        let held ← live
        if held ≠ [] then internal (.registersHeld held.length) else pure ()) t fun _ u is =>
          is = [.plain (.move .rsp .rbp), .plain (.pop .rbp), .plain .ret] := by
    intro t ht
    refine .bind generates_epilogue ?_
    rintro _ u _ - ⟨rfl, hu⟩
    refine .bind generates_live ?_
    rintro _ u _ - ⟨rfl, rfl, rfl⟩
    rw [hu, ht]
    exact .pure rfl
  refine .bind ((hsound s 0 hs).weaken hwithin) ?_
  rintro _ t js - ⟨rfl, ht, hlower⟩
  cases hvalue : ctx.function.body.hasValue with
  | true =>
    rw [hvalue] at ht
    refine .bind (generates_returnValue ht) ?_
    rintro _ u _ htu ⟨rfl, hu⟩
    refine (finish u hu).mono ?_
    rintro _ v _ huv rfl
    exact ⟨js, rfl, hlower.grows (htu.grows.trans huv.grows)⟩
  | false =>
    rw [hvalue] at ht
    refine .bind generates_returnNothing ?_
    rintro _ u _ htu ⟨rfl, hu⟩
    refine (finish u (hu.trans ht)).mono ?_
    rintro _ v _ huv rfl
    exact ⟨js, rfl, hlower.grows (htu.grows.trans huv.grows)⟩

theorem generates_functionCode [HostAddresses] {declares : String → Signature → Prop}
    (h : Ready declares ctx.function) (hs : s.used = 0) :
    Generates ctx.home (functionDemand ctx declares) (functionCode ctx) s
      fun _ t is => t.Short → ∀ pool, t.pool.Extends pool → LowersFunction ctx pool is := by
  have rest : ∀ t : State, t.used = 0 → Framed ctx.function →
      Generates ctx.home (functionDemand ctx declares) (do
        storeArguments ctx ctx.function.signature.args.length 0
        let value ← functionExpr ctx ctx.function.body
        returnValue value
        epilogue
        let held ← live
        if held ≠ [] then internal (.registersHeld held.length) else pure ()) t fun _ u is =>
          ∃ js, is = storeItems ctx.function 0 ctx.function.signature.args.length ++
            (js ++ returnItems (if ctx.function.body.hasValue then some 0 else none)) ∧
            Becomes ctx ctx.function.blocks.length 0 (.expr ctx.function.body) js u := by
    intro t ht hf
    refine .bind (generates_storeArguments h.wellFormed hf _ 0 (Nat.zero_add _) h.args) ?_
    rintro _ u _ htu ⟨rfl, hu⟩
    refine (generates_body h hf (hu.trans ht)).mono ?_
    rintro _ v _ - ⟨js, rfl, hlower⟩
    exact ⟨js, rfl, hlower⟩
  unfold functionCode
  refine .bind (generates_emit _) ?_
  rintro _ t _ hst ⟨rfl, ht⟩
  refine .bind (generates_emit _) ?_
  rintro _ u _ htu ⟨rfl, hu⟩
  have hu0 : u.used = 0 := hu.trans (ht.trans hs)
  -- only a function with more slots than there are bytes has no frame at all
  refine .bind (generates_checked fun p hp hcountable => ?_) ?_
  · have hcountable : 8 * ctx.function.slots + 15 ≤ wordMax := hcountable
    rw [checkedMul_of_le (by omega)] at hp
    cases hp
  rintro bytes u _ - ⟨hbytes, rfl, rfl⟩
  obtain rfl := (checkedMul_eq_ok.1 hbytes).2
  refine .bind (generates_checked fun p hp hcountable => ?_) ?_
  · rw [checkedAdd_of_le hcountable] at hp
    cases hp
  rintro padded u _ - ⟨hpadded, rfl, rfl⟩
  obtain rfl := ((checkedAdd_eq_ok (by decide)).1 hpadded).2
  refine .ite (fun hpos => ?_) fun hzero => ?_
  · refine .bind (generates_reserveStack _) ?_
    rintro _ v _ huv ⟨rfl, hv, hframe⟩
    have hf := h.framed fun _ => hframe
    refine (rest v (hv.trans hu0) hf).mono ?_
    rintro _ w _ - ⟨js, rfl, hlower⟩ hshort pool hpool
    refine ⟨hf, h.args, js, hlower hshort pool hpool, ?_⟩
    have hpos : 0 < frameSize ctx.function := hpos
    rw [functionItems, if_pos hpos]
    rfl
  · have hf := h.framed fun hpos => absurd hpos hzero
    refine (rest u hu0 hf).mono ?_
    rintro _ w _ - ⟨js, rfl, hlower⟩ hshort pool hpool
    refine ⟨hf, h.args, js, hlower hshort pool hpool, ?_⟩
    have hzero : ¬0 < frameSize ctx.function := hzero
    rw [functionItems, if_neg hzero]
    rfl

end ScalarJit.Codegen
