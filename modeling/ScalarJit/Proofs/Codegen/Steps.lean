import ScalarJit.Proofs.Codegen.Lowering

/-! # Steps of generating code

What each step emits and how it leaves the register stack. A step may end with any fault that a user
can be told about; which faults of the generator itself can occur is said by `Blames`. -/

namespace ScalarJit.Codegen

open X86 (Assembler AsmM Instr Mem Xmm)

/-- What a step asks of the rest: that what it generates can be lowered, that variables have room in
the frame, that names have targets, and how many registers are live at once. -/
structure Demand where
  lowerable : Prop
  framed : Prop
  resolved : Prop
  registers : Nat

/-- A fault says which demand was not met. No step misuses the register stack. -/
def Demand.Blames (D : Demand) : Fault → Prop
  | .registersExhausted => 16 < D.registers
  | .encode _ => True
  | .unknownExtern _ => ¬D.resolved
  | .internal .missingValue => ¬D.lowerable
  | .internal (.argumentWithoutRegister _) => ¬D.lowerable
  | .internal (.slotOutOfRange _) => ¬D.framed
  | .panic _ => ¬D.framed
  | _ => False

structure Demand.Within (D E : Demand) : Prop where
  lowerable : E.lowerable → D.lowerable
  framed : E.framed → D.framed
  resolved : E.resolved → D.resolved
  registers : D.registers ≤ E.registers

theorem Demand.Within.blames {D E : Demand} (h : D.Within E) {fault : Fault} (hf : D.Blames fault) :
    E.Blames fault := by
  cases fault with
  | registersExhausted => exact Nat.lt_of_lt_of_le hf h.registers
  | unknownExtern _ => exact fun hE => hf (h.resolved hE)
  | panic _ => exact fun hE => hf (h.framed hE)
  | internal f =>
    cases f with
    | missingValue => exact fun hE => hf (h.lowerable hE)
    | argumentWithoutRegister _ => exact fun hE => hf (h.lowerable hE)
    | slotOutOfRange _ => exact fun hE => hf (h.framed hE)
    | _ => exact hf
  | _ => exact hf

def State.used (s : State) : Nat := s.registers.used

theorem State.used_le (s : State) : s.used ≤ 16 := s.registers.used_le

/-- A step emits items, and answers and leaves what `Q` says. -/
def Generates (home : SectionId) (D : Demand) {α : Type} (m : GenM α) (s : State)
    (Q : α → State → List Item → Prop) : Prop :=
  Ends m s (fun a t => ∃ items, Emits home s t items ∧ Q a t items) (fun fault _ => D.Blames fault)

namespace Generates

variable {home : SectionId} {D : Demand} {α β : Type} {m : GenM α} {s : State}
  {Q : α → State → List Item → Prop}

theorem pure {a : α} (h : Q a s []) : Generates home D (pure a : GenM α) s Q :=
  (ends_pure a).2 ⟨[], .refl home s, h⟩

theorem bind {f : α → GenM β} {R : β → State → List Item → Prop} (h : Generates home D m s Q)
    (next : ∀ a t is, Emits home s t is → Q a t is →
      Generates home D (f a) t fun b u js => R b u (is ++ js)) :
    Generates home D (m >>= f) s R := by
  refine (ends_bind m f).2 (Ends.mono h ?_ fun _ _ hb => hb)
  rintro a t ⟨is, hst, hq⟩
  refine (next a t is hst hq).mono ?_ fun _ _ hb => hb
  rintro b u ⟨js, htu, hr⟩
  exact ⟨is ++ js, hst.trans htu, hr⟩

theorem mono {R : α → State → List Item → Prop} (h : Generates home D m s Q)
    (imp : ∀ a t is, Emits home s t is → Q a t is → R a t is) : Generates home D m s R := by
  refine Ends.mono h ?_ fun _ _ hb => hb
  rintro a t ⟨is, hst, hq⟩
  exact ⟨is, hst, imp a t is hst hq⟩

theorem weaken {E : Demand} (h : Generates home D m s Q) (hD : D.Within E) :
    Generates home E m s Q :=
  Ends.mono h (fun _ _ hq => hq) fun _ _ hb => hD.blames hb

theorem map {f : α → β} {R : β → State → List Item → Prop}
    (h : Generates home D m s fun a t is => R (f a) t is) : Generates home D (f <$> m) s R :=
  (ends_map f m).2 h

/-- Unlike `split`, this leaves the same condition alone where it is asked again further down. -/
theorem ite {c : Prop} [Decidable c] {m' : GenM α} (h : c → Generates home D m s Q)
    (h' : ¬c → Generates home D m' s Q) : Generates home D (if c then m else m') s Q := by
  by_cases hc : c
  · rw [if_pos hc]
    exact h hc
  · rw [if_neg hc]
    exact h' hc

theorem fail {fault : Fault} (h : D.Blames fault) :
    Generates home D (throw fault : GenM α) s Q := h

end Generates

section
variable {home : SectionId} {D : Demand} {s : State}

/-! ### The code buffer -/

theorem ends_append {err : X86.EncodeFault → Assembler → Prop} (herr : ∀ f a, err f a)
    (bytes : List UInt8) (a : Assembler) :
    Ends (Assembler.append bytes) a (fun _ b => b.code.toList = a.code.toList ++ bytes ∧
      b.limit = a.limit ∧ (a.code.size ≤ a.limit → b.code.size ≤ b.limit)) err := by
  unfold Ends Assembler.append
  by_cases hroom : a.limit < a.code.size + bytes.length
  · simp only [hroom, if_true]
    exact herr _ _
  · simp only [hroom, if_false]
    refine ⟨by simp, trivial, fun _ => ?_⟩
    simp only [Array.size_append, List.size_toArray]
    omega

theorem ends_appendAll {err : X86.EncodeFault → Assembler → Prop} (herr : ∀ f a, err f a)
    (pieces : List (List UInt8)) (a : Assembler) :
    Ends (Assembler.appendAll pieces) a (fun _ b => b.code.toList = a.code.toList ++ pieces.flatten ∧
      b.limit = a.limit ∧ (a.code.size ≤ a.limit → b.code.size ≤ b.limit)) err := by
  induction pieces generalizing a with
  | nil => exact ⟨by simp, rfl, id⟩
  | cons piece rest ih =>
    rw [Assembler.appendAll]
    refine (ends_append herr piece a).bind ?_
    rintro _ b ⟨hcode, hlimit, hroom⟩
    refine (ih b).mono ?_ fun _ _ h => h
    rintro _ c ⟨hcode', hlimit', hroom'⟩
    refine ⟨?_, hlimit'.trans hlimit, fun h => hroom' (hroom h)⟩
    rw [hcode', hcode, List.flatten_cons, List.append_assoc]

theorem ends_asm {α : Type} {m : AsmM α} {ok : α → State → Prop} {err : Fault → State → Prop} :
    Ends (asm m) s ok err ↔ Ends m s.asm (fun a b => ok a { s with asm := b })
      (fun f b => err (.encode f) { s with asm := b }) := by
  unfold Ends asm
  have hrun : m.run s.asm = m s.asm := rfl
  simp only [hrun]
  cases m s.asm <;> rfl

theorem generates_asm {α : Type} {m : AsmM α} {i : Instr} {R : α → State → Prop}
    (h : Ends m s.asm (fun a b => (b.code.toList = s.asm.code.toList ++ i.encode ∧
      b.limit = s.asm.limit ∧ (s.asm.code.size ≤ s.asm.limit → b.code.size ≤ b.limit)) ∧
        R a { s with asm := b }) (fun _ _ => True)) :
    Generates home D (asm m) s fun a t is => is = [.plain i] ∧ t.used = s.used ∧ R a t := by
  refine ends_asm.2 (h.mono ?_ fun _ _ _ => trivial)
  rintro a b ⟨⟨hcode, hlimit, hroom⟩, hr⟩
  refine ⟨[.plain i], ⟨?_, ?_, hlimit, hroom, .refl _⟩, rfl, rfl, hr⟩
  · rw [bytesOf_singleton]
    exact hcode
  · simp [linksOf]

theorem generates_emit (i : Instr) :
    Generates home D (emit i) s fun _ t is => is = [.plain i] ∧ t.used = s.used := by
  refine (generates_asm (R := fun _ _ => True) ?_).mono fun _ _ _ _ h => ⟨h.1, h.2.1⟩
  exact (ends_appendAll (fun _ _ => trivial) i.pieces s.asm).mono (fun _ _ h => ⟨h, trivial⟩)
    fun _ _ h => h

theorem ends_adjustment {a : Assembler} {ok : Int32 → Assembler → Prop}
    {err : X86.EncodeFault → Assembler → Prop} (herr : ∀ f a, err f a) (bytes : Nat)
    (h : bytes < 0x80000000 → ok (Int32.ofNat bytes) a) :
    Ends (Assembler.adjustment bytes) a ok err := by
  unfold Assembler.adjustment
  split
  · next hlt => exact h hlt
  · exact herr _ _

theorem generates_reserveStack (bytes : Nat) :
    Generates home D (asm (Assembler.reserveStack bytes)) s fun _ t is =>
      is = [.plain (.reserve (Int32.ofNat bytes))] ∧ t.used = s.used ∧ bytes < 0x80000000 := by
  refine generates_asm (R := fun _ _ => bytes < 0x80000000) ?_
  refine (ends_bind _ _).2 (ends_adjustment (fun _ _ => trivial) bytes fun hlt => ?_)
  exact (ends_appendAll (fun _ _ => trivial) _ s.asm).mono (fun _ _ h => ⟨h, hlt⟩) fun _ _ h => h

theorem generates_freeStack (bytes : Nat) :
    Generates home D (asm (Assembler.freeStack bytes)) s fun _ t is =>
      is = [.plain (.free (Int32.ofNat bytes))] ∧ t.used = s.used := by
  refine (generates_asm (R := fun _ _ => True) ?_).mono fun _ _ _ _ h => ⟨h.1, h.2.1⟩
  refine (ends_bind _ _).2 (ends_adjustment (fun _ _ => trivial) bytes fun _ => ?_)
  exact (ends_appendAll (fun _ _ => trivial) _ s.asm).mono (fun _ _ h => ⟨h, trivial⟩) fun _ _ h => h

/-! ### Registers -/

theorem acquire_eq (s : State) : acquire s = match s.registers.acquire with
    | .ok (r, registers) => .ok r { s with registers }
    | .error fault => .error fault s := rfl

theorem generates_acquire (hD : 16 ≤ s.used → 16 < D.registers) :
    Generates home D acquire s fun r t is =>
      is = [] ∧ s.used < 16 ∧ r = reg s.used ∧ t.used = s.used + 1 := by
  have hrun := acquire_eq s
  by_cases hused : s.used < 16
  · have hacquire : s.registers.acquire = .ok (⟨⟨s.used, hused⟩⟩, ⟨s.used + 1, hused⟩) := by
      unfold RegisterStack.acquire
      exact dif_pos hused
    rw [hacquire] at hrun
    refine (ends_of_ok hrun).2 ⟨[], ⟨by simp, by simp [linksOf], rfl, id, .refl _⟩, rfl, hused, ?_, rfl⟩
    simp [reg, Nat.mod_eq_of_lt hused]
  · have hacquire : s.registers.acquire = .error .registersExhausted := by
      unfold RegisterStack.acquire
      exact dif_neg hused
    rw [hacquire] at hrun
    exact (ends_of_error hrun).2 (hD (Nat.le_of_not_lt hused))

theorem release_eq (r : Xmm) (s : State) : release r s = match s.registers.release r with
    | .ok registers => .ok () { s with registers }
    | .error fault => .error fault s := rfl

theorem generates_release {k : Nat} (hk : s.used = k + 1) :
    Generates home D (release (reg k)) s fun _ t is => is = [] ∧ t.used = k := by
  have hle := s.used_le
  have hlt : k < 16 := by omega
  have hrelease : s.registers.release (reg k) =
      .ok ⟨s.used - 1, Nat.le_trans (Nat.sub_le ..) s.used_le⟩ := by
    unfold RegisterStack.release
    exact if_pos (by simpa [reg, Nat.mod_eq_of_lt hlt, State.used] using hk)
  have hrun := release_eq (reg k) s
  rw [hrelease] at hrun
  refine (ends_of_ok hrun).2 ⟨[], ⟨by simp, by simp [linksOf], rfl, id, .refl _⟩, rfl, ?_⟩
  show s.used - 1 = k
  omega

theorem getElem?_all {k : Nat} (hk : k < 16) : Xmm.all[k]? = some (reg k) := by
  have hall : ∀ k : Fin 16, Xmm.all[k.val]? = some (reg k.val) := by decide
  exact hall ⟨k, hk⟩

theorem live_eq (n : Nat) (hn : n ≤ 16) : Xmm.all.take n = (List.range' 0 n).map reg := by
  have hall : ∀ n : Fin 17, Xmm.all.take n.val = (List.range' 0 n.val).map reg := by decide
  exact hall ⟨n, Nat.lt_succ_of_le hn⟩

theorem generates_live :
    Generates home D live s fun rs t is =>
      is = [] ∧ t = s ∧ rs = (List.range' 0 s.used).map reg :=
  ⟨[], .refl home s, rfl, rfl, live_eq s.used s.used_le⟩

/-! ### Addresses, literals and variables -/

theorem generates_loadLinked {ctx : Context} (target : SectionId) (offset : Nat) :
    Generates ctx.home D (loadLinked ctx target offset) s fun _ t is =>
      is = [.linked target offset] ∧ t.used = s.used := by
  unfold loadLinked
  refine (ends_bind _ _).2 (ends_asm.2 ?_)
  refine (ends_bind _ _).2 ?_
  refine (ends_appendAll (fun _ _ => trivial) _ s.asm).mono ?_ fun _ _ h => h
  rintro _ b ⟨hcode, hlimit, hroom⟩
  have hbytes : ((Instr.moveImm .rax 0).pieces).flatten.length = 10 := length_encode_moveImm_rax 0
  have hsize : b.code.size = s.asm.code.size + 10 := by
    have hlen := congrArg List.length hcode
    rw [List.length_append, hbytes] at hlen
    simpa using hlen
  refine ⟨[.linked target offset], ⟨?_, ?_, hlimit, hroom, .refl _⟩, rfl, rfl⟩
  · rw [bytesOf_singleton]
    exact hcode
  · show (s.links.push ⟨ctx.home, b.code.size - 8, target, offset⟩).toList = _
    rw [Array.toList_push, linksOf, linksOf, hsize]
    rfl

theorem generates_intern (x : Double) :
    Generates home D (intern x) s fun offset t is =>
      is = [] ∧ t.used = s.used ∧ t.pool.Holds offset x := by
  refine ⟨[], ⟨by simp, by simp [linksOf], rfl, id, ?_⟩, rfl, rfl, ?_⟩
  · exact Pool.extends_intern s.pool x
  · exact Pool.holds_intern s.pool x

theorem generates_constant {ctx : Context} {k : Nat} (x : Double) (hk : s.used = k)
    (hD : 16 ≤ k → 16 < D.registers) :
    Generates ctx.home D (constant ctx x) s fun r t is =>
      r = reg k ∧ t.used = k + 1 ∧ k < 16 ∧
        ∃ offset, is = constantItems ctx offset k ∧ t.pool.Holds offset x := by
  unfold constant
  refine .bind (generates_intern x) ?_
  rintro offset t _ - ⟨rfl, ht, hx⟩
  have hkt : t.used = k := ht.trans hk
  refine .bind (generates_acquire (hkt.symm ▸ hD)) ?_
  rintro r u _ htu ⟨rfl, hlt, rfl, hu⟩
  refine .bind (generates_loadLinked _ _) ?_
  rintro _ v _ huv ⟨rfl, hv⟩
  refine .bind (generates_emit _) ?_
  rintro _ w _ hvw ⟨rfl, hw⟩
  rw [hkt] at hlt hu ⊢
  refine .pure ⟨rfl, by rw [hw, hv, hu], hlt, offset, rfl, ?_⟩
  exact hx.extends (htu.pool.trans (huv.pool.trans hvw.pool))

/-- A frame small enough, with every variable in it. Variables hold doubles. -/
structure Framed (f : Function) : Prop where
  small : (8 * f.slots + 15) / 16 * 16 < 0x80000000
  double : ∀ var v, declaration? f.blocks var = some v → v.ty = .float64
  slot_lt : ∀ var v, declaration? f.blocks var = some v → v.slot < f.slots

/-- What is computed with words stays within them, or the frame is too large. -/
theorem generates_checked {α : Type} {result : Except Panic α}
    (hD : ∀ p, result = .error p → ¬D.framed) :
    Generates home D (checked result) s fun a t is => result = .ok a ∧ t = s ∧ is = [] := by
  cases result with
  | ok a => exact .pure ⟨rfl, rfl, rfl⟩
  | error p => exact .fail (hD p rfl)

theorem generates_slotAddress {slot : Nat} (hD : D.framed → 8 * (slot + 1) < 0x80000000) :
    Generates home D (slotAddress slot) s fun a t is => a = slotMem slot ∧ t = s ∧ is = [] := by
  have hmax : wordMax = 0xffffffffffffffff := rfl
  unfold slotAddress
  refine .bind (generates_checked fun p hp hf => ?_) ?_
  · rw [checkedAdd_of_le (by have := hD hf; omega)] at hp
    cases hp
  rintro count s _ - ⟨hcount, rfl, rfl⟩
  obtain rfl := ((checkedAdd_eq_ok Nat.one_pos).1 hcount).2
  refine .bind (generates_checked fun p hp hf => ?_) ?_
  · rw [checkedMul_of_le (by have := hD hf; omega)] at hp
    cases hp
  rintro distance s _ - ⟨hdistance, rfl, rfl⟩
  obtain rfl := (checkedMul_eq_ok.1 hdistance).2
  exact .ite (fun _ => .pure ⟨rfl, rfl, rfl⟩) fun hlarge => .fail fun hf => hlarge (hD hf)

theorem generates_variableAddress {ctx : Context} {var : VarRef} {v : Variable}
    (hv : declaration? ctx.function.blocks var = some v) (hD : D.framed → Framed ctx.function) :
    Generates home D (variableAddress ctx var) s fun a t is =>
      a = slotMem v.slot ∧ t = s ∧ is = [] := by
  unfold variableAddress
  rw [hv]
  refine generates_slotAddress fun h => ?_
  have hlt := (hD h).slot_lt var v hv
  have hsmall := (hD h).small
  omega

/-! ### Values and returns -/

theorem generates_required {m : GenM (Option Xmm)} {k : Nat} {hasValue : Bool}
    {R : State → List Item → Prop}
    (h : Generates home D m s fun v t is =>
      v = (if hasValue then some (reg k) else none) ∧ R t is)
    (hD : D.lowerable → hasValue = true) :
    Generates home D (required m) s fun r t is => r = reg k ∧ hasValue = true ∧ R t is := by
  unfold required
  refine (ends_bind _ _).2 (Ends.mono h ?_ fun _ _ hb => hb)
  rintro v t ⟨is, hst, rfl, hr⟩
  cases hasValue with
  | true => exact ⟨is, hst, rfl, rfl, hr⟩
  | false =>
    have hno : ¬D.lowerable := fun hl => Bool.noConfusion (hD hl)
    exact hno

theorem generates_epilogue :
    Generates home D epilogue s fun _ t is =>
      is = [.plain (.move .rsp .rbp), .plain (.pop .rbp), .plain .ret] ∧ t.used = s.used := by
  unfold epilogue
  refine .bind (generates_emit _) ?_
  rintro _ t _ - ⟨rfl, ht⟩
  refine .bind (generates_emit _) ?_
  rintro _ u _ - ⟨rfl, hu⟩
  refine (generates_emit _).mono ?_
  rintro _ v _ - ⟨rfl, hv⟩
  exact ⟨rfl, hv.trans (hu.trans ht)⟩

theorem generates_returnNothing :
    Generates home D (returnValue none) s fun _ t is => is = deliverItems none ∧ t.used = s.used :=
  generates_emit _

theorem generates_returnValue {k : Nat} (hk : s.used = k + 1) :
    Generates home D (returnValue (some (reg k))) s fun _ t is =>
      is = deliverItems (some k) ∧ t.used = k := by
  unfold returnValue
  dsimp only
  split
  · next hne =>
    refine .bind (generates_emit _) ?_
    rintro _ t _ - ⟨rfl, ht⟩
    refine (generates_release (ht.trans hk)).mono ?_
    rintro _ u _ - ⟨rfl, hu⟩
    exact ⟨by rw [deliverItems, if_pos hne]; rfl, hu⟩
  · next heq =>
    refine (generates_release hk).mono ?_
    rintro _ u _ - ⟨rfl, hu⟩
    exact ⟨by rw [deliverItems, if_neg heq], hu⟩

end
end ScalarJit.Codegen
