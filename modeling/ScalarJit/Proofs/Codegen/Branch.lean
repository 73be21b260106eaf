import ScalarJit.Proofs.Codegen.Steps
import ScalarJit.Proofs.X86.Decode

/-! # Generating conditionals

A branch is emitted with zero as its displacement and gets its displacement when its target is known.
Its length does not depend on it, so that everything behind it stays where it is. -/

namespace ScalarJit

theorem Bytes.toList_overwrite {buffer : Array UInt8} {before old after : List UInt8}
    (bytes : List UInt8) (hbuffer : buffer.toList = before ++ (old ++ after)) (hlen : old.length = bytes.length) :
    (Bytes.overwrite buffer before.length bytes).toList = before ++ (bytes ++ after) := by
  induction bytes generalizing buffer before old with
  | nil =>
    rw [List.length_eq_zero_iff.1 hlen] at hbuffer
    exact hbuffer
  | cons b bytes ih =>
    cases old with
    | nil => cases hlen
    | cons c old =>
      have hset : (buffer.setIfInBounds before.length b).toList =
          (before ++ [b]) ++ (old ++ after) := by
        rw [Array.toList_setIfInBounds, hbuffer]
        simp
      have hrest := ih hset (by simpa using hlen)
      rw [List.length_append, List.length_singleton] at hrest
      rw [Bytes.overwrite, hrest]
      simp

namespace Codegen

open X86 (Assembler Fixup Instr Xmm)

variable {home : SectionId} {D : Demand} {s t : State}

/-! ### Branches -/

def IsBranch (branch : Int32 → Instr) (opcode : List UInt8) : Prop :=
  ∀ offset, (branch offset).encode = opcode ++ Bytes.ofInt32 offset

theorem isBranch_jumpIfZero : IsBranch .jumpIfZero [0x0f, 0x84] := fun _ => by
  simp [Instr.encode, Instr.pieces]

theorem isBranch_jump : IsBranch .jump [0xe9] := fun _ => by
  simp [Instr.encode, Instr.pieces]

theorem IsBranch.length_encode {branch : Int32 → Instr} {opcode : List UInt8}
    (h : IsBranch branch opcode) (offset : Int32) :
    (branch offset).encode.length = opcode.length + 4 := by
  rw [h offset, List.length_append, Bytes.length_ofInt32]

theorem sizeOf_jump (offset : Int32) : sizeOf [.plain (.jump offset)] = 5 := by
  rw [sizeOf_cons, sizeOf_nil, Item.size, Item.emitted, isBranch_jump.length_encode]
  rfl

theorem sizeOf_jumpIfZero (offset : Int32) : sizeOf [.plain (.jumpIfZero offset)] = 6 := by
  rw [sizeOf_cons, sizeOf_nil, Item.size, Item.emitted, isBranch_jumpIfZero.length_encode]
  rfl

theorem sizeOf_missingItems_lt (hasValue : Bool) (k : Nat) :
    sizeOf (missingItems hasValue k) < 0x80000000 := by
  cases hasValue with
  | true =>
    have hlen := X86.length_encode_le (.sse .xorPd (reg k) (reg k))
    rw [missingItems, if_pos rfl, sizeOf_cons, sizeOf_nil, Item.size, Item.emitted]
    omega
  | false =>
    show 0 < 0x80000000
    decide

theorem generates_branch (branch : Int32 → Instr) :
    Generates home D (asm (Assembler.branch branch)) s fun (fixup : Fixup) t is =>
      is = [.plain (branch 0)] ∧ t.used = s.used ∧ fixup.site = t.asm.code.size - 4 := by
  refine generates_asm (R := fun (fixup : Fixup) t => fixup.site = t.asm.code.size - 4) ?_
  refine (ends_bind _ _).2 ?_
  exact (ends_appendAll (fun _ _ => trivial) _ s.asm).mono (fun _ _ h => ⟨h, rfl⟩) fun _ _ h => h

/-- A displacement has no more than 32 bits, so that what positions lose beyond 64 does not matter. -/
theorem ofInt_bmod_sub (n c : Int) :
    Int32.ofInt (Int.bmod n 0x10000000000000000 - c) = Int32.ofInt (n - c) := by
  have hsize : ((Int32.size : Nat) : Int) = 0x100000000 := rfl
  rw [Int32.ofInt_eq_iff_bmod_eq_toInt, Int32.toInt_ofInt]
  simp only [Int.bmod, hsize]
  omega

theorem patch_eq (fixup : Fixup) (target : Nat) (a : Assembler) :
    Assembler.patch fixup target a = .ok () ⟨Bytes.overwrite a.code fixup.site
        (Bytes.ofInt32 (Int32.ofInt ((target : Int) - ((fixup.site + 4 : Nat) : Int)))), a.limit⟩ ∨
      ∃ fault, Assembler.patch fixup target a = .error fault a := by
  unfold Assembler.patch
  dsimp only
  rw [ofInt_bmod_sub]
  split
  · exact .inl rfl
  · exact .inr ⟨_, rfl⟩

-- its numerals are too large for the checks of types to look inside
attribute [local irreducible] X86.Assembler.patch

theorem ends_patch {branch : Int32 → Instr} {opcode : List UInt8} (hbranch : IsBranch branch opcode)
    {is js : List Item} {fixup : Fixup} (he : Emits home s t (is ++ (.plain (branch 0) :: js)))
    (hsite : fixup.site = s.asm.code.size + sizeOf is + opcode.length) :
    Ends (asm (do Assembler.patch fixup (← Assembler.position))) t
      (fun _ u => Emits home s u (is ++ (.plain (branch (Int32.ofNat (sizeOf js))) :: js)) ∧
        u.used = t.used ∧ t.Grows u) fun fault _ => D.Blames fault := by
  have hlen := hbranch.length_encode 0
  have hsize : t.asm.code.size = fixup.site + 4 + sizeOf js := by
    rw [he.size_eq, sizeOf_append, sizeOf_cons, hsite]
    simp only [Item.size, Item.emitted]
    omega
  have hdistance : (t.asm.code.size : Int) - ((fixup.site + 4 : Nat) : Int) = (sizeOf js : Nat) := by
    omega
  rw [ends_asm, ends_bind, Assembler.position, ends_bind, ends_get, ends_pure]
  rcases patch_eq fixup t.asm.code.size t.asm with hrun | ⟨fault, hrun⟩
  · rw [ends_of_ok hrun, hdistance, Int32.ofInt_eq_ofNat]
    refine ⟨⟨?_, ?_, he.limit, fun h => ?_, he.pool⟩, rfl, .refl _, fun hu => ?_⟩
    · have hcode : t.asm.code.toList = (s.asm.code.toList ++ (bytesOf is ++ opcode)) ++
          (Bytes.ofInt32 0 ++ bytesOf js) := by
        rw [he.code]
        simp [bytesOf, Item.emitted, hbranch 0]
      have hwhere : (s.asm.code.toList ++ (bytesOf is ++ opcode)).length = fixup.site := by
        rw [hsite, List.length_append, List.length_append, Array.length_toList, sizeOf]
        omega
      have hover := Bytes.toList_overwrite (Bytes.ofInt32 (Int32.ofNat (sizeOf js))) hcode
        (by rw [Bytes.length_ofInt32, Bytes.length_ofInt32])
      rw [hwhere] at hover
      show (Bytes.overwrite t.asm.code fixup.site _).toList = _
      rw [hover]
      simp [bytesOf, Item.emitted, hbranch (Int32.ofNat _)]
    · show t.links.toList = _
      rw [he.links, linksOf_append, linksOf_append, linksOf, linksOf, hlen, hbranch.length_encode]
    · show (Bytes.overwrite t.asm.code fixup.site _).size ≤ _
      rw [Bytes.size_overwrite]
      exact he.room h
    · have hroom : (Bytes.overwrite t.asm.code fixup.site _).size ≤ _ := hu.room
      rw [Bytes.size_overwrite] at hroom
      exact ⟨hroom, hu.limit⟩
  · rw [ends_of_error hrun]
    trivial

theorem ends_patch_bind {branch : Int32 → Instr} {opcode : List UInt8}
    (hbranch : IsBranch branch opcode) {is js : List Item} {fixup : Fixup}
    (he : Emits home s t (is ++ (.plain (branch 0) :: js)))
    (hsite : fixup.site = s.asm.code.size + sizeOf is + opcode.length) {α : Type}
    {next : Unit → GenM α} {ok : α → State → Prop}
    (hnext : ∀ u, Emits home s u (is ++ (.plain (branch (Int32.ofNat (sizeOf js))) :: js)) →
      u.used = t.used → t.Grows u → Ends (next ()) u ok fun fault _ => D.Blames fault) :
    Ends (asm (do Assembler.patch fixup (← Assembler.position)) >>= next) t ok
      fun fault _ => D.Blames fault :=
  (ends_patch hbranch he hsite).bind fun _ u h => hnext u h.1 h.2.1 h.2.2

/-! ### Conditionals -/

theorem generates_testCondition {condition : GenM (Option Xmm)} {k : Nat}
    {R : State → List Item → Prop}
    (hc : Generates home D (required condition) s fun r t is => r = reg k ∧ t.used = k + 1 ∧ R t is)
    (hD : k + 2 ≤ D.registers) :
    Generates home D (testCondition condition) s fun fixup u is =>
      u.used = k ∧ k + 1 < 16 ∧ fixup.site = u.asm.code.size - 4 ∧
        ∃ t cs, R t cs ∧ t.Grows u ∧ is = cs ++ testItems k 0 := by
  unfold testCondition
  refine .bind hc ?_
  rintro _ t cs - ⟨rfl, ht, hr⟩
  refine .bind (generates_acquire (by omega)) ?_
  rintro _ u _ htu ⟨rfl, hlt, rfl, hu⟩
  rw [ht] at hlt hu ⊢
  refine .bind (generates_emit _) ?_
  rintro _ v _ huv ⟨rfl, hv⟩
  refine .bind (generates_emit _) ?_
  rintro _ w _ hvw ⟨rfl, hw⟩
  refine .bind (generates_release (k := k + 1) (by rw [hw, hv, hu])) ?_
  rintro _ x _ hwx ⟨rfl, hx⟩
  refine .bind (generates_release hx) ?_
  rintro _ y _ hxy ⟨rfl, hy⟩
  refine (generates_branch .jumpIfZero).mono ?_
  rintro fixup z _ hyz ⟨rfl, hz, hsite⟩
  refine ⟨hz.trans hy, hlt, hsite, t, cs, hr, ?_, rfl⟩
  exact htu.grows.trans (huv.grows.trans (hvw.grows.trans (hwx.grows.trans
    (hxy.grows.trans hyz.grows))))

theorem testItems_eq (k distance : Nat) : testItems k distance =
    [.plain (.sse .xorPd (reg (k + 1)) (reg (k + 1))),
      .plain (.sse .uComISd (reg k) (reg (k + 1)))] ++
        [.plain (.jumpIfZero (Int32.ofNat distance))] := rfl

theorem ends_alternative {onFalse : GenM (Option Xmm)} {finish : Option Xmm → GenM (Option Xmm)}
    {k : Nat} {value : Option Xmm} {F : State → List Item → Prop} {a b : State} {cs ts : List Item}
    {toFalse : Fixup} {ok : Option Xmm → State → Prop} (hbused : b.used = k)
    (hsa : Emits home s a (cs ++ testItems k 0)) (hab : Emits home a b ts)
    (hsite : toFalse.site = a.asm.code.size - 4)
    (hf : ∀ t : State, t.used = k → Generates home D onFalse t fun v u is => v = value ∧ F u is)
    (hfinish : ∀ w f fs, F f fs → f.used = w.used → b.Grows f → f.Grows w →
      (w.Short → sizeOf ts + 5 < 0x80000000 ∧ sizeOf fs < 0x80000000) →
      Emits home s w (conditionalItems k cs ts fs) →
      Ends (finish value) w ok fun fault _ => D.Blames fault) :
    Ends (do
      let toEnd ← asm Assembler.jump
      asm (do Assembler.patch toFalse (← Assembler.position))
      let f ← onFalse
      asm (do Assembler.patch toEnd (← Assembler.position))
      finish f) b ok fun fault _ => D.Blames fault := by
  have hjump : Ends (asm Assembler.jump) b (fun toEnd c => Emits home b c [.plain (.jump 0)] ∧
      c.used = b.used ∧ toEnd.site = c.asm.code.size - 4) fun fault _ => D.Blames fault := by
    refine Ends.mono (@generates_branch home D b .jump) ?_ fun _ _ h => h
    rintro toEnd c ⟨_, hbc, rfl, hcused, hsite⟩
    exact ⟨hbc, hcused, hsite⟩
  refine (ends_bind _ _).2 (hjump.mono ?_ fun _ _ h => h)
  intro toEnd c hend
  have hbc := hend.1
  have hcused := hend.2.1
  have hsite' := hend.2.2
  have hsc : Emits home s c ((cs ++ [.plain (.sse .xorPd (reg (k + 1)) (reg (k + 1))),
      .plain (.sse .uComISd (reg k) (reg (k + 1)))]) ++
        (.plain (.jumpIfZero 0) :: (ts ++ [.plain (.jump 0)]))) := by
    have h := (hsa.trans hab).trans hbc
    rw [testItems_eq] at h
    simpa using h
  have hsize := hsa.size_eq
  rw [testItems_eq, sizeOf_append, sizeOf_append, sizeOf_jumpIfZero] at hsize
  -- The second branch begins behind the jump over it: a test that fails goes there.
  refine ends_patch_bind isBranch_jumpIfZero hsc ?_ ?_
  · rw [hsite, hsize, sizeOf_append]
    simp only [List.length_cons, List.length_nil]
    omega
  intro d hsd hdused hcd
  rw [sizeOf_append, sizeOf_jump] at hsd
  refine (ends_bind _ _).2 (Ends.mono (hf d (hdused.trans (hcused.trans hbused))) ?_ fun _ _ h => h)
  rintro _ e ⟨fs, hde, rfl, hF⟩
  have hse : Emits home s e ((cs ++ (testItems k (sizeOf ts + 5) ++ ts)) ++
      (.plain (.jump 0) :: fs)) := by
    have h := hsd.trans hde
    rw [testItems_eq]
    simpa using h
  -- Behind both is the end, where the first branch jumps to.
  refine ends_patch_bind isBranch_jump hse ?_ ?_
  · have hcsize := hbc.size_eq
    have hbsize := hab.size_eq
    have htest : sizeOf (testItems k (sizeOf ts + 5)) = sizeOf (testItems k 0) := by
      rw [testItems_eq, testItems_eq, sizeOf_append, sizeOf_append, sizeOf_jumpIfZero,
        sizeOf_jumpIfZero]
    have hasize := hsa.size_eq
    rw [sizeOf_append] at hasize
    rw [hsite', hcsize, hbsize, hasize, sizeOf_jump, sizeOf_append, sizeOf_append, htest]
    simp only [List.length_cons, List.length_nil]
    omega
  intro w hsw hwused hew
  refine hfinish w e fs hF hwused.symm (hbc.grows.trans (hcd.trans hde.grows)) hew ?_ ?_
  · intro hw
    have he := hew.short hw
    have hc := hcd.short (hde.grows.short he)
    have hts := hc.sizeOf_lt (hab.trans hbc)
    rw [sizeOf_append, sizeOf_jump] at hts
    exact ⟨hts, he.sizeOf_lt hde⟩
  · rw [conditionalItems]
    simpa using hsw

theorem generates_conditional {condition onTrue onFalse : GenM (Option Xmm)} {k : Nat}
    {hasValue : Bool} {C T F : State → List Item → Prop}
    (hc : Generates home D (required condition) s fun r t is => r = reg k ∧ t.used = k + 1 ∧ C t is)
    (ht : ∀ t : State, t.used = k → Generates home D onTrue t fun v u is =>
      v = (if hasValue then some (reg k) else none) ∧ u.used = k + hasValue.toNat ∧ T u is)
    (hf : ∀ t : State, t.used = k → Generates home D onFalse t fun v u is =>
      v = (if hasValue then some (reg k) else none) ∧ u.used = k + hasValue.toNat ∧ F u is)
    (hD : k + 2 ≤ D.registers) :
    Generates home D (conditional condition onTrue onFalse hasValue) s fun v w is =>
      v = (if hasValue then some (reg k) else none) ∧ w.used = k + hasValue.toNat ∧ k + 1 < 16 ∧
        ∃ c cs t ts f fs, (C c cs ∧ c.Grows w) ∧ (T t ts ∧ t.Grows w) ∧ (F f fs ∧ f.Grows w) ∧
          (w.Short → sizeOf ts + 5 < 0x80000000 ∧ sizeOf fs < 0x80000000) ∧
          is = conditionalItems k cs ts fs := by
  unfold conditional
  refine (ends_bind _ _).2 (Ends.mono (generates_testCondition hc hD) ?_ fun _ _ hb => hb)
  rintro toFalse a ⟨_, hsa, haused, hlt, hsite, c, cs, hC, hca, rfl⟩
  refine (ends_bind _ _).2 (Ends.mono (ht a haused) ?_ fun _ _ hb => hb)
  rintro _ b ⟨ts, hab, rfl, hbused, hT⟩
  have done : ∀ (b' w f : State) (fs : List Item), b.Grows b' →
      (f.used = k + hasValue.toNat ∧ F f fs) → f.used = w.used → b'.Grows f → f.Grows w →
      (w.Short → sizeOf ts + 5 < 0x80000000 ∧ sizeOf fs < 0x80000000) →
      Emits home s w (conditionalItems k cs ts fs) → ∃ is, Emits home s w is ∧
        (if hasValue then some (reg k) else none) = (if hasValue then some (reg k) else none) ∧
        w.used = k + hasValue.toNat ∧ k + 1 < 16 ∧
        ∃ c cs t ts f fs, (C c cs ∧ c.Grows w) ∧ (T t ts ∧ t.Grows w) ∧ (F f fs ∧ f.Grows w) ∧
          (w.Short → sizeOf ts + 5 < 0x80000000 ∧ sizeOf fs < 0x80000000) ∧
          is = conditionalItems k cs ts fs := by
    intro b' w f fs hbb' hF hused hb'f hfw hsizes hsw
    have hbw := hbb'.trans (hb'f.trans hfw)
    exact ⟨_, hsw, rfl, hused ▸ hF.1, hlt, c, cs, b, ts, f, fs, ⟨hC, hca.trans (hab.grows.trans hbw)⟩,
      ⟨hT, hbw⟩, ⟨hF.2, hfw⟩, hsizes, rfl⟩
  cases hasValue with
  | true =>
    -- the register of the first value is free again for the other branch
    refine (ends_bind _ _).2 (Ends.mono (@generates_release home D b k hbused) ?_ fun _ _ h => h)
    rintro _ b' ⟨_, hbb', rfl, hb'used⟩
    have hab' : Emits home a b' ts := List.append_nil ts ▸ hab.trans hbb'
    refine ends_alternative hb'used hsa hab' hsite hf ?_
    intro w f fs hF hused hb'f hfw hsizes hsw
    show Ends (if reg k = reg k then pure (some (reg k)) else internal .branchesDisagree) w _ _
    rw [if_pos rfl]
    exact (ends_pure _).2 (done b' w f fs hbb'.grows hF hused hb'f hfw hsizes hsw)
  | false =>
    refine ends_alternative hbused hsa hab hsite hf ?_
    intro w f fs hF hused hbf hfw hsizes hsw
    show Ends (pure none) w _ _
    exact (ends_pure _).2 (done b w f fs (.refl b) hF hused hbf hfw hsizes hsw)

end Codegen
end ScalarJit
