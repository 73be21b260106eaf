import ScalarJit.Proofs.Codegen.Steps

/-! # Generating calls

A call spills every register that is held, loads its arguments from what was spilled, and restores
the registers below its arguments. -/

namespace ScalarJit.Codegen

open X86 (Assembler Instr Mem Xmm)

variable {home : SectionId} {D : Demand} {s : State}

def regs (first count : Nat) : List Xmm := (List.range' first count).map reg

theorem regs_succ (first count : Nat) :
    regs first (count + 1) = reg first :: regs (first + 1) count := rfl

@[simp]
theorem length_regs (first count : Nat) : (regs first count).length = count := by
  simp [regs]

theorem take_regs (count more : Nat) : (regs 0 (count + more)).take count = regs 0 count := by
  rw [regs, ← List.range'_append_1, List.map_append]
  exact List.take_left' (length_regs 0 count)

theorem generates_spill (first count : Nat) :
    Generates home D (spill first (regs first count)) s fun _ t is =>
      is = (List.range' first count).map (fun i => .plain (.store (spillCell i) (reg i))) ∧
        t.used = s.used := by
  induction count generalizing first s with
  | zero => exact .pure ⟨rfl, rfl⟩
  | succ count ih =>
    rw [regs_succ, spill]
    refine .bind (generates_emit _) ?_
    rintro _ t _ - ⟨rfl, ht⟩
    refine (ih (first + 1)).mono ?_
    rintro _ u _ - ⟨rfl, hu⟩
    exact ⟨rfl, hu.trans ht⟩

theorem generates_reload (first count : Nat) :
    Generates home D (reload first (regs first count)) s fun _ t is =>
      is = (List.range' first count).map (fun i => .plain (.sseLoad .movSd (reg i) (spillCell i))) ∧
        t.used = s.used := by
  induction count generalizing first s with
  | zero => exact .pure ⟨rfl, rfl⟩
  | succ count ih =>
    rw [regs_succ, reload]
    refine .bind (generates_emit _) ?_
    rintro _ t _ - ⟨rfl, ht⟩
    refine (ih (first + 1)).mono ?_
    rintro _ u _ - ⟨rfl, hu⟩
    exact ⟨rfl, hu.trans ht⟩

theorem argument?_eq {index : Nat} (h : index < 8) : Xmm.argument? index = some (reg index) := by
  have hmod : index % 16 = index := Nat.mod_eq_of_lt (by omega)
  simp [Xmm.argument?, h, reg, hmod]

theorem generates_loadArguments (base count index : Nat)
    (hD : D.lowerable → index + count ≤ maxArguments) :
    Generates home D (loadArguments base count index) s fun _ t is =>
      (count ≠ 0 → index + count ≤ maxArguments) ∧
        is = (List.range' index count).map
          (fun i => .plain (.sseLoad .movSd (reg i) (spillCell (base + i)))) ∧
        t.used = s.used := by
  induction count generalizing index s with
  | zero => exact .pure ⟨fun h => absurd rfl h, rfl, rfl⟩
  | succ count ih =>
    rw [loadArguments]
    by_cases hindex : index < 8
    · rw [argument?_eq hindex]
      dsimp only
      refine .bind (generates_emit _) ?_
      rintro _ t _ - ⟨rfl, ht⟩
      refine (ih (index + 1) (fun h => by have := hD h; omega)).mono ?_
      rintro _ u _ - ⟨hcount, rfl, hu⟩
      refine ⟨fun _ => ?_, rfl, hu.trans ht⟩
      by_cases hzero : count = 0
      · rw [hzero, maxArguments]
        omega
      · have := hcount hzero
        omega
    · have hnone : Xmm.argument? index = none := by simp [Xmm.argument?, hindex]
      rw [hnone]
      dsimp only
      have hno : ¬D.lowerable := by
        intro h
        have hle := hD h
        rw [maxArguments] at hle
        omega
      exact .bind (Generates.fail (Q := fun _ _ _ => False) hno) fun _ _ _ _ h => h.elim

theorem generates_callTarget [HostAddresses] {ctx : Context} (t : Target) :
    Generates ctx.home D (callTarget ctx t) s fun _ u is => is = targetItems t ∧ u.used = s.used := by
  unfold callTarget
  cases t with
  | code id =>
    dsimp only
    refine .bind (generates_loadLinked _ _) ?_
    rintro _ t _ - ⟨rfl, ht⟩
    refine (generates_emit _).mono ?_
    rintro _ u _ - ⟨rfl, hu⟩
    exact ⟨rfl, hu.trans ht⟩
  | host f =>
    have hlast : ∀ s : State, Generates ctx.home D (do
        emit (.moveImm .rax f.address)
        emit (.call .rax)) s fun _ u is =>
          is = [.plain (.moveImm .rax f.address), .plain (.call .rax)] ∧ u.used = s.used := by
      intro s
      refine .bind (generates_emit _) ?_
      rintro _ t _ - ⟨rfl, ht⟩
      refine (generates_emit _).mono ?_
      rintro _ u _ - ⟨rfl, hu⟩
      exact ⟨rfl, hu.trans ht⟩
    dsimp only
    split
    · next hcontext =>
      refine .bind (generates_emit _) ?_
      rintro _ t _ - ⟨rfl, ht⟩
      refine (hlast t).mono ?_
      rintro _ u _ - ⟨rfl, hu⟩
      exact ⟨by simp [targetItems, hcontext], hu.trans ht⟩
    · next hcontext =>
      refine (hlast s).mono ?_
      rintro _ u _ - ⟨rfl, hu⟩
      exact ⟨by simp [targetItems, hcontext], hu⟩

theorem generates_releaseAll (first count : Nat) (hs : s.used = first + count) :
    Generates home D (releaseAll (regs first count)) s fun _ t is => is = [] ∧ t.used = first := by
  induction count generalizing first s with
  | zero => exact .pure ⟨rfl, hs⟩
  | succ count ih =>
    rw [regs_succ, releaseAll]
    refine .bind (ih (first + 1) (by omega)) ?_
    rintro _ t _ - ⟨rfl, ht⟩
    refine (generates_release ht).mono ?_
    rintro _ u _ - ⟨rfl, hu⟩
    exact ⟨rfl, hu⟩

theorem generates_restore {k : Nat} (more area : Nat) (result : Option Xmm)
    (hs : s.used = k + more) :
    Generates home D (do
      let held ← live
      reload 0 (held.take k)
      if 0 < area then do
        asm (Assembler.freeStack area)
        pure result
      else pure result) s fun v t is =>
        v = result ∧ t.used = k + more ∧
          is = reloadItems k ++
            (if 0 < area then [.plain (.free (Int32.ofNat area))] else []) := by
  refine .bind generates_live ?_
  rintro _ s _ - ⟨rfl, rfl, rfl⟩
  have hheld : ((List.range' 0 s.used).map reg).take k = regs 0 k := by
    rw [hs]
    exact take_regs k more
  rw [hheld]
  refine .bind (generates_reload 0 k) ?_
  rintro _ t _ - ⟨rfl, ht⟩
  have hitems : (List.range' 0 k).map (fun i => Item.plain (.sseLoad .movSd (reg i) (spillCell i))) =
      reloadItems k := by
    rw [reloadItems, List.range_eq_range']
  split
  · refine .bind (generates_freeStack area) ?_
    rintro _ u _ - ⟨rfl, hu⟩
    refine .pure ⟨rfl, hu.trans (ht.trans hs), ?_⟩
    rw [hitems]
    rfl
  · refine .pure ⟨rfl, ht.trans hs, ?_⟩
    rw [hitems]
    rfl

theorem generates_result {k : Nat} (returns : Bool) (area : Nat) (hs : s.used = k)
    (hD : returns = true → 16 ≤ k → 16 < D.registers) :
    Generates home D (if returns = true then do
        let r ← acquire
        if r ≠ Xmm.result then do
          emit (.sse .movSd r .result)
          let result ← pure (some r)
          let held ← live
          reload 0 (held.take k)
          if 0 < area then do
            asm (Assembler.freeStack area)
            pure result
          else pure result
        else do
          let result ← pure (some r)
          let held ← live
          reload 0 (held.take k)
          if 0 < area then do
            asm (Assembler.freeStack area)
            pure result
          else pure result
      else do
        let result ← pure none
        let held ← live
        reload 0 (held.take k)
        if 0 < area then do
          asm (Assembler.freeStack area)
          pure result
        else pure result) s fun v t is =>
          v = (if returns then some (reg k) else none) ∧ t.used = k + returns.toNat ∧
            (returns = true → k < 16) ∧ is = resultItems returns k ++ (reloadItems k ++
              (if 0 < area then [.plain (.free (Int32.ofNat area))] else [])) := by
  cases returns with
  | false =>
    refine (generates_restore 0 area none hs).mono ?_
    rintro v t _ - ⟨rfl, ht, rfl⟩
    exact ⟨rfl, ht, fun h => Bool.noConfusion h, rfl⟩
  | true =>
    simp only [if_true]
    refine .bind (generates_acquire (hs.symm ▸ hD rfl)) ?_
    rintro r t _ - ⟨rfl, hlt, rfl, ht⟩
    rw [hs] at hlt ht ⊢
    split
    · next hne =>
      refine .bind (generates_emit _) ?_
      rintro _ u _ - ⟨rfl, hu⟩
      refine (generates_restore 1 area (some (reg k)) (hu.trans ht)).mono ?_
      rintro v w _ - ⟨rfl, hw, rfl⟩
      exact ⟨rfl, hw, fun _ => hlt, by simp [resultItems, hne]⟩
    · next heq =>
      refine (generates_restore 1 area (some (reg k)) ht).mono ?_
      rintro v w _ - ⟨rfl, hw, rfl⟩
      exact ⟨rfl, hw, fun _ => hlt, by simp [resultItems, heq]⟩

theorem generates_transfer [HostAddresses] {ctx : Context} {finish : GenM (Option Xmm)}
    {k count : Nat}
    {R : Option Xmm → State → List Item → Prop} (t : Target) (hs : s.used = k + count)
    (hD : D.lowerable → count ≤ maxArguments) (hfinish : ∀ v, v.used = k → Generates ctx.home D finish v R) :
    Generates ctx.home D (do
      spill 0 (regs 0 (k + count))
      loadArguments k count 0
      callTarget ctx t
      releaseAll (regs k count)
      finish) s fun b w is => count ≤ maxArguments ∧ ∃ js, R b w js ∧
        is = spillItems (k + count) ++ (argumentItems k count ++ (targetItems t ++ js)) := by
  refine .bind (generates_spill 0 (k + count)) ?_
  rintro _ v₁ _ - ⟨rfl, hv₁⟩
  refine .bind (generates_loadArguments k count 0 fun h => by simpa using hD h) ?_
  rintro _ v₂ _ - ⟨hcount, rfl, hv₂⟩
  refine .bind (generates_callTarget t) ?_
  rintro _ v₃ _ - ⟨rfl, hv₃⟩
  refine .bind (generates_releaseAll k count (by rw [hv₃, hv₂, hv₁, hs])) ?_
  rintro _ v₄ _ - ⟨rfl, hv₄⟩
  refine (hfinish v₄ hv₄).mono ?_
  intro b w js _ hr
  refine ⟨?_, js, hr, ?_⟩
  · by_cases hzero : count = 0
    · rw [hzero]
      exact Nat.zero_le _
    · simpa using hcount hzero
  · simp [spillItems, argumentItems, List.range_eq_range']

theorem generates_call [HostAddresses] {ctx : Context} {arguments : GenM (List Xmm)} {k count : Nat}
    {R : State → List Item → Prop} (t : Target) (returns : Bool) (hs : s.used = k)
    (hargs : Generates ctx.home D arguments s fun rs u is =>
      rs = regs k count ∧ u.used = k + count ∧ R u is)
    (hD : D.lowerable → count ≤ maxArguments) (hresult : returns = true → 16 ≤ k → 16 < D.registers) :
    Generates ctx.home D (call ctx t arguments returns) s fun v w is =>
      v = (if returns then some (reg k) else none) ∧ w.used = k + returns.toNat ∧
        count ≤ maxArguments ∧ k + count ≤ 16 ∧ (returns = true → k < 16) ∧
        ∃ u as, R u as ∧ u.Grows w ∧ is = as ++ callItems t k count returns := by
  unfold call
  refine .bind generates_live ?_
  rintro _ s _ - ⟨rfl, rfl, rfl⟩
  refine .bind hargs ?_
  rintro _ u₀ as - ⟨rfl, hu, hr⟩
  refine .bind generates_live ?_
  rintro _ u _ - ⟨rfl, rfl, rfl⟩
  have hheld : (List.range' 0 u.used).map reg = regs 0 (k + count) := by rw [hu, regs]
  have hle : k + count ≤ 16 := hu ▸ u.used_le
  dsimp only
  rw [hheld]
  simp only [List.length_map, List.length_range', length_regs]
  rw [hs]
  generalize harea : roundUp 16 (8 * (k + count)) = area
  have hitems : callItems t k count returns =
      (if 0 < area then [.plain (.reserve (Int32.ofNat area))] else []) ++
        (spillItems (k + count) ++ (argumentItems k count ++ (targetItems t ++
          (resultItems returns k ++ (reloadItems k ++
            (if 0 < area then [.plain (.free (Int32.ofNat area))] else [])))))) := by
    rw [callItems, callArea, harea]
  rw [hitems]
  refine .ite (fun hpos => ?_) fun hzero => ?_
  · refine .bind (generates_reserveStack area) ?_
    rintro _ v _ huv ⟨rfl, hv, -⟩
    refine (generates_transfer t (hv.trans hu) hD fun w hw =>
      generates_result returns area hw hresult).mono ?_
    rintro b w _ hvw ⟨hcount, _, ⟨rfl, hw, hlt, rfl⟩, rfl⟩
    refine ⟨rfl, hw, hcount, hle, hlt, u, as, hr, huv.grows.trans hvw.grows, ?_⟩
    simp [hpos]
  · refine (generates_transfer t hu hD fun w hw =>
      generates_result returns area hw hresult).mono ?_
    rintro b w _ huw ⟨hcount, _, ⟨rfl, hw, hlt, rfl⟩, rfl⟩
    refine ⟨rfl, hw, hcount, hle, hlt, u, as, hr, huw.grows, ?_⟩
    simp [hzero]

end ScalarJit.Codegen
