import ScalarJit.Proofs.Grammar.Steps
import ScalarJit.Proofs.Tree.WellFormed

/-! # What reading does to the function that is being read

However a step of reading inside a block ends, it leaves the other blocks that there were alone, the
blocks that it opened are closed again and hold well-formed statements only, and each slot it gave
out belongs to one variable. -/

namespace ScalarJit.Grammar

namespace State

def surroundings (s : State) : Surroundings where
  blocks := s.scope.blocks
  declares name signature := s.signature? name = some signature
  result := s.scope.signature.result

def Sound (s : State) (id : BlockId) : Prop :=
  ∀ b, s.scope.blocks[id]? = some b → ∀ e ∈ b.statements,
    e.useful = true ∧ e.WellFormed s.surroundings id

/-- Each slot that was given out belongs to one variable. -/
def SlotsShared (s : State) : Prop := (slotsOf s.scope.blocks).Perm (List.range s.scope.slots)

def Inside (s : State) (id : BlockId) : Prop :=
  s.scope.current = some id ∧ id < s.scope.blocks.length

theorem Inside.here_eq {s : State} {id : BlockId} (h : s.Inside id) : s.here = id := by
  rw [here, h.1, Option.getD_some]

end State

structure Untouched (s t : State) : Prop where
  functions : t.functions = s.functions
  externs : t.externs = s.externs
  scope : t.scope = s.scope

namespace Untouched

theorem refl (s : State) : Untouched s s := ⟨rfl, rfl, rfl⟩

theorem trans {s t u : State} (h : Untouched s t) (h' : Untouched t u) : Untouched s u :=
  ⟨h'.functions.trans h.functions, h'.externs.trans h.externs, h'.scope.trans h.scope⟩

theorem bump (s : State) : Untouched s s.bump := ⟨rfl, rfl, rfl⟩

theorem bump_brackets (s : State) (count : Nat) : Untouched s { s with brackets := count }.bump :=
  ⟨rfl, rfl, rfl⟩

theorem report (s : State) (p : Problem) : Untouched s (s.report p) := ⟨rfl, rfl, rfl⟩

theorem skipStatement (bound depth : Nat) (s : State) :
    Untouched s (s.skipStatement bound depth) := by
  induction bound generalizing depth s with
  | zero => exact .refl s
  | succ bound ih =>
    have next (depth : Nat) : Untouched s (s.bump.skipStatement bound depth) :=
      (bump s).trans (ih depth s.bump)
    rw [State.skipStatement]
    split
    · exact .refl s
    · split
      · exact .refl s
      · exact next _
    · split
      · exact .refl s
      · exact next _
    · exact next _
    · exact next _

theorem endStatement (s : State) : Untouched s s.endStatement :=
  have h := skipStatement s.remaining 0 { s with brackets := 0 }
  ⟨h.functions, h.externs, h.scope⟩

theorem skipDeclaration (bound depth : Nat) (s : State) :
    Untouched s (s.skipDeclaration bound depth) := by
  induction bound generalizing depth s with
  | zero => exact .refl s
  | succ bound ih =>
    have next (depth : Nat) : Untouched s (s.bump.skipDeclaration bound depth) :=
      (bump s).trans (ih depth s.bump)
    rw [State.skipDeclaration]
    split
    · exact .refl s
    · split
      · exact .refl s
      · exact next _
    · split
      · exact bump s
      · exact next _
    · exact next _
    · exact next _

theorem endDeclaration (s : State) : Untouched s s.endDeclaration :=
  have h := skipDeclaration s.remaining 0 { s with brackets := 0 }
  ⟨h.functions, h.externs, h.scope⟩

theorem skipNewlines (bound : Nat) (s : State) : Untouched s (skipNewlines bound s) := by
  induction bound generalizing s with
  | zero => exact .refl s
  | succ bound ih =>
    rw [Grammar.skipNewlines]
    split
    · exact (bump s).trans (ih s.bump)
    · exact .refl s

end Untouched

/-- What a step inside the block `id` does to the function that is being read. -/
structure Advance (id : BlockId) (s t : State) : Prop where
  functions : t.functions = s.functions
  externs : t.externs = s.externs
  name : t.scope.name = s.scope.name
  signature : t.scope.signature = s.scope.signature
  current : t.scope.current = s.scope.current
  grows : Grows id s.scope.blocks t.scope.blocks
  fresh : ∀ (i : Nat) (b : Block), s.scope.blocks.length ≤ i → t.scope.blocks[i]? = some b →
    (∃ parent < i, b.parent = some parent) ∧ t.Sound i
  sound : s.Sound id → t.Sound id
  slots : s.SlotsShared → t.SlotsShared

namespace Advance

variable {id : BlockId} {s t u : State}

theorem of_untouched (h : Untouched s t) : Advance id s t where
  functions := h.functions
  externs := h.externs
  name := by rw [h.scope]
  signature := by rw [h.scope]
  current := by rw [h.scope]
  grows := by
    rw [h.scope]
    exact .refl id _
  fresh := by
    intro i b hi hb
    rw [h.scope, List.getElem?_eq_none hi] at hb
    cases hb
  sound := by
    intro hsound
    have hsur : t.surroundings = s.surroundings := by
      simp only [State.surroundings, State.signature?, h.functions, h.externs, h.scope]
    rwa [State.Sound, hsur, h.scope]
  slots := by
    intro hslots
    rwa [State.SlotsShared, h.scope]

theorem refl (id : BlockId) (s : State) : Advance id s s := of_untouched (.refl s)

theorem inside (h : Advance id s t) {here : BlockId} (hs : s.Inside here) : t.Inside here :=
  ⟨h.current.trans hs.1, Nat.lt_of_lt_of_le hs.2 h.grows.length_le⟩

theorem signature?_eq (h : Advance id s t) (name : String) : t.signature? name = s.signature? name := by
  simp only [State.signature?, h.functions, h.externs, h.name, h.signature]

theorem wellFormed (h : Advance id s t) {here : BlockId} (hid : id ≤ here) {e : Expr}
    (he : e.WellFormed s.surroundings here) : e.WellFormed t.surroundings here :=
  he.grows hid h.grows (fun _ _ hs => (h.signature?_eq _).trans hs)
    (congrArg Signature.result h.signature)

theorem sound_of_ne (h : Advance id s t) {i : Nat} (hid : id < i) (hi : i < s.scope.blocks.length)
    (hs : s.Sound i) : t.Sound i := by
  intro b hb e he
  have hold := h.grows.getElem?_of_ne (Nat.ne_of_gt hid) (List.getElem?_eq_getElem hi)
  rw [hold, Option.some_inj] at hb
  obtain ⟨hu, hw⟩ := hs b (by rw [List.getElem?_eq_getElem hi, hb]) e he
  exact ⟨hu, h.wellFormed (Nat.le_of_lt hid) hw⟩

theorem trans (hs : s.Inside id) (h : Advance id s t) (h' : Advance id t u) : Advance id s u where
  functions := h'.functions.trans h.functions
  externs := h'.externs.trans h.externs
  name := h'.name.trans h.name
  signature := h'.signature.trans h.signature
  current := h'.current.trans h.current
  grows := h.grows.trans h'.grows
  fresh := by
    intro i b hi hb
    -- a block that the first step opened is not `id`, so the second step leaves it alone
    have hid : id < i := Nat.lt_of_lt_of_le hs.2 hi
    by_cases ht : i < t.scope.blocks.length
    · have hold := h'.grows.getElem?_of_ne (Nat.ne_of_gt hid) (List.getElem?_eq_getElem ht)
      obtain ⟨hp, hsound⟩ := h.fresh i _ hi (List.getElem?_eq_getElem ht)
      rw [hold, Option.some_inj] at hb
      rw [← hb]
      exact ⟨hp, h'.sound_of_ne hid ht hsound⟩
    · exact h'.fresh i b (Nat.le_of_not_lt ht) hb
  sound := fun hsound => h'.sound (h.sound hsound)
  slots := fun hslots => h'.slots (h.slots hslots)

end Advance

/-! ### Steps that leave the function alone -/

section
variable (id : BlockId) (s : State)

theorem advance_bump : Advance id s s.bump := .of_untouched (.bump s)

theorem advance_brackets (count : Nat) : Advance id s { s with brackets := count } :=
  .of_untouched ⟨rfl, rfl, rfl⟩

theorem advance_bump_brackets (count : Nat) : Advance id s { s with brackets := count }.bump :=
  .of_untouched (.bump_brackets s count)

theorem advance_descend : Advance id s s.descend := .of_untouched ⟨rfl, rfl, rfl⟩

theorem advance_ascend : Advance id s s.ascend := .of_untouched ⟨rfl, rfl, rfl⟩

theorem advance_report (p : Problem) : Advance id s (s.report p) := .of_untouched (.report s p)

theorem advance_endStatement : Advance id s s.endStatement := .of_untouched (.endStatement s)

end
end ScalarJit.Grammar
