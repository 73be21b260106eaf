import Mathlib.Data.List.Basic
import Mathlib.Data.List.Induction
import ScalarJit.Tree.Scope

/-! # Lexical scoping

What a name means depends on the blocks from the one it stands in up to the root, read from the
innermost outwards and in each block from the last variable to the first: it is the first variable of
that name. The search follows parents and has no bound of its own; it ends because a block comes after
its parent. -/

namespace ScalarJit

def ParentsFirst (blocks : List Block) : Prop :=
  ∀ (id : Nat) (b : Block) (parent : Nat), blocks[id]? = some b → b.parent = some parent → parent < id

instance (blocks : List Block) : Decidable (ParentsFirst blocks) :=
  decidable_of_iff (∀ entry ∈ blocks.zipIdx, ∀ parent ∈ entry.1.parent, parent < entry.2) <| by
    simp only [ParentsFirst, Prod.forall, List.mem_zipIdx_iff_getElem?, Option.mem_def]
    exact ⟨fun h id b parent hb => h b id hb parent, fun h b id hb parent => h id b parent hb⟩

/-! ### The variables of a block -/

theorem lastNamed?_concat (name : String) (locals : List Variable) (v : Variable) :
    lastNamed? name (locals ++ [v]) =
      if v.name = name then some locals.length else lastNamed? name locals := by
  induction locals with
  | nil => simp [lastNamed?]
  | cons w rest ih =>
    rw [List.cons_append, lastNamed?, ih, lastNamed?]
    by_cases hv : v.name = name <;> simp [hv]

namespace Block

def declare (b : Block) (v : Variable) : Block := { b with locals := b.locals ++ [v] }

/-- The variables of a block with what refers to them, from the last to the first. -/
def latestFirst (b : Block) (id : BlockId) : List (VarRef × Variable) :=
  (b.locals.zipIdx.map fun (v, index) => (⟨id, index⟩, v)).reverse

theorem latestFirst_declare (b : Block) (v : Variable) (id : BlockId) :
    (b.declare v).latestFirst id = (⟨id, b.locals.length⟩, v) :: b.latestFirst id := by
  simp [latestFirst, declare, List.zipIdx_append]

theorem mem_latestFirst {b : Block} {id : BlockId} {entry : VarRef × Variable} :
    entry ∈ b.latestFirst id ↔ entry.1.block = id ∧ b.locals[entry.1.index]? = some entry.2 := by
  obtain ⟨⟨block, index⟩, v⟩ := entry
  simp only [latestFirst, List.mem_reverse, List.mem_map, Prod.exists, List.mem_zipIdx_iff_getElem?,
    Prod.mk.injEq, VarRef.mk.injEq]
  constructor
  · rintro ⟨w, i, hw, ⟨rfl, rfl⟩, rfl⟩
    exact ⟨rfl, hw⟩
  · rintro ⟨rfl, hv⟩
    exact ⟨v, index, hv, ⟨rfl, rfl⟩, rfl⟩

end Block

def firstNamed? (name : String) (entries : List (VarRef × Variable)) : Option VarRef :=
  (entries.find? (·.2.name = name)).map (·.1)

theorem firstNamed?_append (name : String) (front rest : List (VarRef × Variable)) :
    firstNamed? name (front ++ rest) = (firstNamed? name front).or (firstNamed? name rest) := by
  simp [firstNamed?, List.find?_append, Option.map_or]

theorem firstNamed?_eq_none_iff {name : String} {entries : List (VarRef × Variable)} :
    firstNamed? name entries = none ↔ ∀ entry ∈ entries, entry.2.name ≠ name := by
  simp [firstNamed?]

theorem firstNamed?_latestFirst (name : String) (b : Block) (id : BlockId) :
    firstNamed? name (b.latestFirst id) = (lastNamed? name b.locals).map (⟨id, ·⟩) := by
  obtain ⟨parent, locals, statements⟩ := b
  -- from the last variable on, as the list goes
  induction locals using List.reverseRecOn with
  | nil => rfl
  | append_singleton locals v ih =>
    have hlist := Block.latestFirst_declare ⟨parent, locals, statements⟩ v id
    rw [Block.declare] at hlist
    rw [hlist, lastNamed?_concat]
    by_cases hv : v.name = name
    · simp [firstNamed?, hv]
    · simpa [firstNamed?, hv] using ih

section

variable {blocks : List Block} {name : String} {start : BlockId} {ids : List BlockId}

/-! ### The blocks around a block -/

/-- The blocks from one up to the root, each in front of its parent. -/
inductive Ancestry (blocks : List Block) : BlockId → List BlockId → Prop
  | root {id : BlockId} {b : Block} (hb : blocks[id]? = some b) (hp : b.parent = none) :
      Ancestry blocks id [id]
  | inside {id parent : BlockId} {b : Block} {ids : List BlockId} (hb : blocks[id]? = some b)
      (hp : b.parent = some parent) (h : Ancestry blocks parent ids) : Ancestry blocks id (id :: ids)

theorem exists_ancestry (hparents : ParentsFirst blocks) (hstart : start < blocks.length) :
    ∃ ids, Ancestry blocks start ids := by
  induction start using Nat.strongRecOn with
  | ind start ih =>
    have hb := List.getElem?_eq_getElem hstart
    cases hp : blocks[start].parent with
    | none => exact ⟨[start], .root hb hp⟩
    | some parent =>
      have hlt := hparents start _ parent hb hp
      obtain ⟨ids, h⟩ := ih parent hlt (Nat.lt_trans hlt hstart)
      exact ⟨start :: ids, .inside hb hp h⟩

namespace Ancestry

theorem length_le (hparents : ParentsFirst blocks) (h : Ancestry blocks start ids) :
    ids.length ≤ start + 1 := by
  induction h with
  | root hb hp => simp
  | inside hb hp _ ih =>
    have hlt := hparents _ _ _ hb hp
    rw [List.length_cons]
    omega

theorem lt_length (h : Ancestry blocks start ids) : ∀ id ∈ ids, id < blocks.length := by
  induction h with
  | root hb hp =>
    rw [List.forall_mem_singleton]
    exact (List.getElem?_eq_some_iff.1 hb).1
  | inside hb hp _ ih =>
    rw [List.forall_mem_cons]
    exact ⟨(List.getElem?_eq_some_iff.1 hb).1, ih⟩

theorem append (h : Ancestry blocks start ids) (added : List Block) :
    Ancestry (blocks ++ added) start ids := by
  have hold : ∀ {id : Nat} {b : Block}, blocks[id]? = some b → (blocks ++ added)[id]? = some b := by
    intro id b hb
    rw [List.getElem?_append_left (List.getElem?_eq_some_iff.1 hb).1, hb]
  induction h with
  | root hb hp => exact .root (hold hb) hp
  | inside hb hp _ ih => exact .inside (hold hb) hp ih

theorem modify (h : Ancestry blocks start ids) (changed : BlockId) {f : Block → Block}
    (hparent : ∀ b, (f b).parent = b.parent) : Ancestry (blocks.modify changed f) start ids := by
  have hold : ∀ {id : Nat} {b : Block}, blocks[id]? = some b →
      ∃ b', (blocks.modify changed f)[id]? = some b' ∧ b'.parent = b.parent := by
    intro id b hb
    rw [List.getElem?_modify, hb]
    by_cases hid : changed = id <;> simp [hid, hparent]
  induction h with
  | root hb hp =>
    obtain ⟨b', hb', hp'⟩ := hold hb
    exact .root hb' (hp'.trans hp)
  | inside hb hp _ ih =>
    obtain ⟨b', hb', hp'⟩ := hold hb
    exact .inside hb' (hp'.trans hp) ih

end Ancestry

/-! ### The variables in sight -/

/-- All variables of some blocks, block by block, each block from the last to the first. -/
def listing (blocks : List Block) (ids : List BlockId) : List (VarRef × Variable) :=
  ids.flatMap fun id => (blocks[id]?.map (·.latestFirst id)).getD []

theorem mem_listing {entry : VarRef × Variable} :
    entry ∈ listing blocks ids ↔ ∃ id ∈ ids, ∃ b, blocks[id]? = some b ∧ entry ∈ b.latestFirst id := by
  rw [listing, List.mem_flatMap]
  constructor
  · rintro ⟨id, hid, hentry⟩
    cases hb : blocks[id]? with
    | none => simp [hb] at hentry
    | some b => exact ⟨id, hid, b, hb, by simpa [hb] using hentry⟩
  · rintro ⟨id, hid, b, hb, hentry⟩
    exact ⟨id, hid, by simpa [hb] using hentry⟩

theorem listing_append (hin : ∀ id ∈ ids, id < blocks.length) (added : List Block) :
    listing (blocks ++ added) ids = listing blocks ids := by
  apply List.flatMap_congr
  intro id hid
  rw [List.getElem?_append_left (hin id hid)]

theorem firstNamed?_cons {id : BlockId} {b : Block} (hb : blocks[id]? = some b) :
    firstNamed? name (listing blocks (id :: ids)) =
      ((lastNamed? name b.locals).map (⟨id, ·⟩)).or (firstNamed? name (listing blocks ids)) := by
  have hlist : listing blocks (id :: ids) = b.latestFirst id ++ listing blocks ids := by
    simp [listing, hb]
  rw [hlist, firstNamed?_append, firstNamed?_latestFirst]

theorem firstNamed?_listing_eq_none_iff : firstNamed? name (listing blocks ids) = none ↔
    ∀ id ∈ ids, ∀ b, blocks[id]? = some b → ∀ v ∈ b.locals, v.name ≠ name := by
  rw [firstNamed?_eq_none_iff]
  constructor
  · intro h id hid b hb v hv
    obtain ⟨index, hindex⟩ := List.getElem?_of_mem hv
    have hentry : (⟨id, index⟩, v) ∈ b.latestFirst id := Block.mem_latestFirst.2 ⟨rfl, hindex⟩
    exact h _ (mem_listing.2 ⟨id, hid, b, hb, hentry⟩)
  · intro h entry hentry
    obtain ⟨id, hid, b, hb, hlatest⟩ := mem_listing.1 hentry
    have hlocal := (Block.mem_latestFirst.1 hlatest).2
    exact h id hid b hb entry.2 (List.mem_of_getElem? hlocal)

/-! ### The search -/

/-- The search as a run through a number of blocks. Nothing ends it but a declaration, a block without
a parent, or a block that is not there. -/
inductive Search (blocks : List Block) (name : String) : Nat → BlockId → Option VarRef → Prop
  | found {id : BlockId} {b : Block} {index : Nat} (hb : blocks[id]? = some b)
      (hn : lastNamed? name b.locals = some index) : Search blocks name 1 id (some ⟨id, index⟩)
  | root {id : BlockId} {b : Block} (hb : blocks[id]? = some b) (hn : lastNamed? name b.locals = none)
      (hp : b.parent = none) : Search blocks name 1 id none
  | parent {turns : Nat} {id parent : BlockId} {b : Block} {answer : Option VarRef}
      (hb : blocks[id]? = some b) (hn : lastNamed? name b.locals = none) (hp : b.parent = some parent)
      (h : Search blocks name turns parent answer) : Search blocks name (turns + 1) id answer
  | outside {id : BlockId} (hb : blocks[id]? = none) : Search blocks name 1 id none

theorem Search.resolveWithin {turns bound : Nat} {answer : Option VarRef}
    (h : Search blocks name turns start answer) (hle : turns ≤ bound) :
    ScalarJit.resolveWithin blocks name bound start = answer := by
  induction h generalizing bound with
  | found hb hn =>
    obtain ⟨bound, rfl⟩ := Nat.exists_eq_add_of_le' hle
    simp [ScalarJit.resolveWithin, hb, hn]
  | root hb hn hp =>
    obtain ⟨bound, rfl⟩ := Nat.exists_eq_add_of_le' hle
    simp [ScalarJit.resolveWithin, hb, hn, hp]
  | parent hb hn hp _ ih =>
    obtain ⟨bound, rfl⟩ := Nat.exists_eq_add_of_le' (Nat.le_of_add_left_le hle)
    have hrest := @ih bound (by omega)
    simpa [ScalarJit.resolveWithin, hb, hn, hp] using hrest
  | outside hb =>
    obtain ⟨bound, rfl⟩ := Nat.exists_eq_add_of_le' hle
    simp [ScalarJit.resolveWithin, hb]

theorem Search.unique {turns turns' : Nat} {answer answer' : Option VarRef}
    (h : Search blocks name turns start answer) (h' : Search blocks name turns' start answer') :
    answer = answer' := by
  rw [← h.resolveWithin (Nat.le_max_left turns turns'), ← h'.resolveWithin (Nat.le_max_right turns turns')]

theorem Ancestry.search (h : Ancestry blocks start ids) (name : String) :
    ∃ turns ≤ ids.length, Search blocks name turns start (firstNamed? name (listing blocks ids)) := by
  induction h with
  | @root id b hb hp =>
    rw [firstNamed?_cons hb]
    cases hn : lastNamed? name b.locals with
    | none => exact ⟨1, by simp, .root hb hn hp⟩
    | some index => exact ⟨1, by simp, .found hb hn⟩
  | @inside id parent b ids hb hp _ ih =>
    obtain ⟨turns, hturns, hsearch⟩ := ih
    rw [firstNamed?_cons hb]
    -- a declaration ends the search before the blocks further out
    cases hn : lastNamed? name b.locals with
    | none => exact ⟨turns + 1, Nat.succ_le_succ hturns, .parent hb hn hp hsearch⟩
    | some index => exact ⟨1, by simp, .found hb hn⟩

theorem Ancestry.resolve_eq (h : Ancestry blocks start ids) (hle : ids.length ≤ blocks.length)
    (name : String) : resolve blocks start name = firstNamed? name (listing blocks ids) := by
  obtain ⟨turns, hturns, hsearch⟩ := h.search name
  exact hsearch.resolveWithin (Nat.le_trans hturns hle)

/-- Among blocks without the name that only lead to one another no search ends. -/
theorem not_search_of_circle {turns : Nat} {answer : Option VarRef} {circle : BlockId → Prop}
    (hcircle : ∀ id, circle id → ∃ b parent, blocks[id]? = some b ∧
      lastNamed? name b.locals = none ∧ b.parent = some parent ∧ circle parent)
    (hstart : circle start) : ¬Search blocks name turns start answer := by
  intro h
  induction h with
  | found hb hn =>
    obtain ⟨b, parent, hb', hn', -⟩ := hcircle _ hstart
    obtain rfl := Option.some.inj (hb.symm.trans hb')
    rw [hn'] at hn
    cases hn
  | root hb hn hp =>
    obtain ⟨b, parent, hb', -, hp', -⟩ := hcircle _ hstart
    obtain rfl := Option.some.inj (hb.symm.trans hb')
    rw [hp'] at hp
    cases hp
  | parent hb hn hp _ ih =>
    obtain ⟨b, parent, hb', -, hp', hnext⟩ := hcircle _ hstart
    obtain rfl := Option.some.inj (hb.symm.trans hb')
    obtain rfl := Option.some.inj (hp.symm.trans hp')
    exact ih hnext
  | outside hb =>
    obtain ⟨b, parent, hb', -⟩ := hcircle _ hstart
    cases hb.symm.trans hb'

/-! ### Additions -/

/-- Blocks are appended, and variables that are of another name or in none of the given blocks. -/
inductive Additions (ids : List BlockId) (name : String) (before : List Block) : List Block → Prop
  | refl : Additions ids name before before
  | block {after : List Block} (h : Additions ids name before after) (b : Block) :
      Additions ids name before (after ++ [b])
  | declaration {after : List Block} (h : Additions ids name before after) (id : BlockId)
      (v : Variable) (haside : id ∉ ids ∨ v.name ≠ name) :
      Additions ids name before (after.modify id (·.declare v))

theorem firstNamed?_declare {id : BlockId} {v : Variable} (hin : ∀ id ∈ ids, id < blocks.length)
    (haside : id ∉ ids ∨ v.name ≠ name) :
    firstNamed? name (listing (blocks.modify id (·.declare v)) ids) =
      firstNamed? name (listing blocks ids) := by
  induction ids with
  | nil => rfl
  | cons head rest ih =>
    obtain ⟨hhead, hin⟩ := List.forall_mem_cons.1 hin
    have hb := List.getElem?_eq_getElem hhead
    have hrest := ih hin (haside.imp_left fun h hmem => h (List.mem_cons_of_mem head hmem))
    by_cases hid : id = head
    · subst hid
      -- a block in the list gains another name only
      have hother : v.name ≠ name := haside.resolve_left fun h => h List.mem_cons_self
      have hb' : (blocks.modify id (·.declare v))[id]? = some (blocks[id].declare v) := by
        simp [hb]
      have hlast : lastNamed? name (blocks[id].declare v).locals = lastNamed? name blocks[id].locals :=
        (lastNamed?_concat name _ v).trans (if_neg hother)
      rw [firstNamed?_cons hb', firstNamed?_cons hb, hlast, hrest]
    · have hb' : (blocks.modify id (·.declare v))[head]? = some blocks[head] := by
        simp [hid, hb]
      rw [firstNamed?_cons hb', firstNamed?_cons hb, hrest]

theorem Additions.keeps {before after : List Block} (hadd : Additions ids name before after)
    (h : Ancestry before start ids) :
    Ancestry after start ids ∧ before.length ≤ after.length ∧
      firstNamed? name (listing after ids) = firstNamed? name (listing before ids) := by
  induction hadd with
  | refl => exact ⟨h, Nat.le_refl _, rfl⟩
  | block _ b ih =>
    obtain ⟨h, hle, hfirst⟩ := ih
    exact ⟨h.append [b], Nat.le_trans hle (by simp), by rw [listing_append h.lt_length, hfirst]⟩
  | declaration _ id v haside ih =>
    obtain ⟨h, hle, hfirst⟩ := ih
    exact ⟨h.modify id fun _ => rfl, by simpa using hle,
      by rw [firstNamed?_declare h.lt_length haside, hfirst]⟩

/-- A name means the innermost variable of that name, the last one where a block has several. The
search ends with it after the blocks around it at the latest, and with nothing only if none of them
declares the name. What else the arena gains does not change it. -/
theorem resolve_innermost (hparents : ParentsFirst blocks) (hstart : start < blocks.length)
    (name : String) :
    (∃ ids, Ancestry blocks start ids) ∧
    ∀ ids, Ancestry blocks start ids →
      (∃ turns ≤ ids.length, Search blocks name turns start (resolve blocks start name)) ∧
      (∀ turns answer, Search blocks name turns start answer → answer = resolve blocks start name) ∧
      resolve blocks start name = firstNamed? name (listing blocks ids) ∧
      (resolve blocks start name = none ↔
        ∀ id ∈ ids, ∀ b, blocks[id]? = some b → ∀ v ∈ b.locals, v.name ≠ name) ∧
      ∀ after, Additions ids name blocks after →
        resolve after start name = resolve blocks start name ∧
        ∃ turns ≤ ids.length, Search after name turns start (resolve after start name) := by
  refine ⟨exists_ancestry hparents hstart, fun ids h => ?_⟩
  -- ids fall along the chain, so the search ends within the number of blocks
  have hlength : ids.length ≤ blocks.length := Nat.le_trans (h.length_le hparents) hstart
  have hfirst := h.resolve_eq hlength name
  obtain ⟨turns, hturns, hsearch⟩ := h.search name
  rw [hfirst]
  refine ⟨⟨turns, hturns, hsearch⟩, fun _ _ h => h.unique hsearch, rfl,
    firstNamed?_listing_eq_none_iff, fun after hadd => ?_⟩
  obtain ⟨hafter, hle, hsame⟩ := hadd.keeps h
  have hfirst' := hafter.resolve_eq (Nat.le_trans hlength hle) name
  have hsearch' := hafter.search name
  rw [hfirst']
  exact ⟨hsame, hsearch'⟩

def shadowed : List Block :=
  [⟨none, [⟨"x", .float64, false, 0⟩, ⟨"y", .float64, false, 1⟩, ⟨"x", .float64, true, 2⟩], []⟩,
    ⟨some 0, [⟨"y", .float64, false, 3⟩], []⟩, ⟨some 1, [], []⟩,
    ⟨some 0, [⟨"x", .float64, false, 4⟩], []⟩]

def shadowedMore : List Block :=
  (shadowed.modify 3 (·.declare ⟨"x", .float64, false, 5⟩)).modify 1 (·.declare ⟨"z", .float64, false, 6⟩) ++
    [⟨some 2, [⟨"x", .float64, false, 7⟩], []⟩]

theorem resolve_innermost_shadowed :
    ParentsFirst shadowed ∧ Ancestry shadowed 2 [2, 1, 0] ∧
    resolve shadowed 2 "x" = some ⟨0, 2⟩ ∧
    (∃ turns ≤ 3, Search shadowed "x" turns 2 (some ⟨0, 2⟩)) ∧
    Additions [2, 1, 0] "x" shadowed shadowedMore ∧ resolve shadowedMore 2 "x" = some ⟨0, 2⟩ ∧
    resolve shadowedMore 4 "x" = some ⟨4, 0⟩ := by
  have hparents : ParentsFirst shadowed := by decide
  have hchain : Ancestry shadowed 2 [2, 1, 0] := .inside rfl rfl (.inside rfl rfl (.root rfl rfl))
  have hmore : Additions [2, 1, 0] "x" shadowed shadowedMore :=
    .block (.declaration (.declaration .refl 3 _ (.inl (by decide))) 1 _ (.inr (by decide))) _
  obtain ⟨hsearch, -, hfirst, -, hkeeps⟩ :=
    (resolve_innermost hparents (by decide) "x").2 [2, 1, 0] hchain
  have hmeans : resolve shadowed 2 "x" = some ⟨0, 2⟩ := hfirst.trans (by decide)
  rw [hmeans] at hsearch
  exact ⟨hparents, hchain, hmeans, hsearch, hmore, (hkeeps _ hmore).1.trans hmeans, by decide⟩

end

end ScalarJit
