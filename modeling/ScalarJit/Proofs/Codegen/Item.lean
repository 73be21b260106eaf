import ScalarJit.Codegen.Object
import ScalarJit.Proofs.Outcome

/-! # What is emitted

Code is a list of items: instructions, and loads of addresses that are known only when the code is in
memory. Such a load is emitted with zero as its immediate and a link to it. An item is the same
wherever it stands, since branches are relative. -/

namespace ScalarJit.Codegen

open X86 (Instr Gpr)

inductive Item where
  | plain (i : Instr)
  | linked (target : SectionId) (offset : Nat)
deriving DecidableEq, Repr

namespace Item

def emitted : Item → Instr
  | .plain i => i
  | .linked .. => .moveImm .rax 0

def resolve (address : SectionId → Nat → UInt64) : Item → Instr
  | .plain i => i
  | .linked target offset => .moveImm .rax (address target offset)

def size (i : Item) : Nat := i.emitted.encode.length

end Item

def bytesOf (items : List Item) : List UInt8 := items.flatMap fun i => i.emitted.encode

def sizeOf (items : List Item) : Nat := (bytesOf items).length

def linksOf (home : SectionId) : Nat → List Item → List Link
  | _, [] => []
  | position, .plain i :: rest => linksOf home (position + i.encode.length) rest
  | position, .linked target offset :: rest =>
    ⟨home, position + 2, target, offset⟩ :: linksOf home (position + 10) rest

@[simp]
theorem bytesOf_nil : bytesOf [] = [] := rfl

@[simp]
theorem bytesOf_append (items more : List Item) :
    bytesOf (items ++ more) = bytesOf items ++ bytesOf more := List.flatMap_append

@[simp]
theorem bytesOf_singleton (i : Item) : bytesOf [i] = i.emitted.encode := by
  simp [bytesOf]

@[simp]
theorem sizeOf_nil : sizeOf [] = 0 := rfl

@[simp]
theorem sizeOf_append (items more : List Item) :
    sizeOf (items ++ more) = sizeOf items + sizeOf more := by
  simp [sizeOf]

theorem sizeOf_cons (i : Item) (items : List Item) : sizeOf (i :: items) = i.size + sizeOf items := by
  simp [sizeOf, bytesOf, Item.size]

theorem length_encode_moveImm_rax (imm : UInt64) :
    (Instr.moveImm Gpr.rax imm).encode.length = 10 := by
  simp [Instr.encode, Instr.pieces, X86.rex]

theorem size_linked (target : SectionId) (offset : Nat) : (Item.linked target offset).size = 10 :=
  length_encode_moveImm_rax 0

theorem length_encode_resolve (address : SectionId → Nat → UInt64) (i : Item) :
    (i.resolve address).encode.length = i.size := by
  cases i with
  | plain i => rfl
  | linked target offset => rw [size_linked, Item.resolve, length_encode_moveImm_rax]

theorem linksOf_append (home : SectionId) (position : Nat) (items more : List Item) :
    linksOf home position (items ++ more) =
      linksOf home position items ++ linksOf home (position + sizeOf items) more := by
  induction items generalizing position with
  | nil => rfl
  | cons i items ih =>
    cases i with
    | plain i =>
      have hsize : sizeOf (.plain i :: items) = i.encode.length + sizeOf items := sizeOf_cons _ _
      rw [List.cons_append, linksOf, linksOf, ih, hsize, Nat.add_assoc]
    | linked target offset =>
      have hsize : sizeOf (.linked target offset :: items) = 10 + sizeOf items := by
        rw [sizeOf_cons, size_linked]
      rw [List.cons_append, linksOf, linksOf, ih, hsize, Nat.add_assoc, List.cons_append]

/-! ### Pools -/

namespace Pool

def Holds (p : Pool) (offset : Nat) (x : Double) : Prop :=
  ∃ index, offset = 8 * index ∧ p.values[index]? = some x

def Extends (p q : Pool) : Prop := p.values.toList <+: q.values.toList

theorem Extends.refl (p : Pool) : p.Extends p := List.prefix_rfl

theorem Extends.trans {p q r : Pool} (h : p.Extends q) (h' : q.Extends r) : p.Extends r :=
  List.IsPrefix.trans h h'

theorem Holds.extends {p q : Pool} {offset : Nat} {x : Double} (h : p.Holds offset x)
    (hpq : p.Extends q) : q.Holds offset x := by
  obtain ⟨index, hoffset, hx⟩ := h
  obtain ⟨added, hadded⟩ := hpq
  refine ⟨index, hoffset, ?_⟩
  rw [← Array.getElem?_toList] at hx ⊢
  have hi : index < p.values.toList.length := (List.getElem?_eq_some_iff.1 hx).1
  rw [← hadded, List.getElem?_append_left hi, hx]

theorem extends_intern (p : Pool) (x : Double) : p.Extends (p.intern x).2 := by
  unfold intern
  split
  · exact .refl p
  · simp [Extends]

theorem holds_intern (p : Pool) (x : Double) : (p.intern x).2.Holds (p.intern x).1 x := by
  unfold intern
  split
  · next index hindex =>
    rw [Array.idxOf?, Option.map_eq_some_iff] at hindex
    obtain ⟨found, hfound, rfl⟩ := hindex
    have hx := (Array.finIdxOf?_eq_some_iff.1 hfound).1
    exact ⟨found, rfl, (Array.getElem?_eq_getElem found.isLt).trans (congrArg some hx)⟩
  · refine ⟨p.values.size, rfl, ?_⟩
    simp

end Pool

/-! ### Emission -/

/-- Items are added to the code, with their links, and literals to the pool. -/
structure Emits (home : SectionId) (s t : State) (items : List Item) : Prop where
  code : t.asm.code.toList = s.asm.code.toList ++ bytesOf items
  links : t.links.toList = s.links.toList ++ linksOf home s.asm.code.size items
  limit : t.asm.limit = s.asm.limit
  room : s.asm.code.size ≤ s.asm.limit → t.asm.code.size ≤ t.asm.limit
  pool : s.pool.Extends t.pool

namespace Emits

variable {home : SectionId} {s t u : State} {items more : List Item}

theorem refl (home : SectionId) (s : State) : Emits home s s [] where
  code := by simp
  links := by simp [linksOf]
  limit := rfl
  room := id
  pool := .refl _

theorem size_eq (h : Emits home s t items) : t.asm.code.size = s.asm.code.size + sizeOf items := by
  have hlen := congrArg List.length h.code
  simpa [sizeOf] using hlen

theorem trans (h : Emits home s t items) (h' : Emits home t u more) :
    Emits home s u (items ++ more) where
  code := by rw [h'.code, h.code, bytesOf_append, List.append_assoc]
  links := by rw [h'.links, h.links, linksOf_append, h.size_eq, List.append_assoc]
  limit := h'.limit.trans h.limit
  room := fun hs => h'.room (h.room hs)
  pool := h.pool.trans h'.pool

end Emits

/-! ### Later states -/

/-- Code that is so short that every branch reaches its target. -/
structure State.Short (s : State) : Prop where
  room : s.asm.code.size ≤ s.asm.limit
  limit : s.asm.limit < 0x80000000

structure State.Grows (s t : State) : Prop where
  pool : s.pool.Extends t.pool
  short : t.Short → s.Short

theorem State.Grows.refl (s : State) : s.Grows s := ⟨.refl _, id⟩

theorem State.Grows.trans {s t u : State} (h : s.Grows t) (h' : t.Grows u) : s.Grows u :=
  ⟨h.pool.trans h'.pool, fun hu => h.short (h'.short hu)⟩

theorem Emits.grows {home : SectionId} {s t : State} {items : List Item} (h : Emits home s t items) :
    s.Grows t where
  pool := h.pool
  short := by
    rintro ⟨hroom, hlimit⟩
    have hsize := h.size_eq
    have hsame := h.limit
    exact ⟨by omega, by omega⟩

theorem State.Short.sizeOf_lt {home : SectionId} {s t : State} {items : List Item} (ht : t.Short)
    (h : Emits home s t items) : sizeOf items < 0x80000000 := by
  have hsize := h.size_eq
  have hroom := ht.room
  have hlimit := ht.limit
  omega

end ScalarJit.Codegen
