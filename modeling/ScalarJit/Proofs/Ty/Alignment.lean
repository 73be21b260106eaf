import Mathlib
import ScalarJit.Image.Load
import ScalarJit.Ty.Tuple

/-! # Alignment of tuple members

The size of a primitive type is a power of two and also its alignment, or it is nothing. Among such
members the alignment of a smaller one divides the size of a larger one, so in descending order each
member starts where the one before it ends. -/

namespace ScalarJit

theorem roundUp_of_dvd {unit n : Nat} (h : unit ∣ n) : roundUp unit n = n := by
  obtain ⟨k, rfl⟩ := h
  rcases Nat.eq_zero_or_pos unit with rfl | hpos
  · simp [roundUp]
  · have hdiv : (unit * k + unit - 1) / unit = k := by
      rw [Nat.add_sub_assoc hpos, Nat.mul_add_div hpos, Nat.div_eq_of_lt (by omega), Nat.add_zero]
    rw [roundUp, hdiv, Nat.mul_comm]

/-! ### Natural alignment -/

/-- Aligned to its own size, which is a power of two, or without a size. -/
def Layout.Natural (l : Layout) : Prop :=
  (l.size = 0 ∧ l.align = 1) ∨ ∃ k, l.size = 2 ^ k ∧ l.align = 2 ^ k

theorem Ty.natural_layout (t : Ty) : t.layout.Natural := by
  cases t with
  | void => exact .inl ⟨rfl, rfl⟩
  | int8 | uint8 | char8 => exact .inr ⟨0, rfl, rfl⟩
  | int16 | uint16 | char16 => exact .inr ⟨1, rfl, rfl⟩
  | int32 | uint32 | char32 | float32 => exact .inr ⟨2, rfl, rfl⟩
  | int64 | uint64 | float64 => exact .inr ⟨3, rfl, rfl⟩

theorem Layout.Natural.align_dvd {a b : Layout} (ha : a.Natural) (hb : b.Natural)
    (hle : a.size ≤ b.size) : a.align ∣ b.size ∧ a.align ∣ b.align := by
  obtain ⟨-, hone⟩ | ⟨k, hsize, halign⟩ := ha
  · simp [hone]
  · obtain ⟨hzero, -⟩ | ⟨j, hsize', halign'⟩ := hb
    · have hpos : 0 < 2 ^ k := Nat.two_pow_pos k
      omega
    · have hkj : k ≤ j := (Nat.pow_le_pow_iff_right (by decide)).1 (hsize ▸ hsize' ▸ hle)
      have hdvd : 2 ^ k ∣ 2 ^ j := Nat.pow_dvd_pow 2 hkj
      rw [halign, hsize', halign']
      exact ⟨hdvd, hdvd⟩

namespace Member

/-! ### Order -/

abbrev Before (a b : Member) : Prop := b.layout.size ≤ a.layout.size

instance : Std.Total Before := ⟨fun a b => Nat.le_total b.layout.size a.layout.size⟩

instance : IsTrans Member Before := ⟨fun _ _ _ hab hbc => Nat.le_trans hbc hab⟩

theorem insert_eq_orderedInsert (m : Member) (ms : List Member) :
    insert m ms = ms.orderedInsert Before m := by
  induction ms with
  | nil => rfl
  | cons head rest ih =>
    rw [insert, List.orderedInsert_cons, ih]
    by_cases hlt : m.layout.size < head.layout.size
    · rw [if_pos hlt, if_neg (Nat.not_le_of_lt hlt)]
    · rw [if_neg hlt, if_pos (Nat.le_of_not_lt hlt)]

theorem sort_eq_insertionSort (ms : List Member) : sort ms = ms.insertionSort Before := by
  induction ms with
  | nil => rfl
  | cons m rest ih => rw [sort, ih, insert_eq_orderedInsert, List.insertionSort_cons]

theorem pairwise_sort (ms : List Member) : (sort ms).Pairwise Before := by
  rw [sort_eq_insertionSort]
  exact List.pairwise_insertionSort Before ms

theorem filter_sort (size : Nat) (ms : List Member) :
    (sort ms).filter (·.layout.size = size) = ms.filter (·.layout.size = size) := by
  -- members of one size are in order as they stand, so sorting keeps them as a sublist
  have hequal : (ms.filter (·.layout.size = size)).Pairwise Before := by
    apply List.pairwise_of_forall_mem_list
    intro a ha b hb
    simp only [List.mem_filter, decide_eq_true_eq] at ha hb
    exact Nat.le_of_eq (hb.2.trans ha.2.symm)
  have hsub : (ms.filter (·.layout.size = size)).Sublist (sort ms) := by
    rw [sort_eq_insertionSort]
    exact List.sublist_insertionSort hequal List.filter_sublist
  have hboth := hsub.filter (·.layout.size = size)
  simp only [List.filter_filter, Bool.and_self] at hboth
  have hlength := ((sort_perm ms).filter (·.layout.size = size)).length_eq
  exact (hboth.eq_of_length hlength.symm).symm

/-! ### Offsets -/

/-- Members from an offset on, each where the one before it ends. -/
def backToBack : Nat → List Member → List (Nat × Member)
  | _, [] => []
  | offset, m :: rest => (offset, m) :: backToBack (offset + m.layout.size) rest

/-- Members from an offset on, each at the next multiple of its alignment. -/
def padded : Nat → List Member → List (Nat × Member)
  | _, [] => []
  | offset, m :: rest =>
    let start := roundUp m.layout.align offset
    (start, m) :: padded (start + m.layout.size) rest

theorem padded_eq_backToBack {ms : List Member} {offset : Nat}
    (haligned : ∀ placed ∈ backToBack offset ms, placed.2.layout.align ∣ placed.1) :
    padded offset ms = backToBack offset ms := by
  induction ms generalizing offset with
  | nil => rfl
  | cons m rest ih =>
    obtain ⟨hfirst, hrest⟩ := List.forall_mem_cons.1 haligned
    rw [padded, backToBack, roundUp_of_dvd hfirst, ih hrest]

theorem aligned_backToBack {ms : List Member} (hsorted : ms.Pairwise Before)
    (hnatural : ∀ m ∈ ms, m.layout.Natural) {offset : Nat}
    (hoffset : ∀ m ∈ ms, m.layout.align ∣ offset) :
    ∀ placed ∈ backToBack offset ms, placed.2.layout.align ∣ placed.1 := by
  induction ms generalizing offset with
  | nil => simp [backToBack]
  | cons m rest ih =>
    obtain ⟨hbefore, hsorted⟩ := List.pairwise_cons.1 hsorted
    obtain ⟨hm, hnatural⟩ := List.forall_mem_cons.1 hnatural
    obtain ⟨hfirst, hoffset⟩ := List.forall_mem_cons.1 hoffset
    -- where the rest starts is again a multiple of every alignment in it
    have hnext : ∀ r ∈ rest, r.layout.align ∣ offset + m.layout.size := by
      intro r hr
      have hsize := ((hnatural r hr).align_dvd hm (hbefore r hr)).1
      exact Nat.dvd_add (hoffset r hr) hsize
    rw [backToBack, List.forall_mem_cons]
    exact ⟨hfirst, ih hsorted hnatural hnext⟩

end Member

namespace Tuple

theorem size_ofMembers (given : List Member) :
    (ofMembers given).layout.size = (given.map (·.layout.size)).sum := by
  have hperm := (Member.sort_perm given).map (·.layout.size)
  rw [← hperm.sum_nat, ofMembers]
  cases Member.sort given with
  | nil => rfl
  | cons largest rest => simp [List.sum_eq_foldr, List.foldr_map]

theorem align_dvd_ofMembers {given : List Member} (hnatural : ∀ m ∈ given, m.layout.Natural) :
    ∀ m ∈ given, m.layout.align ∣ (ofMembers given).layout.align := by
  intro m hm
  have hperm := Member.sort_perm given
  have hsorted := Member.pairwise_sort given
  rw [← hperm.mem_iff] at hm
  rw [ofMembers]
  cases hmembers : Member.sort given with
  | nil => simp [hmembers] at hm
  | cons largest rest =>
    rw [hmembers] at hm hsorted hperm
    have hlargest := hnatural largest (hperm.mem_iff.1 List.mem_cons_self)
    have hle : m.layout.size ≤ largest.layout.size := by
      rcases List.mem_cons.1 hm with rfl | hrest
      · exact Nat.le_refl _
      · exact List.rel_of_pairwise_cons hsorted hrest
    exact ((hnatural m (hperm.mem_iff.1 hm)).align_dvd hlargest hle).2

/-- A tuple of primitive members holds the members it was given, the larger ones first and those of one
size in their order. Its size is that of all members, and its alignment suits each of them. Back to back
from the start, every member is aligned, and an arrangement that pads where it has to is the same. -/
theorem aligned_ofMembers {given : List Member} (hprimitive : ∀ m ∈ given, ∃ t : Ty, m.layout = t.layout) :
    (ofMembers given).members.Perm given ∧
    (∀ size, (ofMembers given).members.filter (·.layout.size = size) =
      given.filter (·.layout.size = size)) ∧
    (ofMembers given).members.Pairwise (fun a b => b.layout.size ≤ a.layout.size) ∧
    (ofMembers given).layout.size = (given.map (·.layout.size)).sum ∧
    (∀ m ∈ given, m.layout.align ∣ (ofMembers given).layout.align) ∧
    (∀ placed ∈ Member.backToBack 0 (ofMembers given).members,
      placed.2.layout.align ∣ placed.1) ∧
    Member.padded 0 (ofMembers given).members = Member.backToBack 0 (ofMembers given).members := by
  have hnatural : ∀ m ∈ given, m.layout.Natural := by
    intro m hm
    obtain ⟨t, ht⟩ := hprimitive m hm
    exact ht ▸ t.natural_layout
  have hperm := Member.sort_perm given
  have hsorted := Member.pairwise_sort given
  have haligned := Member.aligned_backToBack hsorted (fun m hm => hnatural m (hperm.mem_iff.1 hm))
    (fun m _ => Nat.dvd_zero m.layout.align)
  exact ⟨hperm, fun size => Member.filter_sort size given, hsorted, size_ofMembers given,
    align_dvd_ofMembers hnatural, haligned, Member.padded_eq_backToBack haligned⟩

def mixed : List Member :=
  [⟨"a", Ty.layout .void⟩, ⟨"b", Ty.layout .int8⟩, ⟨"c", Ty.layout .float64⟩, ⟨"d", Ty.layout .char16⟩,
    ⟨"e", Ty.layout .int32⟩, ⟨"f", Ty.layout .int64⟩, ⟨"g", Ty.layout .void⟩]

theorem aligned_ofMembers_mixed :
    (∀ m ∈ mixed, ∃ t : Ty, m.layout = t.layout) ∧
    (ofMembers mixed).members.map (·.name) = ["c", "f", "e", "d", "b", "a", "g"] ∧
    (ofMembers mixed).layout.size = 23 ∧
    (∀ m ∈ mixed, m.layout.align ∣ 8) ∧
    (Member.padded 0 (ofMembers mixed).members).map (·.1) = [0, 8, 16, 20, 22, 23, 23] := by
  have hprimitive : ∀ m ∈ mixed, ∃ t : Ty, m.layout = t.layout := by
    simp only [mixed, List.forall_mem_cons]
    exact ⟨⟨_, rfl⟩, ⟨_, rfl⟩, ⟨_, rfl⟩, ⟨_, rfl⟩, ⟨_, rfl⟩, ⟨_, rfl⟩, ⟨_, rfl⟩, by simp⟩
  obtain ⟨-, -, -, hsize, halign, -, hpadded⟩ := aligned_ofMembers hprimitive
  exact ⟨hprimitive, rfl, hsize, halign, by rw [hpadded]; rfl⟩

end Tuple
end ScalarJit
