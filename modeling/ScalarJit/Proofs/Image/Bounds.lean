import ScalarJit.Proofs.Image.Contents

/-! # What the checks on offsets let through

Offsets are words, and a check compares the sum of an offset and a width. Links are resolved if, and
only if, they fit their sections, and reads answer if, and only if, the pages reach that far. All else
is refused, unless the sum is no word: then the process stops instead of refusing. -/

namespace ScalarJit
namespace Image

section
variable {bases : Bases} {sections : List Section} {image : Image}

theorem load_eq_map (bases : Bases) (sections : List Section) (links : List Link) :
    load bases sections links =
      (resolveLinks sections (copied bases sections) links).map protect := by
  change (resolveLinks sections (copied bases sections) links >>= fun image => pure image.protect) = _
  cases resolveLinks sections (copied bases sections) links <;> rfl

/-! ### Reads -/

def Spans (image : Image) (id : SectionId) (offset : Nat) : Prop :=
  ∃ p, image.placements[id]? = some p ∧ 0 < image.extent p.rights ∧
    p.offset + offset + 8 ≤ image.extent p.rights

/-- The end of the eight bytes at an offset of a section with pages is no word. -/
def Overreads (image : Image) (id : SectionId) (offset : Nat) : Prop :=
  ∃ p, image.placements[id]? = some p ∧ 0 < image.extent p.rights ∧ wordMax < p.offset + offset + 8

def word (image : Image) (r : Rights) (start : Nat) : UInt64 :=
  Bytes.toWord (((image.region? r).map fun g => (g.bytes.extract start (start + 8)).toList).getD [])

theorem Laid.placement_le (h : Laid bases sections image) {id : SectionId} {p : Placement}
    (hp : image.placements[id]? = some p) : p.offset ≤ image.extent p.rights := by
  have hid : id < sections.length := by
    rw [← length_place (fun _ => 0) sections]
    exact (List.getElem?_eq_some_iff.1 (h.placements ▸ hp)).1
  obtain ⟨p', hp', hrights, hend⟩ := h.within (List.getElem?_eq_getElem hid)
  rw [hp, Option.some_inj] at hp'
  subst hp'
  rw [hrights]
  omega

theorem Laid.readWord_unbacked (h : Laid bases sections image) {id : SectionId} {p : Placement}
    (hp : image.placements[id]? = some p) (hpages : image.extent p.rights = 0) (offset : Nat) :
    image.readWord id offset = .ok none := by
  have hnone : ¬p.rights.Backed sections := by
    rw [backed_iff, ← h.extent_pos_iff]
    omega
  rw [readWord, hp]
  simp only [h.region?_eq_none hnone]
  rfl

theorem readWord_eq {id : SectionId} {p : Placement} (hp : image.placements[id]? = some p)
    (hpages : 0 < image.extent p.rights) (hplace : p.offset ≤ wordMax) (offset : Nat) :
    image.readWord id offset =
      if wordMax < p.offset + offset + 8 then .error .overflow
      else if image.extent p.rights < p.offset + offset + 8 then .ok none
      else .ok (some (image.word p.rights (p.offset + offset))) := by
  rw [extent] at hpages ⊢
  rw [readWord, hp, word]
  cases hg : image.region? p.rights with
  | none =>
    rw [hg] at hpages
    cases hpages
  | some g =>
    simp only [hg, Option.map_some, Option.getD_some]
    by_cases hover : wordMax < p.offset + offset + 8
    · rw [if_pos hover]
      by_cases hstart : p.offset + offset ≤ wordMax
      · rw [checkedAdd_of_le hstart]
        show (checkedAdd (p.offset + offset) 8 >>= _) = _
        rw [checkedAdd_of_lt (by decide) hover]
        rfl
      · rw [checkedAdd_of_lt (by omega) (Nat.lt_of_not_le hstart)]
        rfl
    · rw [if_neg hover, checkedAdd_of_le (by omega)]
      show (checkedAdd (p.offset + offset) 8 >>= _) = _
      rw [checkedAdd_of_le (Nat.le_of_not_lt hover)]
      rfl

theorem Laid.reads (h : Laid bases sections image) (hroom : ∀ r, image.extent r ≤ wordMax)
    (id : SectionId) (offset : Nat) :
    ((∃ w, image.readWord id offset = .ok (some w)) ↔ image.Spans id offset) ∧
      (image.Overreads id offset → image.readWord id offset = .error .overflow) ∧
      (¬image.Spans id offset → ¬image.Overreads id offset →
        image.readWord id offset = .ok none) := by
  cases hp : image.placements[id]? with
  | none =>
    have hread : image.readWord id offset = .ok none := by
      rw [readWord, hp]
      rfl
    simp [hread, Spans, Overreads, hp]
  | some p =>
    rcases Nat.eq_zero_or_pos (image.extent p.rights) with hzero | hpages
    · have hread := h.readWord_unbacked hp hzero offset
      simp [hread, Spans, Overreads, hp, hzero]
    · have hroom := hroom p.rights
      have hread := readWord_eq hp hpages (Nat.le_trans (h.placement_le hp) hroom) offset
      have hspans : image.Spans id offset ↔ p.offset + offset + 8 ≤ image.extent p.rights := by
        simp [Spans, hp, hpages]
      have hoverreads : image.Overreads id offset ↔ wordMax < p.offset + offset + 8 := by
        simp [Overreads, hp, hpages]
      rw [hread, hspans, hoverreads]
      by_cases hover : wordMax < p.offset + offset + 8
      · rw [if_pos hover]
        exact ⟨⟨fun ⟨_, hword⟩ => (by cases hword), fun hle => by omega⟩, fun _ => rfl,
          fun _ hnot => absurd hover hnot⟩
      · rw [if_neg hover]
        by_cases hend : image.extent p.rights < p.offset + offset + 8
        · rw [if_pos hend]
          exact ⟨⟨fun ⟨_, hword⟩ => (by cases hword), fun hle => by omega⟩,
            fun h => absurd h hover, fun _ _ => rfl⟩
        · rw [if_neg hend]
          exact ⟨⟨fun _ => Nat.le_of_not_lt hend, fun _ => ⟨_, rfl⟩⟩, fun h => absurd h hover,
            fun hnot => absurd (Nat.le_of_not_lt hend) hnot⟩

/-! ### The whole -/

/-- What the checks come to when sections are loaded and read. -/
structure Checks (bases : Bases) (sections : List Section) (links : List Link) : Prop where
  loads : (∃ image, load bases sections links = .ok image) ↔ ∀ l ∈ links, l.Fits sections
  /-- The first link that does not fit is refused, or stops the process. -/
  first : (¬∀ l ∈ links, l.Fits sections) → ∃ before l after, links = before ++ l :: after ∧
    (∀ k ∈ before, k.Fits sections) ∧ ¬l.Fits sections ∧ load bases sections links =
      .error (if l.Overflows sections then .panic .overflow else .badLink l)
  /-- What links write is in the pages. -/
  slots : ∀ image, load bases sections links = .ok image → ∀ l ∈ links, ∃ slot,
    l.slot? image.placements = some slot ∧ slot.offset + 8 ≤ image.extent slot.rights
  /-- A read answers if, and only if, the pages reach that far. -/
  reads : ∀ image id offset, load bases sections links = .ok image →
    ((∃ w, image.readWord id offset = .ok (some w)) ↔ image.Spans id offset) ∧
      (image.Overreads id offset → image.readWord id offset = .error .overflow) ∧
      (¬image.Spans id offset → ¬image.Overreads id offset → image.readWord id offset = .ok none)

theorem exists_first_not {α : Type} {P : α → Prop} {xs : List α} (h : ¬∀ x ∈ xs, P x) :
    ∃ before x after, xs = before ++ x :: after ∧ (∀ y ∈ before, P y) ∧ ¬P x := by
  induction xs with
  | nil => exact absurd (fun _ hx => (by cases hx)) h
  | cons x xs ih =>
    by_cases hx : P x
    · have hrest : ¬∀ y ∈ xs, P y := fun hall => h (List.forall_mem_cons.2 ⟨hx, hall⟩)
      obtain ⟨before, y, after, heq, hbefore, hy⟩ := ih hrest
      exact ⟨x :: before, y, after, by rw [heq]; rfl, List.forall_mem_cons.2 ⟨hx, hbefore⟩, hy⟩
    · exact ⟨[], x, xs, rfl, fun _ hmem => (by cases hmem), hx⟩

theorem size_le_roundUp {id : SectionId} {s : Section} (hs : sections[id]? = some s) :
    s.data.size ≤ roundUp pageSize ((layout sections).2 s.rights) := by
  obtain ⟨start, -, hend⟩ := layout_getElem hs
  have hround := le_roundUp (show 0 < pageSize by decide) ((layout sections).2 s.rights)
  omega

theorem Link.not_overflows_of_fits {l : Link}
    (hroom : ∀ r, roundUp pageSize ((layout sections).2 r) ≤ wordMax) (h : l.Fits sections) :
    ¬l.Overflows sections := by
  rintro ⟨-, hover⟩
  obtain ⟨⟨s, hs, hend⟩, -⟩ := h
  have hsize := size_le_roundUp hs
  have hroom := hroom s.rights
  omega

theorem load_first (bases : Bases) {links before after : List Link} {l : Link}
    (hroom : ∀ r, roundUp pageSize ((layout sections).2 r) ≤ wordMax)
    (hlinks : links = before ++ l :: after) (hbefore : ∀ k ∈ before, k.Fits sections)
    (hl : ¬l.Fits sections) : load bases sections links =
      .error (if l.Overflows sections then .panic .overflow else .badLink l) := by
  have hfault : ∀ image, Laid bases sections image → resolveLink sections image l =
      .error (if l.Overflows sections then .panic .overflow else .badLink l) := by
    intro image himage
    split
    · next hover => exact resolveLink_overflows hover
    · next hover => exact himage.resolveLink_refused hl hover
  rw [load_eq_map, hlinks, (laid_copied bases sections).resolveLinks_fault
    (fun k hk => ⟨hbefore k hk, Link.not_overflows_of_fits hroom (hbefore k hk)⟩) hfault]
  rfl

/-- The checks on sections and links, given that words can count the pages of each class. -/
theorem checks_load (bases : Bases) (links : List Link)
    (hroom : ∀ r, roundUp pageSize ((layout sections).2 r) ≤ wordMax) :
    Checks bases sections links where
  loads := by
    constructor
    · rintro ⟨image, himage⟩
      obtain ⟨linked, hlinked, -⟩ := load_ok himage
      exact fun l hl => (((laid_copied bases sections).of_resolveLinks hlinked).2 l hl).1
    · intro hall
      obtain ⟨next, hnext, -⟩ := (laid_copied bases sections).resolveLinks_fits
        fun l hl => ⟨hall l hl, Link.not_overflows_of_fits hroom (hall l hl)⟩
      exact ⟨next.protect, by rw [load_eq_map, hnext]; rfl⟩
  first := by
    intro hall
    obtain ⟨before, l, after, hlinks, hbefore, hl⟩ := exists_first_not hall
    exact ⟨before, l, after, hlinks, hbefore, hl, load_first bases hroom hlinks hbefore hl⟩
  slots := by
    intro image himage l hl
    obtain ⟨s, p, hs, hp, hslot, hend⟩ := hasSlot_load himage hl
    obtain ⟨p', hp', hrights, hwithin⟩ := (laid_load himage).within hs
    rw [hp, Option.some_inj] at hp'
    subst hp'
    refine ⟨_, hslot, ?_⟩
    dsimp only
    rw [hrights]
    omega
  reads := by
    intro image id offset himage
    have hlaid := laid_load himage
    exact hlaid.reads (fun r => by rw [hlaid.extent_eq]; exact hroom r) id offset

end

theorem roundUp_layout_mixed (r : Rights) :
    roundUp pageSize ((layout mixedSections).2 r) ≤ wordMax := by
  cases r <;> decide

/-- A link to the last bytes of a section and one that goes a byte further: the second is refused. -/
theorem checks_load_mixed :
    load .standard mixedSections [⟨0, 12, 1, 8⟩, ⟨0, 13, 1, 8⟩] = .error (.badLink ⟨0, 13, 1, 8⟩) := by
  have hfits : Link.Fits mixedSections ⟨0, 12, 1, 8⟩ :=
    ⟨⟨_, rfl, by decide⟩, _, rfl, by decide, ⟨.readOnly, Array.replicate 8 1⟩, by decide, rfl, by decide⟩
  have hnot : ¬Link.Fits mixedSections ⟨0, 13, 1, 8⟩ := by
    rintro ⟨⟨s, hs, hend⟩, -⟩
    cases hs
    exact absurd hend (by decide)
  obtain ⟨before, l, after, hlinks, hbefore, hl, hload⟩ :=
    (checks_load .standard [⟨0, 12, 1, 8⟩, ⟨0, 13, 1, 8⟩] roundUp_layout_mixed).first
      fun hall => hnot (hall _ (.tail _ (.head _)))
  match before, hlinks, hbefore with
  | [], hlinks, _ =>
    obtain ⟨rfl, -⟩ := List.cons.inj hlinks
    exact absurd hfits hl
  | [_], hlinks, _ =>
    obtain ⟨-, hrest⟩ := List.cons.inj hlinks
    obtain ⟨rfl, -⟩ := List.cons.inj hrest
    rw [hload, if_neg (by decide)]
  | _ :: _ :: before, hlinks, _ =>
    exact absurd (congrArg List.length hlinks) (by simp)

def padded : List Section :=
  [⟨.executable, Array.replicate 32 0x90⟩, ⟨.executable, Array.replicate 8 0xcc⟩]

def backward : Link := ⟨1, 0xfffffffffffffff8, 0, 0⟩

/-- The checks are not exact for all words: a link that does not fit its section is not refused. -/
theorem not_exact_load : ¬∀ (bases : Bases) (sections : List Section) (links : List Link),
    (∀ l ∈ links, l.pointerOffset ≤ wordMax ∧ l.pointeeOffset ≤ wordMax) →
    (∀ r, roundUp pageSize ((layout sections).2 r) ≤ wordMax) →
    (∃ image, load bases sections links = .ok image) ∨
      ∃ l ∈ links, ¬l.Fits sections ∧ load bases sections links = .error (.badLink l) := by
  intro h
  have hload : load .standard padded [backward] = .error (.panic .overflow) := by decide +kernel
  rcases h .standard padded [backward] (by decide) (by intro r; cases r <;> decide) with
    ⟨image, himage⟩ | ⟨l, -, -, hl⟩
  · rw [hload] at himage
    cases himage
  · rw [hload] at hl
    cases hl

end Image
end ScalarJit
