import ScalarJit.Proofs.Image.Memory

/-! # Resolving links

A link is resolved if it fits the sections that it joins, and then its slot has its address. One that
does not fit is refused, unless the end of its slot is no word: then there is no answer at all. -/

namespace ScalarJit

def Rights.Backed (sections : List Section) (r : Rights) : Prop :=
  ∃ s ∈ sections, s.rights = r ∧ 0 < s.data.size

namespace Link

/-- A link leads into a section, or just behind it, of a class with bytes. -/
def Leads (sections : List Section) (l : Link) : Prop :=
  ∃ t, sections[l.pointeeSection]? = some t ∧ l.pointeeOffset ≤ t.data.size ∧ t.rights.Backed sections

def Fits (sections : List Section) (l : Link) : Prop :=
  (∃ s, sections[l.pointerSection]? = some s ∧ l.pointerOffset + 8 ≤ s.data.size) ∧ l.Leads sections

def Overflows (sections : List Section) (l : Link) : Prop :=
  l.pointerSection < sections.length ∧ wordMax < l.pointerOffset + 8

instance (sections : List Section) (l : Link) : Decidable (l.Overflows sections) :=
  inferInstanceAs (Decidable (_ ∧ _))

def slot? (placements : List Placement) (l : Link) : Option Placement :=
  placements[l.pointerSection]?.map fun p => ⟨p.rights, p.offset + l.pointerOffset⟩

def address? (bases : Bases) (placements : List Placement) (l : Link) : Option Nat :=
  placements[l.pointeeSection]?.map fun p => bases p.rights + p.offset + l.pointeeOffset

end Link

namespace Image

/-! ### Classes with pages -/

theorem roundUp_pos_iff {unit n : Nat} (h : 0 < unit) : 0 < roundUp unit n ↔ 0 < n := by
  constructor
  · intro hpos
    rcases Nat.eq_zero_or_pos n with hzero | hn
    · rw [roundUp, hzero, Nat.zero_add, Nat.div_eq_of_lt (by omega)] at hpos
      omega
    · exact hn
  · intro hn
    have hle := le_roundUp h n
    omega

theorem place_pos_iff (used : Rights → Nat) (sections : List Section) (r : Rights) :
    0 < (place used sections).2 r ↔ 0 < used r ∨ r.Backed sections := by
  induction sections generalizing used with
  | nil => simp [place, Rights.Backed]
  | cons s rest ih =>
    have hround := roundUp_pos_iff (n := used s.rights) (show 0 < 16 by decide)
    have hcons : r.Backed (s :: rest) ↔ s.rights = r ∧ 0 < s.data.size ∨ r.Backed rest := by
      simp [Rights.Backed]
    have hstep := ih fun r => if r = s.rights then roundUp 16 (used s.rights) + s.data.size else used r
    rw [hcons]
    refine hstep.trans ?_
    by_cases hr : r = s.rights
    · subst hr
      simp only [if_true, true_and]
      rw [← or_assoc]
      exact or_congr_left (by omega)
    · have hne : s.rights ≠ r := fun heq => hr heq.symm
      simp only [hr, hne, if_false, false_and, false_or]

theorem backed_iff (sections : List Section) (r : Rights) :
    r.Backed sections ↔ 0 < (layout sections).2 r := by
  have h := place_pos_iff (fun _ => 0) sections r
  simpa [layout] using h.symm

section
variable {bases : Bases} {sections : List Section} {image : Image} {l : Link}

theorem mem_allocate {sizes : Rights → Nat} {g : Region} (h : g ∈ allocate bases sizes) :
    g.base = bases g.rights ∧ 0 < sizes g.rights := by
  obtain ⟨r, hr, rfl⟩ := List.mem_map.1 h
  exact ⟨rfl, by simpa using (List.mem_filter.1 hr).2⟩

theorem Laid.base_eq (h : Laid bases sections image) {r : Rights} {g : Region}
    (hg : image.region? r = some g) : g.base = bases r ∧ 0 < (layout sections).2 r := by
  have hmem : outline g ∈ (allocate bases (layout sections).2).map outline := by
    rw [← h.shape]
    exact List.mem_map_of_mem (List.mem_of_find?_eq_some hg)
  obtain ⟨g', hg', houtline⟩ := List.mem_map.1 hmem
  obtain ⟨hbase, hpos⟩ := mem_allocate hg'
  simp only [outline, Prod.mk.injEq] at houtline
  rw [← rights_of_region? hg, ← houtline.1, ← houtline.2.1]
  exact ⟨hbase, hpos⟩

theorem Laid.region?_eq_none (h : Laid bases sections image) {r : Rights} (hr : ¬r.Backed sections) :
    image.region? r = none := by
  cases hg : image.region? r with
  | none => rfl
  | some g => exact absurd ((backed_iff sections r).2 (h.base_eq hg).2) hr

theorem Laid.address?_eq_none (h : Laid bases sections image) {id : SectionId} {s : Section}
    (hs : sections[id]? = some s) (hr : ¬s.rights.Backed sections) (offset : Nat) :
    image.address? id offset = .ok none := by
  obtain ⟨start, hp, -⟩ := layout_getElem hs
  simp [Image.address?, h.placements, hp, h.region?_eq_none hr]

theorem Laid.address?_eq_some (h : Laid bases sections image) {id : SectionId} {s : Section}
    {start offset : Nat} (hs : sections[id]? = some s)
    (hp : (layout sections).1[id]? = some ⟨s.rights, start⟩) (hr : s.rights.Backed sections)
    (hoffset : offset ≤ s.data.size) :
    image.address? id offset = .ok (some (bases s.rights + start + offset)) := by
  obtain ⟨start', hp', hend⟩ := layout_getElem hs
  rw [hp, Option.some_inj] at hp'
  cases hp'
  obtain ⟨g, hg, hbase, hsize⟩ := h.region ((backed_iff sections s.rights).1 hr)
  have hround := le_roundUp (show 0 < pageSize by decide) ((layout sections).2 s.rights)
  rw [Image.address?, h.placements, hp]
  simp only [hg]
  rw [Region.address, if_pos (by omega), hbase, Nat.add_assoc]
  rfl

/-! ### One link -/

theorem fits_of_none {id : SectionId} (h : sections[id]? = none) (offset width : Nat) :
    fits sections id offset width = .ok false := by
  rw [fits, h]
  rfl

theorem fits_of_sum {id : SectionId} {s : Section} {offset width : Nat} (hs : sections[id]? = some s)
    (hsum : checkedAdd offset width = .ok (offset + width)) :
    fits sections id offset width = .ok (decide (offset + width ≤ s.data.size)) := by
  rw [fits, hs]
  simp only [hsum]
  rfl

theorem admits_overflows (h : l.Overflows sections) : admits sections l = .error .overflow := by
  have hs := List.getElem?_eq_getElem h.1
  rw [admits, fits, hs]
  simp only [checkedAdd_of_lt (show 0 < 8 by decide) h.2]
  rfl

theorem admits_of_not_overflows (h : ¬l.Overflows sections) : ∃ b, admits sections l = .ok b ∧
    (b = true ↔ (∃ s, sections[l.pointerSection]? = some s ∧ l.pointerOffset + 8 ≤ s.data.size) ∧
      ∃ t, sections[l.pointeeSection]? = some t ∧ l.pointeeOffset ≤ t.data.size) := by
  rw [admits]
  cases hs : sections[l.pointerSection]? with
  | none =>
    rw [fits_of_none hs]
    exact ⟨false, rfl, by simp⟩
  | some s =>
    have hword : l.pointerOffset + 8 ≤ wordMax :=
      Nat.le_of_not_lt fun hover => h ⟨(List.getElem?_eq_some_iff.1 hs).1, hover⟩
    rw [fits_of_sum hs (checkedAdd_of_le hword)]
    by_cases hslot : l.pointerOffset + 8 ≤ s.data.size
    · cases ht : sections[l.pointeeSection]? with
      | none =>
        refine ⟨false, ?_, by simp⟩
        simp only [hslot, decide_true, fits_of_none ht]
        rfl
      | some t =>
        refine ⟨decide (l.pointeeOffset ≤ t.data.size), ?_, by simp [hslot]⟩
        simp only [hslot, decide_true, fits_of_sum ht (checkedAdd_zero _)]
        rfl
    · exact ⟨false, by simp [hslot]; rfl, by simp [hslot]⟩

theorem Laid.resolveLink_fits (h : Laid bases sections image) (hfits : l.Fits sections)
    (hover : ¬l.Overflows sections) : ∃ slot address, l.slot? (layout sections).1 = some slot ∧
      l.address? bases (layout sections).1 = some address ∧
      Image.resolveLink sections image l =
        .ok ((image.write slot.rights slot.offset (Bytes.littleEndian 8 address)).note
          (.link l address)) := by
  obtain ⟨⟨s, hs, hslot⟩, t, ht, hend, hback⟩ := hfits
  obtain ⟨start, hp, -⟩ := layout_getElem hs
  obtain ⟨start', hq, -⟩ := layout_getElem ht
  obtain ⟨b, hadmits, hb⟩ := admits_of_not_overflows hover
  have hb : b = true := hb.2 ⟨⟨s, hs, hslot⟩, t, ht, hend⟩
  have hpages : s.rights.Backed sections := ⟨s, List.mem_of_getElem? hs, rfl, by omega⟩
  refine ⟨⟨s.rights, start + l.pointerOffset⟩, bases t.rights + start' + l.pointeeOffset, ?_, ?_, ?_⟩
  · rw [Link.slot?, hp]
    rfl
  · rw [Link.address?, hq]
    rfl
  · rw [Image.resolveLink, hadmits, hb, h.address?_eq_some hs hp hpages (by omega),
      h.address?_eq_some ht hq hback hend, h.placements, hp]
    rfl

theorem Laid.resolveLink_refused (h : Laid bases sections image) (hfits : ¬l.Fits sections)
    (hover : ¬l.Overflows sections) :
    Image.resolveLink sections image l = .error (.badLink l) := by
  obtain ⟨b, hadmits, hb⟩ := admits_of_not_overflows hover
  rw [Image.resolveLink, hadmits]
  cases b with
  | false => rfl
  | true =>
    -- Both sections are there, so it is the class of the pointee that has no pages.
    obtain ⟨⟨s, hs, hslot⟩, t, ht, hend⟩ := hb.1 rfl
    have hlost : ¬t.rights.Backed sections := fun hback => hfits ⟨⟨s, hs, hslot⟩, t, ht, hend, hback⟩
    have hpages : s.rights.Backed sections := ⟨s, List.mem_of_getElem? hs, rfl, by omega⟩
    obtain ⟨start, hp, -⟩ := layout_getElem hs
    rw [h.address?_eq_some hs hp hpages (by omega), h.address?_eq_none ht hlost, h.placements, hp]
    rfl

theorem resolveLink_overflows (h : l.Overflows sections) :
    Image.resolveLink sections image l = .error (.panic .overflow) := by
  rw [Image.resolveLink, admits_overflows h]
  rfl

theorem Laid.fits_of_resolveLink (h : Laid bases sections image) {next : Image}
    (hnext : Image.resolveLink sections image l = .ok next) :
    l.Fits sections ∧ ¬l.Overflows sections := by
  by_cases hover : l.Overflows sections
  · rw [resolveLink_overflows hover] at hnext
    cases hnext
  · by_cases hfits : l.Fits sections
    · exact ⟨hfits, hover⟩
    · rw [h.resolveLink_refused hfits hover] at hnext
      cases hnext

theorem Laid.write (h : Laid bases sections image) (slot : Placement) (bytes : List UInt8)
    (step : LoadStep) : Laid bases sections ((image.write slot.rights slot.offset bytes).note step) :=
  ⟨h.placements, (outline_write ..).trans h.shape⟩

/-! ### All links -/

theorem Laid.resolveLinks_fits {links : List Link} (h : Laid bases sections image)
    (hlinks : ∀ l ∈ links, l.Fits sections ∧ ¬l.Overflows sections) :
    ∃ next, Image.resolveLinks sections image links = .ok next ∧ Laid bases sections next := by
  induction links generalizing image with
  | nil => exact ⟨image, rfl, h⟩
  | cons l links ih =>
    obtain ⟨hfits, hover⟩ := hlinks l List.mem_cons_self
    obtain ⟨slot, address, -, -, hmid⟩ := h.resolveLink_fits hfits hover
    obtain ⟨next, hnext, hlast⟩ :=
      ih (h.write slot _ _) fun l' h' => hlinks l' (List.mem_cons_of_mem l h')
    rw [Image.resolveLinks, hmid]
    exact ⟨next, hnext, hlast⟩

theorem Laid.resolveLinks_fault {before after : List Link} {fault : LoadFault}
    (h : Laid bases sections image)
    (hbefore : ∀ k ∈ before, k.Fits sections ∧ ¬k.Overflows sections)
    (hl : ∀ image, Laid bases sections image → Image.resolveLink sections image l = .error fault) :
    Image.resolveLinks sections image (before ++ l :: after) = .error fault := by
  induction before generalizing image with
  | nil =>
    rw [List.nil_append, Image.resolveLinks, hl image h]
    rfl
  | cons k before ih =>
    obtain ⟨hfits, hover⟩ := hbefore k List.mem_cons_self
    obtain ⟨slot, address, -, -, hmid⟩ := h.resolveLink_fits hfits hover
    rw [List.cons_append, Image.resolveLinks, hmid]
    exact ih (h.write slot _ _) fun l' h' => hbefore l' (List.mem_cons_of_mem k h')

end
end Image
end ScalarJit
