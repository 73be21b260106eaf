import Mathlib.Algebra.Group.Nat.Defs
import Mathlib.Data.List.Count
import ScalarJit.Proofs.Image.Startup

/-! # Contents of loaded memory

Every byte of the pages is accounted for: it comes from the last link whose slot has it, else from the
section that lies there, else it is zero. A link keeps to its slot, and the slot to its section. -/

namespace ScalarJit

/-! ### Where bytes come from -/

def Placement.byte? (p : Placement) (bytes : List UInt8) (r : Rights) (i : Nat) : Option UInt8 :=
  if p.rights = r ∧ p.offset ≤ i then bytes[i - p.offset]? else none

theorem Placement.byte?_eq_some {p : Placement} {bytes : List UInt8} {r : Rights} {i : Nat} {b : UInt8}
    (h : p.byte? bytes r i = some b) :
    p.rights = r ∧ p.offset ≤ i ∧ i < p.offset + bytes.length := by
  rw [byte?] at h
  split at h
  · next hin =>
    have hlt := (List.getElem?_eq_some_iff.1 h).1
    exact ⟨hin.1, hin.2, by omega⟩
  · cases h

theorem Placement.byte?_eq_none {p : Placement} {bytes : List UInt8} {r : Rights} {i : Nat}
    (h : ¬(p.rights = r ∧ p.offset ≤ i ∧ i < p.offset + bytes.length)) : p.byte? bytes r i = none := by
  cases hb : p.byte? bytes r i with
  | none => rfl
  | some b => exact absurd (byte?_eq_some hb) h

namespace Link

def byte? (bases : Bases) (placements : List Placement) (r : Rights) (i : Nat) (l : Link) :
    Option UInt8 := do
  let slot ← l.slot? placements
  let address ← l.address? bases placements
  slot.byte? (Bytes.littleEndian 8 address) r i

end Link

def LoadStep.fills : LoadStep → Bool
  | .copy _ => true
  | .link _ _ => true
  | .allocate _ _ => false
  | .protect _ => false

namespace Image

def sectionByte? (placements : List Placement) (sections : List Section) (r : Rights) (i : Nat) :
    Option UInt8 :=
  (sections.zip placements).findSome? fun x => x.2.byte? x.1.data.toList r i

/-- The byte that sections and links leave at an offset of a class: the last link wins, and what belongs
to no section is zero. -/
def finalByte (bases : Bases) (placements : List Placement) (sections : List Section)
    (links : List Link) (r : Rights) (i : Nat) : UInt8 :=
  ((links.reverse.findSome? (Link.byte? bases placements r i)).or
    (sectionByte? placements sections r i)).getD 0

def extent (image : Image) (r : Rights) : Nat := ((image.region? r).map (·.bytes.size)).getD 0

/-! ### Placement -/

theorem length_place (used : Rights → Nat) (sections : List Section) :
    (place used sections).1.length = sections.length := by
  induction sections generalizing used with
  | nil => rfl
  | cons s rest ih => exact congrArg Nat.succ (ih _)

theorem place_aligned (used : Rights → Nat) (sections : List Section) :
    ∀ p ∈ (place used sections).1, p.offset % 16 = 0 := by
  induction sections generalizing used with
  | nil => exact fun p hp => (by cases hp)
  | cons s rest ih =>
    intro p hp
    rcases List.mem_cons.1 hp with rfl | hp
    · exact Nat.mul_mod_left _ 16
    · exact ih _ p hp

section
variable {bases : Bases} {sections : List Section} {image : Image}

theorem Laid.extent_eq (h : Laid bases sections image) (r : Rights) :
    image.extent r = roundUp pageSize ((layout sections).2 r) := by
  rcases Nat.eq_zero_or_pos ((layout sections).2 r) with hzero | hpos
  · cases hg : image.region? r with
    | none =>
      rw [extent, hg, hzero]
      rfl
    | some g =>
      have hpos := (h.base_eq hg).2
      omega
  · obtain ⟨g, hg, -, hsize⟩ := h.region hpos
    rw [extent, hg]
    exact hsize

theorem Laid.within (h : Laid bases sections image) {id : SectionId} {s : Section}
    (hs : sections[id]? = some s) :
    ∃ p, image.placements[id]? = some p ∧ p.rights = s.rights ∧
      p.offset + s.data.size ≤ image.extent s.rights := by
  obtain ⟨offset, hp, hend⟩ := layout_getElem hs
  have hround := le_roundUp (show 0 < pageSize by decide) ((layout sections).2 s.rights)
  exact ⟨_, h.placements ▸ hp, rfl, by rw [h.extent_eq]; exact Nat.le_trans hend hround⟩

theorem byte?_eq_none_iff {r : Rights} {i : Nat} : image.byte? r i = none ↔ image.extent r ≤ i := by
  rw [byte?, extent]
  cases image.region? r with
  | none => simp
  | some g => simp

end

/-! ### Bytes -/

/-- What is in the pages is known, and zero where nothing was written. -/
def Shows (image : Image) (content : Rights → Nat → Option UInt8) : Prop :=
  ∀ r i b, image.byte? r i = some b → b = (content r i).getD 0

section
variable {bases : Bases} {sections : List Section} {image : Image}
  {content : Rights → Nat → Option UInt8}

theorem Shows.write (h : image.Shows content) (p : Placement) (bytes : List UInt8) :
    (image.write p.rights p.offset bytes).Shows fun r i => (p.byte? bytes r i).or (content r i) := by
  intro r i b hb
  dsimp only
  by_cases hin : p.rights = r ∧ p.offset ≤ i ∧ i < p.offset + bytes.length
  · obtain ⟨rfl, hle, hlt⟩ := hin
    obtain ⟨k, rfl⟩ := Nat.exists_eq_add_of_le hle
    have hk : k < bytes.length := by omega
    -- The write kept the size, so there was a byte before.
    obtain ⟨old, hold⟩ : ∃ old, image.byte? p.rights (p.offset + k) = some old := by
      rw [byte?, region?_write] at hb
      obtain ⟨g, hg, hget⟩ := Option.bind_eq_some_iff.1 hb
      obtain ⟨g', hg', rfl⟩ := Option.map_eq_some_iff.1 hg
      have hsize : p.offset + k < g'.bytes.size := by
        have hlt := (Array.getElem?_eq_some_iff.1 hget).1
        split at hlt
        · rwa [Bytes.size_overwrite] at hlt
        · exact hlt
      exact ⟨g'.bytes[p.offset + k], by rw [byte?, hg', Option.bind_some, Array.getElem?_eq_getElem hsize]⟩
    rw [byte?_write_self hold (List.getElem?_eq_getElem hk), Option.some_inj] at hb
    rw [Placement.byte?, if_pos ⟨rfl, hle⟩, Nat.add_sub_cancel_left, List.getElem?_eq_getElem hk]
    exact hb.symm
  · rw [byte?_write_other (by grind)] at hb
    rw [Placement.byte?_eq_none hin, Option.none_or]
    exact h r i b hb

theorem shows_allocate (sizes : Rights → Nat) (placements : List Placement)
    (journal : List LoadStep) :
    Shows ⟨allocate bases sizes, placements, journal⟩ fun _ _ => none := by
  intro r i b hb
  obtain ⟨g, hg, hget⟩ := Option.bind_eq_some_iff.1 hb
  obtain ⟨r', -, rfl⟩ := List.mem_map.1 (List.mem_of_find?_eq_some hg)
  rw [Array.getElem?_replicate] at hget
  split at hget
  · exact (Option.some_inj.1 hget).symm
  · cases hget

theorem sectionByte?_append {placements more : List Placement} {done rest : List Section}
    (hlen : done.length = placements.length) (r : Rights) (i : Nat) :
    sectionByte? (placements ++ more) (done ++ rest) r i =
      (sectionByte? placements done r i).or (sectionByte? more rest r i) := by
  rw [sectionByte?, List.zip_append hlen, List.findSome?_append]
  rfl

theorem byte?_of_sectionByte? {done rest : List Section} {s : Section} {p : Placement} {r : Rights}
    {i : Nat} {b : UInt8} (hsections : sections = done ++ s :: rest)
    (hp : (layout sections).1[done.length]? = some p)
    (hb : sectionByte? ((layout sections).1.take done.length) done r i = some b) :
    p.byte? s.data.toList r i = none := by
  obtain ⟨⟨t, q⟩, hmem, hq⟩ := List.exists_of_findSome?_eq_some hb
  obtain ⟨n, hn⟩ := List.getElem?_of_mem hmem
  rw [List.getElem?_zip_eq_some] at hn
  obtain ⟨ht, hq'⟩ := hn
  dsimp only at ht hq'
  have hlt : n < done.length := (List.getElem?_eq_some_iff.1 ht).1
  rw [List.getElem?_take_of_lt hlt] at hq'
  have hs : sections[done.length]? = some s := by
    rw [hsections, List.getElem?_append_right (Nat.le_refl _), Nat.sub_self]
    rfl
  have ht' : sections[n]? = some t := by
    rw [hsections, List.getElem?_append_left hlt]
    exact ht
  obtain ⟨hrights, hle, hlt'⟩ := Placement.byte?_eq_some hq
  apply Placement.byte?_eq_none
  rintro ⟨hrights', hle', hlt''⟩
  rw [Array.length_toList] at hlt' hlt''
  dsimp only at hrights hle hlt'
  rcases layout_apart (Nat.ne_of_lt hlt) ht' hs hq' hp with hne | hbehind | hbehind
  · exact hne (hrights.trans hrights'.symm)
  · omega
  · omega

theorem shows_copy {done rest : List Section} (hsections : sections = done ++ rest)
    (hplacements : image.placements = (layout sections).1)
    (h : image.Shows (sectionByte? ((layout sections).1.take done.length) done)) :
    (image.copy done.length rest).Shows (sectionByte? (layout sections).1 sections) := by
  -- The image shows the sections in `done`, and each turn adds the next.
  induction rest generalizing done image with
  | nil =>
    have hlen : (layout sections).1.length = done.length := by
      rw [layout, length_place, hsections, List.append_nil]
    rw [List.append_nil] at hsections
    rw [List.take_of_length_le (Nat.le_of_eq hlen), ← hsections] at h
    exact h
  | cons s rest ih =>
    have hs : sections[done.length]? = some s := by
      rw [hsections, List.getElem?_append_right (Nat.le_refl _), Nat.sub_self]
      rfl
    obtain ⟨offset, hp, -⟩ := layout_getElem hs
    have hlt : done.length < (layout sections).1.length := (List.getElem?_eq_some_iff.1 hp).1
    have hnext : (layout sections).1.take (done ++ [s]).length =
        (layout sections).1.take done.length ++ [⟨s.rights, offset⟩] := by
      rw [List.length_append, List.length_singleton, List.take_add_one, hp]
      rfl
    have hbytes : ∀ r i, sectionByte? ((layout sections).1.take (done ++ [s]).length) (done ++ [s]) r i =
        (sectionByte? ((layout sections).1.take done.length) done r i).or
          ((Placement.mk s.rights offset).byte? s.data.toList r i) := by
      intro r i
      rw [hnext, sectionByte?_append (by rw [List.length_take]; omega)]
      simp only [sectionByte?, List.zip_cons_cons, List.zip_nil_left, List.findSome?_singleton]
    have hstep : ∀ step : Image, step.placements = (layout sections).1 →
        step.Shows (fun r i => ((Placement.mk s.rights offset).byte? s.data.toList r i).or
          (sectionByte? ((layout sections).1.take done.length) done r i)) →
        (step.copy (done ++ [s]).length rest).Shows (sectionByte? (layout sections).1 sections) := by
      intro step hstep hshows
      refine ih (by rw [hsections, List.append_assoc]; rfl) hstep ?_
      intro r i b hb
      rw [hshows r i b hb, hbytes]
      dsimp only
      cases hold : sectionByte? ((layout sections).1.take done.length) done r i with
      | none => rw [Option.or_none, Option.none_or]
      | some old => rw [byte?_of_sectionByte? hsections hp hold, Option.none_or, Option.some_or]
    have hlen : done.length + 1 = (done ++ [s]).length := by simp
    rw [copy, hplacements, hp]
    dsimp only
    rw [hlen]
    split
    · next hempty =>
      refine hstep _ hplacements ?_
      have hnil : s.data = #[] := Array.isEmpty_iff.1 hempty
      intro r i b hb
      dsimp only
      rw [Placement.byte?_eq_none (by rw [hnil, Array.length_toList, Array.size_empty]; omega),
        Option.none_or]
      exact h r i b hb
    · exact hstep _ hplacements (h.write ⟨s.rights, offset⟩ s.data.toList)

/-! ### Links -/

theorem Laid.resolveLink_ok {l : Link} {next : Image} (hlaid : Laid bases sections image)
    (h : resolveLink sections image l = .ok next) :
    ∃ slot address, l.slot? (layout sections).1 = some slot ∧
      l.address? bases (layout sections).1 = some address ∧
      next = (image.write slot.rights slot.offset (Bytes.littleEndian 8 address)).note
        (.link l address) := by
  obtain ⟨hfits, hover⟩ := hlaid.fits_of_resolveLink h
  obtain ⟨slot, address, hslot, haddress, hnext⟩ := hlaid.resolveLink_fits hfits hover
  exact ⟨slot, address, hslot, haddress, Except.ok.inj (h.symm.trans hnext)⟩

theorem Shows.resolveLink {l : Link} {next : Image} (hlaid : Laid bases sections image)
    (h : image.Shows content) (hnext : Image.resolveLink sections image l = .ok next) :
    next.Shows fun r i => (l.byte? bases (layout sections).1 r i).or (content r i) := by
  obtain ⟨slot, address, hslot, haddress, rfl⟩ := hlaid.resolveLink_ok hnext
  have hlink : ∀ r i, l.byte? bases (layout sections).1 r i =
      slot.byte? (Bytes.littleEndian 8 address) r i := by
    intro r i
    rw [Link.byte?, hslot, haddress]
    rfl
  have hwrite := h.write slot (Bytes.littleEndian 8 address)
  simp only [← hlink] at hwrite
  exact hwrite

theorem Laid.of_resolveLink {l : Link} {next : Image} (hlaid : Laid bases sections image)
    (hnext : Image.resolveLink sections image l = .ok next) : Laid bases sections next := by
  obtain ⟨slot, address, -, -, rfl⟩ := hlaid.resolveLink_ok hnext
  exact hlaid.write slot _ _

theorem Laid.of_resolveLinks {links : List Link} {next : Image} (hlaid : Laid bases sections image)
    (hnext : Image.resolveLinks sections image links = .ok next) :
    Laid bases sections next ∧ ∀ l ∈ links, l.Fits sections ∧ ¬l.Overflows sections := by
  induction links generalizing image with
  | nil =>
    cases hnext
    exact ⟨hlaid, fun l hl => (by cases hl)⟩
  | cons l links ih =>
    rw [Image.resolveLinks] at hnext
    cases hmid : Image.resolveLink sections image l with
    | error fault =>
      rw [hmid] at hnext
      cases hnext
    | ok mid =>
      rw [hmid] at hnext
      obtain ⟨hlast, hlinks⟩ := ih (hlaid.of_resolveLink hmid) hnext
      exact ⟨hlast, List.forall_mem_cons.2 ⟨hlaid.fits_of_resolveLink hmid, hlinks⟩⟩

/-- The last link wins. -/
theorem Shows.resolveLinks {links : List Link} {next : Image} (hlaid : Laid bases sections image)
    (h : image.Shows content) (hnext : Image.resolveLinks sections image links = .ok next) :
    next.Shows fun r i => (links.reverse.findSome?
      (Link.byte? bases (layout sections).1 r i)).or (content r i) := by
  induction links generalizing image content with
  | nil =>
    cases hnext
    exact h
  | cons l links ih =>
    rw [Image.resolveLinks] at hnext
    cases hmid : Image.resolveLink sections image l with
    | error fault =>
      rw [hmid] at hnext
      cases hnext
    | ok mid =>
      rw [hmid] at hnext
      have hlast := ih (hlaid.of_resolveLink hmid) (h.resolveLink hlaid hmid) hnext
      intro r i b hb
      rw [hlast r i b hb]
      dsimp only
      rw [List.reverse_cons, List.findSome?_append, List.findSome?_singleton, Option.or_assoc]

end

/-! ### The journal -/

theorem journal_copy (image : Image) (id : SectionId) (sections : List Section) :
    ∃ steps, (image.copy id sections).journal = image.journal ++ steps ∧
      ∀ step ∈ steps, step.fills = true := by
  induction sections generalizing image id with
  | nil => exact ⟨[], (List.append_nil _).symm, fun step hstep => (by cases hstep)⟩
  | cons s rest ih =>
    rw [copy]
    split
    · exact ⟨[], (List.append_nil _).symm, fun step hstep => (by cases hstep)⟩
    · next p _ =>
      dsimp only
      split
      · exact ih image (id + 1)
      · obtain ⟨steps, hjournal, hsteps⟩ :=
          ih ((image.write p.rights p.offset s.data.toList).note (.copy id)) (id + 1)
        refine ⟨.copy id :: steps, by rw [hjournal, note, List.append_assoc]; rfl, ?_⟩
        intro step hstep
        rcases List.mem_cons.1 hstep with rfl | hstep
        · rfl
        · exact hsteps step hstep

theorem journal_resolveLinks {bases : Bases} {sections : List Section} {image next : Image}
    {links : List Link} (hlaid : Laid bases sections image)
    (h : resolveLinks sections image links = .ok next) :
    ∃ steps, next.journal = image.journal ++ steps ∧ ∀ step ∈ steps, step.fills = true := by
  induction links generalizing image with
  | nil =>
    cases h
    exact ⟨[], (List.append_nil _).symm, fun step hstep => (by cases hstep)⟩
  | cons l links ih =>
    rw [resolveLinks] at h
    cases hmid : resolveLink sections image l with
    | error fault =>
      rw [hmid] at h
      cases h
    | ok mid =>
      rw [hmid] at h
      obtain ⟨steps, hjournal, hsteps⟩ := ih (hlaid.of_resolveLink hmid) h
      obtain ⟨slot, address, -, -, rfl⟩ := hlaid.resolveLink_ok hmid
      refine ⟨.link l address :: steps, by rw [hjournal, note, List.append_assoc]; rfl, ?_⟩
      exact List.forall_mem_cons.2 ⟨rfl, hsteps⟩

/-! ### Loading -/

section
variable {bases : Bases} {sections : List Section} {links : List Link} {image : Image}

def copied (bases : Bases) (sections : List Section) : Image :=
  (Image.mk (allocate bases (layout sections).2) (layout sections).1
    ((allocate bases (layout sections).2).map fun r =>
      LoadStep.allocate r.rights ((layout sections).2 r.rights))).copy 0 sections

theorem laid_copied (bases : Bases) (sections : List Section) :
    Laid bases sections (copied bases sections) :=
  (@holding_copy bases sections [] sections _ rfl (holding_allocate bases sections _)).laid

theorem shows_copied (bases : Bases) (sections : List Section) :
    (copied bases sections).Shows (sectionByte? (layout sections).1 sections) :=
  @shows_copy sections _ [] sections rfl rfl
    (shows_allocate (layout sections).2 (layout sections).1 _)

theorem load_ok (h : load bases sections links = .ok image) :
    ∃ linked, resolveLinks sections (copied bases sections) links = .ok linked ∧
      image = linked.protect := by
  change (resolveLinks sections (copied bases sections) links >>= fun image => pure image.protect) = _
    at h
  cases hlinked : resolveLinks sections (copied bases sections) links with
  | error fault =>
    rw [hlinked] at h
    cases h
  | ok linked =>
    rw [hlinked] at h
    exact ⟨linked, rfl, (Except.ok.inj h).symm⟩

theorem laid_load (h : load bases sections links = .ok image) : Laid bases sections image := by
  obtain ⟨linked, hlinked, rfl⟩ := load_ok h
  obtain ⟨hlaid, -⟩ := (laid_copied bases sections).of_resolveLinks hlinked
  exact ⟨hlaid.placements, hlaid.shape⟩

theorem byte?_load (h : load bases sections links = .ok image) {r : Rights} {i : Nat}
    (hi : i < image.extent r) :
    image.byte? r i = some (finalByte bases image.placements sections links r i) := by
  have hlaid := laid_load h
  obtain ⟨linked, hlinked, rfl⟩ := load_ok h
  have hshows := (shows_copied bases sections).resolveLinks (laid_copied bases sections) hlinked
  cases hb : linked.protect.byte? r i with
  | none =>
    have hle := byte?_eq_none_iff.1 hb
    omega
  | some b =>
    rw [hshows r i b hb, hlaid.placements]
    rfl

/-! ### Slots -/

def HasSlot (image : Image) (sections : List Section) (l : Link) : Prop :=
  ∃ s p, sections[l.pointerSection]? = some s ∧ image.placements[l.pointerSection]? = some p ∧
    l.slot? image.placements = some ⟨p.rights, p.offset + l.pointerOffset⟩ ∧
    l.pointerOffset + 8 ≤ s.data.size

theorem hasSlot_load (h : load bases sections links = .ok image) {l : Link} (hl : l ∈ links) :
    image.HasSlot sections l := by
  have hlaid := laid_load h
  obtain ⟨linked, hlinked, rfl⟩ := load_ok h
  obtain ⟨⟨⟨s, hs, hend⟩, -⟩, -⟩ := ((laid_copied bases sections).of_resolveLinks hlinked).2 l hl
  obtain ⟨p, hp, -, -⟩ := hlaid.within hs
  exact ⟨s, p, hs, hp, by rw [Link.slot?, hp]; rfl, hend⟩

theorem HasSlot.byte?_eq_none {l : Link} (h : image.HasSlot sections l) {r : Rights} {i : Nat}
    (houtside : ∀ p, image.placements[l.pointerSection]? = some p → p.rights = r →
      i < p.offset + l.pointerOffset ∨ p.offset + l.pointerOffset + 8 ≤ i) :
    l.byte? bases image.placements r i = none := by
  obtain ⟨s, p, -, hp, hslot, -⟩ := h
  rw [Link.byte?, hslot]
  simp only [Option.bind_eq_bind, Option.bind_some]
  rw [Option.bind_eq_none_iff]
  intro address _
  apply Placement.byte?_eq_none
  rintro ⟨hr, hle, hlt⟩
  rw [Bytes.length_littleEndian] at hlt
  dsimp only at hr hle hlt
  rcases houtside p hp hr with hlo | hhi
  · omega
  · omega

/-! ### The order of steps -/

theorem Laid.rights_eq (h : Laid bases sections image) :
    image.regions.map (·.rights) = Rights.all.filter fun r => 0 < (layout sections).2 r := by
  have hshape := congrArg (List.map Prod.fst) h.shape
  rw [List.map_map, List.map_map] at hshape
  refine hshape.trans ?_
  rw [allocate, List.map_map]
  exact List.map_id _

theorem Laid.extent_pos_iff (h : Laid bases sections image) (r : Rights) :
    0 < image.extent r ↔ 0 < (layout sections).2 r := by
  rw [h.extent_eq]
  constructor
  · intro hpos
    rcases Nat.eq_zero_or_pos ((layout sections).2 r) with hzero | hsize
    · rw [hzero] at hpos
      exact absurd hpos (by decide)
    · exact hsize
  · exact fun hsize => Nat.lt_of_lt_of_le hsize (le_roundUp (by decide) _)

theorem journal_load (h : load bases sections links = .ok image) :
    ∃ steps, image.journal =
      ((Rights.all.filter fun r => 0 < (layout sections).2 r).map fun r =>
        .allocate r ((layout sections).2 r)) ++ (steps ++
      ((Rights.all.filter fun r => 0 < (layout sections).2 r).filter (· ≠ .readWrite)).map .protect) ∧
      ∀ step ∈ steps, step.fills = true := by
  obtain ⟨linked, hlinked, rfl⟩ := load_ok h
  obtain ⟨copies, hcopies, hcopiesFill⟩ := journal_copy (Image.mk (allocate bases (layout sections).2)
    (layout sections).1 ((allocate bases (layout sections).2).map fun r =>
      LoadStep.allocate r.rights ((layout sections).2 r.rights))) 0 sections
  obtain ⟨resolved, hresolved, hresolvedFill⟩ := journal_resolveLinks (laid_copied bases sections) hlinked
  refine ⟨copies ++ resolved, ?_, ?_⟩
  · have hrights := ((laid_copied bases sections).of_resolveLinks hlinked).1.rights_eq
    rw [protect, hrights, hresolved, copied, hcopies]
    simp only [allocate, List.map_map, List.append_assoc]
    rfl
  · intro step hstep
    rcases List.mem_append.1 hstep with hstep | hstep
    · exact hcopiesFill step hstep
    · exact hresolvedFill step hstep

theorem not_protect_of_fills {step : LoadStep} (h : step.fills = true) (r : Rights) :
    step ≠ .protect r := by
  rintro rfl
  cases h

theorem filled_load (h : load bases sections links = .ok image) :
    image.journal.Pairwise fun first later => ∀ r, first = .protect r → later.fills = false := by
  obtain ⟨steps, hjournal, hfills⟩ := journal_load h
  rw [hjournal]
  -- Only the last part has steps of this kind, and nothing in it puts bytes into memory.
  refine List.pairwise_append.2 ⟨?_, List.pairwise_append.2 ⟨?_, ?_, ?_⟩, ?_⟩
  · refine List.pairwise_of_forall_mem_list ?_
    rintro _ hfirst _ - r rfl
    obtain ⟨_, -, hne⟩ := List.mem_map.1 hfirst
    cases hne
  · refine List.pairwise_of_forall_mem_list ?_
    intro first hfirst _ _ r hr
    exact absurd hr (not_protect_of_fills (hfills first hfirst) r)
  · refine List.pairwise_of_forall_mem_list ?_
    intro _ _ later hlater _ _
    obtain ⟨_, -, rfl⟩ := List.mem_map.1 hlater
    rfl
  · intro first hfirst _ _ r hr
    exact absurd hr (not_protect_of_fills (hfills first hfirst) r)
  · rintro _ hfirst _ - r rfl
    obtain ⟨_, -, hne⟩ := List.mem_map.1 hfirst
    cases hne

theorem allocated_load (h : load bases sections links = .ok image) (r : Rights) :
    (∃ size, .allocate r size ∈ image.journal) ↔ 0 < image.extent r := by
  obtain ⟨steps, hjournal, hfills⟩ := journal_load h
  rw [hjournal, (laid_load h).extent_pos_iff]
  constructor
  · rintro ⟨size, hmem⟩
    rcases List.mem_append.1 hmem with hmem | hmem
    · obtain ⟨r', hr', heq⟩ := List.mem_map.1 hmem
      cases heq
      simpa using (List.mem_filter.1 hr').2
    · rcases List.mem_append.1 hmem with hmem | hmem
      · cases hfills _ hmem
      · obtain ⟨_, -, heq⟩ := List.mem_map.1 hmem
        cases heq
  · intro hsize
    refine ⟨(layout sections).2 r, List.mem_append_left _ (List.mem_map.2 ⟨r, ?_, rfl⟩)⟩
    exact List.mem_filter.2 ⟨by cases r <;> decide, decide_eq_true hsize⟩

theorem guarded_load (h : load bases sections links = .ok image) (r : Rights) :
    image.journal.count (.protect r) = if r ≠ .readWrite ∧ 0 < image.extent r then 1 else 0 := by
  obtain ⟨steps, hjournal, hfills⟩ := journal_load h
  have hallocate : ((Rights.all.filter fun r => 0 < (layout sections).2 r).map fun r =>
      LoadStep.allocate r ((layout sections).2 r)).count (.protect r) = 0 := by
    refine List.count_eq_zero.2 fun hmem => ?_
    obtain ⟨_, -, heq⟩ := List.mem_map.1 hmem
    cases heq
  have hsteps : steps.count (.protect r) = 0 :=
    List.count_eq_zero.2 fun hmem => not_protect_of_fills (hfills _ hmem) r rfl
  have hinjective : Function.Injective LoadStep.protect := fun _ _ heq => LoadStep.protect.inj heq
  rw [hjournal, List.count_append, List.count_append, hallocate, hsteps,
    List.count_map_of_injective _ _ hinjective, Nat.zero_add, Nat.zero_add]
  have hall : Rights.all.count r = 1 := by cases r <;> decide
  split
  · next hr =>
    rw [(laid_load h).extent_pos_iff] at hr
    rw [List.count_filter (by simpa using hr.1), List.count_filter (by simpa using hr.2), hall]
  · next hr =>
    rw [(laid_load h).extent_pos_iff] at hr
    refine List.count_eq_zero.2 fun hmem => hr ?_
    simp only [List.mem_filter, decide_eq_true_eq] at hmem
    exact ⟨hmem.2, hmem.1.2⟩

/-! ### The whole -/

/-- An account of memory that was loaded. -/
structure Accounts (image : Image) (bases : Bases) (sections : List Section) (links : List Link) :
    Prop where
  aligned : ∀ p ∈ image.placements, p.offset % 16 = 0
  within : ∀ (id : SectionId) (s : Section), sections[id]? = some s → ∃ p,
    image.placements[id]? = some p ∧ p.rights = s.rights ∧
      p.offset + s.data.size ≤ image.extent s.rights
  /-- Sections of a class lie one behind the other. -/
  apart : ∀ (i j : SectionId) (s t : Section) (p q : Placement), i < j → sections[i]? = some s →
    sections[j]? = some t → s.rights = t.rights → image.placements[i]? = some p →
      image.placements[j]? = some q → p.offset + s.data.size ≤ q.offset
  base : ∀ r, 0 < image.extent r → image.base? r = some (bases r)
  bytes : ∀ r i, i < image.extent r →
    image.byte? r i = some (finalByte bases image.placements sections links r i)
  slots : ∀ l ∈ links, image.HasSlot sections l
  /-- All that is in no slot is as the sections have it. -/
  kept : ∀ r i, i < image.extent r →
    (∀ l ∈ links, ∀ p, image.placements[l.pointerSection]? = some p → p.rights = r →
      i < p.offset + l.pointerOffset ∨ p.offset + l.pointerOffset + 8 ≤ i) →
    image.byte? r i = some ((sectionByte? image.placements sections r i).getD 0)
  /-- Nothing is put into memory once pages have their rights. -/
  filled : image.journal.Pairwise fun first later => ∀ r, first = .protect r → later.fills = false
  allocated : ∀ r, (∃ size, .allocate r size ∈ image.journal) ↔ 0 < image.extent r
  guarded : ∀ r, image.journal.count (.protect r) =
    if r ≠ .readWrite ∧ 0 < image.extent r then 1 else 0

/-- What becomes of sections and links that can be loaded. -/
theorem accounts_load (h : load bases sections links = .ok image) :
    image.Accounts bases sections links := by
  have hlaid := laid_load h
  refine ⟨?_, fun id s => hlaid.within, ?_, ?_, fun r i => byte?_load h, fun l => hasSlot_load h, ?_,
    filled_load h, allocated_load h, guarded_load h⟩
  · rw [hlaid.placements]
    exact place_aligned _ sections
  · intro i j s t p q hij hs ht hrights hp hq
    rw [hlaid.placements] at hp hq
    exact place_apart hij hs ht hrights hp hq
  · intro r hr
    obtain ⟨g, hg, hbase, -⟩ := hlaid.region ((hlaid.extent_pos_iff r).1 hr)
    rw [base?, hg, ← hbase]
    rfl
  · intro r i hi houtside
    have hnone : links.reverse.findSome? (Link.byte? bases image.placements r i) = none := by
      rw [List.findSome?_eq_none_iff]
      intro l hl
      have hl := List.mem_reverse.1 hl
      exact (hasSlot_load h hl).byte?_eq_none (houtside l hl)
    rw [byte?_load h hi, finalByte, hnone, Option.none_or]

end

def mixedSections : List Section :=
  [⟨.executable, Array.replicate 20 0x90⟩, ⟨.readOnly, Array.replicate 8 1⟩, ⟨.executable, #[]⟩,
    ⟨.readWrite, Array.replicate 8 2⟩, ⟨.executable, Array.replicate 16 0xcc⟩]

def mixedLinks : List Link := [⟨0, 0, 1, 4⟩, ⟨0, 4, 4, 0⟩, ⟨3, 0, 0, 20⟩]

theorem accounts_load_mixed : ∃ image, load .standard mixedSections mixedLinks = .ok image ∧
    image.Accounts .standard mixedSections mixedLinks ∧
    image.byte? .executable 0 = some 4 ∧ image.byte? .executable 4 = some 32 ∧
    image.byte? .executable 19 = some 0x90 ∧ image.byte? .executable 20 = some 0 ∧
    image.byte? .readWrite 0 = some 20 := by
  have hload : (load .standard mixedSections mixedLinks).toOption.any (fun image =>
      image.placements == [⟨.executable, 0⟩, ⟨.readOnly, 0⟩, ⟨.executable, 32⟩, ⟨.readWrite, 0⟩,
        ⟨.executable, 32⟩] && Rights.all.all fun r => image.extent r == 4096) = true := by
    decide +kernel
  obtain ⟨image, himage, hboth⟩ := exists_ok_of_any hload
  obtain ⟨hplacements, hextent⟩ := Bool.and_eq_true_iff.1 hboth
  have hplacements := beq_iff_eq.1 hplacements
  have hextent : ∀ r, image.extent r = 4096 := by
    intro r
    refine beq_iff_eq.1 (List.all_eq_true.1 hextent r ?_)
    cases r <;> decide
  have haccounts := accounts_load himage
  have hbytes : ∀ r i, i < 4096 → image.byte? r i =
      some (finalByte .standard image.placements mixedSections mixedLinks r i) :=
    fun r i hi => haccounts.bytes r i (by rw [hextent]; exact hi)
  rw [hplacements] at hbytes
  refine ⟨image, himage, haccounts, ?_, ?_, ?_, ?_, ?_⟩
  all_goals rw [hbytes _ _ (by decide)]
  all_goals decide +kernel

end Image
end ScalarJit
