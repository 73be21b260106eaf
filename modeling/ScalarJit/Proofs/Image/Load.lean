import ScalarJit.Proofs.Codegen.Links
import ScalarJit.Proofs.Image.Links
import ScalarJit.Proofs.Machine.Program
import ScalarJit.Proofs.X86.Decode

/-! # Loading programs

The sections of a compiled program load wherever there is room for them. Once they are loaded, each
section holds its instructions with the addresses of what they are linked to. -/

namespace ScalarJit

open Codegen (Item Pool AllLinks bytesOf linksOf linksFrom sectionOf)
open X86 (Instr Gpr)

/-- There is room for the pages of sections where they are to be, away from what belongs to the
host. -/
structure Bases.Suit [HostAddresses] (bases : Bases) (sections : List Section) : Prop where
  room : ∀ r, bases r + roundUp pageSize ((Image.layout sections).2 r) ≤ 0x10000000000000000
  apart : ∀ f : HostFunction, f.address.toNat < bases .executable ∨
    bases .executable + roundUp pageSize ((Image.layout sections).2 .executable) ≤ f.address.toNat

open scoped HostAddresses in
theorem Bases.suit_standard {sections : List Section}
    (h : ∀ r, (Image.layout sections).2 r ≤ 0x100000000) : Bases.standard.Suit sections := by
  have hround : ∀ r, roundUp pageSize ((Image.layout sections).2 r) ≤ 0x100000000 := by
    intro r
    have hr := h r
    rw [roundUp, pageSize]
    omega
  constructor
  · intro r
    have hr := hround r
    cases r <;> simp only [Bases.standard] <;> omega
  · intro f
    have hr := hround .executable
    have haddress : 0xa0a0a0a0a0a0a0a0 ≤ f.address.toNat := by
      cases f with
      | power => decide
      | intrinsic i => cases i <;> decide
    simp only [Bases.standard]
    omega

namespace Image

def addressOf (bases : Bases) (sections : List Section) (id : SectionId) (offset : Nat) : UInt64 :=
  match (layout sections).1[id]? with
  | some p => UInt64.ofNat (bases p.rights + p.offset + offset)
  | none => 0

theorem addressOf_add (bases : Bases) {sections : List Section} {id : SectionId} {p : Placement}
    (hp : (layout sections).1[id]? = some p) (offset more : Nat) :
    addressOf bases sections id (offset + more) = behind (addressOf bases sections id offset) more := by
  rw [addressOf, addressOf, hp, behind]
  dsimp only
  rw [← UInt64.ofNat_add, ← Nat.add_assoc]

/-! ### Copying -/

theorem holding_copy {bases : Bases} {sections done rest : List Section} {image : Image}
    (hsections : sections = done ++ rest)
    (h : Holding bases sections (done.map (·.data.toList) ++
      rest.map fun s => List.replicate s.data.size 0) image) :
    Holding bases sections (sections.map (·.data.toList)) (image.copy done.length rest) := by
  -- Sections not copied yet hold zeros.
  induction rest generalizing done image with
  | nil =>
    rw [List.append_nil] at hsections
    rw [List.map_nil, List.append_nil, ← hsections] at h
    exact h
  | cons s rest ih =>
    have hs : sections[done.length]? = some s := by
      rw [hsections, List.getElem?_append_right (Nat.le_refl _), Nat.sub_self]
      rfl
    obtain ⟨offset, hp, -⟩ := layout_getElem hs
    have hcontent : (done.map (·.data.toList) ++
        (s :: rest).map fun s => List.replicate s.data.size (0 : UInt8))[done.length]? =
          some ([] ++ (List.replicate s.data.size 0 ++ [])) := by
      rw [List.getElem?_append_right (by simp)]
      simp
    have hset : ∀ c : List UInt8, (done.map (·.data.toList) ++
        (s :: rest).map fun s => List.replicate s.data.size (0 : UInt8)).set done.length c =
          done.map (·.data.toList) ++ c :: rest.map fun s => List.replicate s.data.size 0 := by
      intro c
      rw [List.set_append_right _ _ (by simp)]
      simp
    have hnext : done.map (·.data.toList) ++ s.data.toList ::
        rest.map (fun s => List.replicate s.data.size (0 : UInt8)) =
          (done ++ [s]).map (·.data.toList) ++ rest.map fun s => List.replicate s.data.size 0 := by
      simp
    have hlen : done.length + 1 = (done ++ [s]).length := by simp
    rw [copy, h.placements, hp]
    dsimp only
    rw [hlen]
    refine ih (by simp [hsections]) ?_
    rw [← hnext]
    split
    · next hempty =>
      have hnil : List.replicate s.data.size (0 : UInt8) = s.data.toList := by
        have hsize : s.data = #[] := Array.isEmpty_iff.1 hempty
        rw [hsize]
        rfl
      rw [List.map_cons, hnil] at h
      exact h
    · have hwrite := (h.write hp hcontent (show s.data.toList.length = _ by simp)).note
        (.copy done.length)
      rw [hset, List.nil_append, List.append_nil] at hwrite
      exact hwrite

theorem holding_allocate (bases : Bases) (sections : List Section) (journal : List LoadStep) :
    Holding bases sections (sections.map fun s => List.replicate s.data.size 0)
      ⟨allocate bases (layout sections).2, (layout sections).1, journal⟩ where
  placements := rfl
  shape := rfl
  lengths := by
    rw [List.map_map]
    apply List.map_congr_left
    intro s _
    simp
  bytes := by
    intro id c p hc hp i x hx
    rw [List.getElem?_map] at hc
    obtain ⟨s, hs, rfl⟩ := Option.map_eq_some_iff.1 hc
    rw [List.getElem?_replicate] at hx
    split at hx
    · next hi =>
      obtain ⟨offset, hoffset, hsize⟩ := layout_getElem hs
      rw [hp, Option.some_inj] at hoffset
      subst hoffset
      have hpages := le_roundUp (show 0 < pageSize by decide) ((layout sections).2 s.rights)
      have hpos : 0 < (layout sections).2 s.rights := by omega
      have hlt : offset + i < roundUp pageSize ((layout sections).2 s.rights) := by omega
      rw [byte?, region?, find?_allocate bases _ hpos, Option.bind_some, Array.getElem?_replicate,
        if_pos hlt, hx]
    · cases hx

/-! ### Links -/

theorem resolveLinks_append (sections : List Section) (image : Image) (links more : List Link) :
    resolveLinks sections image (links ++ more) =
      (resolveLinks sections image links >>= fun next => resolveLinks sections next more) := by
  induction links generalizing image with
  | nil => rfl
  | cons l links ih =>
    rw [List.cons_append, resolveLinks, resolveLinks]
    cases resolveLink sections image l with
    | error f => rfl
    | ok next => exact ih next

def Reached (sections : List Section) (id : SectionId) (offset : Nat) : Prop :=
  ∃ s, sections[id]? = some s ∧ offset < s.data.size

section
variable {bases : Bases} {sections : List Section} {contents : List (List UInt8)} {image : Image}

theorem littleEndian_mod (count n : Nat) :
    Bytes.littleEndian count (n % Nat.pow 256 count) = Bytes.littleEndian count n := by
  induction count generalizing n with
  | zero => rfl
  | succ count ih =>
    have hpow : Nat.pow 256 (count + 1) = 256 * Nat.pow 256 count := Nat.pow_succ'
    have hlow : n % Nat.pow 256 (count + 1) % 256 = n % 256 :=
      Nat.mod_mod_of_dvd n ⟨Nat.pow 256 count, hpow⟩
    have hhigh : n % Nat.pow 256 (count + 1) / 256 = n / 256 % Nat.pow 256 count := by
      rw [hpow, Nat.mod_mul_right_div_self]
    rw [Bytes.littleEndian, Bytes.littleEndian, hlow, hhigh, ih]

theorem Reached.backed {id : SectionId} {offset : Nat} {s : Section} (h : Reached sections id offset)
    (hs : sections[id]? = some s) : s.rights.Backed sections := by
  obtain ⟨s', hs', hsize⟩ := h
  rw [hs, Option.some_inj] at hs'
  subst hs'
  exact ⟨s, List.mem_of_getElem? hs, rfl, by omega⟩

theorem littleEndian_addressOf {id : SectionId} {p : Placement}
    (hp : (layout sections).1[id]? = some p) (offset : Nat) :
    Bytes.littleEndian 8 (bases p.rights + p.offset + offset) =
      Bytes.ofWord (addressOf bases sections id offset) := by
  rw [addressOf, hp, Bytes.ofWord, UInt64.toNat_ofNat']
  exact (littleEndian_mod 8 _).symm

theorem Laid.address (h : Laid bases sections image) {id : SectionId} {offset : Nat}
    (hid : Reached sections id offset) :
    ∃ n, image.address? id offset = .ok (some n) ∧ n.toUInt64 = addressOf bases sections id offset := by
  obtain ⟨s, hs, hsize⟩ := hid
  obtain ⟨start, hp, -⟩ := layout_getElem hs
  refine ⟨_, h.address?_eq_some hs hp (Reached.backed ⟨s, hs, hsize⟩ hs) (Nat.le_of_lt hsize), ?_⟩
  rw [addressOf, hp]

theorem Holding.resolveLink (h : Holding bases sections contents image) {l : Link}
    {before old after : List UInt8}
    (hc : contents[l.pointerSection]? = some (before ++ (old ++ after)))
    (hbefore : before.length = l.pointerOffset) (hold : old.length = 8)
    (hword : l.pointerOffset + 8 ≤ wordMax)
    (hpointee : Reached sections l.pointeeSection l.pointeeOffset) :
    ∃ next, resolveLink sections image l = .ok next ∧ Holding bases sections
      (contents.set l.pointerSection (before ++ (Bytes.ofWord
        (addressOf bases sections l.pointeeSection l.pointeeOffset) ++ after))) next := by
  obtain ⟨s, hs, hsize⟩ := h.section_of_content hc
  rw [List.length_append, List.length_append] at hsize
  obtain ⟨start, hp, -⟩ := layout_getElem hs
  obtain ⟨t, ht, htsize⟩ := id hpointee
  obtain ⟨start', hq, -⟩ := layout_getElem ht
  have hfits : l.Fits sections :=
    ⟨⟨s, hs, by omega⟩, t, ht, Nat.le_of_lt htsize, hpointee.backed ht⟩
  obtain ⟨slot, address, hslot, haddress, hnext⟩ :=
    h.laid.resolveLink_fits hfits fun hover => Nat.not_lt.2 hword hover.2
  rw [Link.slot?, hp, Option.map_some, Option.some_inj] at hslot
  rw [Link.address?, hq, Option.map_some, Option.some_inj] at haddress
  subst hslot haddress
  have hwrite := (h.write hp hc (Bytes.length_ofWord (addressOf bases sections l.pointeeSection
    l.pointeeOffset) |>.trans hold.symm)).note (.link l (bases t.rights + start' + l.pointeeOffset))
  refine ⟨_, hnext, ?_⟩
  rw [← hbefore, littleEndian_addressOf hq]
  exact hwrite

def encoded (code : List Instr) : List UInt8 := code.flatMap (·.encode)

theorem encode_moveImm_rax (imm : UInt64) :
    (Instr.moveImm Gpr.rax imm).encode = [0x48, 0xb8] ++ Bytes.ofWord imm := by
  rfl

theorem Holding.resolveItems {home : SectionId} {items : List Item}
    (hlinks : AllLinks (Reached sections) items) {before after : List UInt8}
    (hword : before.length + Codegen.sizeOf items ≤ wordMax) (h : Holding bases sections contents image)
    (hc : contents[home]? = some (before ++ (bytesOf items ++ after))) :
    ∃ next, resolveLinks sections image (linksOf home before.length items) = .ok next ∧
      Holding bases sections (contents.set home (before ++
        (encoded (Machine.resolved (addressOf bases sections) items) ++ after))) next := by
  -- What is resolved already counts to `before`: the image changes with every link.
  induction items generalizing before contents image with
  | nil =>
    refine ⟨image, rfl, ?_⟩
    obtain ⟨hid, hget⟩ := List.getElem?_eq_some_iff.1 hc
    have hsame : contents.set home (before ++ ([] ++ after)) = contents := by
      rw [show before ++ ([] ++ after) = contents[home] from hget.symm, List.set_getElem_self]
    rw [show encoded (Machine.resolved (addressOf bases sections) []) = [] from rfl, hsame]
    exact h
  | cons i items ih =>
    cases i with
    | plain i =>
      have hassoc : ∀ more : List UInt8, before ++ (i.encode ++ more) = before ++ i.encode ++ more :=
        fun more => (List.append_assoc ..).symm
      have hbytes : bytesOf (.plain i :: items) = i.encode ++ bytesOf items := rfl
      rw [hbytes, List.append_assoc, hassoc] at hc
      have hsize : Codegen.sizeOf (.plain i :: items) = i.encode.length + Codegen.sizeOf items :=
        Codegen.sizeOf_cons _ _
      obtain ⟨next, hnext, hholding⟩ := ih (Codegen.allLinks_plain.1 hlinks)
        (by rw [List.length_append]; omega) h hc
      rw [List.length_append] at hnext
      refine ⟨next, hnext, ?_⟩
      rw [← hassoc, ← List.append_assoc i.encode] at hholding
      exact hholding
    | linked target offset =>
      obtain ⟨hreached, hrest⟩ := Codegen.allLinks_linked.1 hlinks
      have hbytes : bytesOf (.linked target offset :: items) =
          [0x48, 0xb8] ++ (Bytes.ofWord 0 ++ bytesOf items) := rfl
      have hassoc : ∀ w more, before ++ (([0x48, 0xb8] ++ (Bytes.ofWord w ++ bytesOf items)) ++ more) =
          before ++ [0x48, 0xb8] ++ (Bytes.ofWord w ++ (bytesOf items ++ more)) := by
        intro w more
        simp only [List.append_assoc]
      have hassoc' : ∀ w more, before ++ [0x48, 0xb8] ++ (Bytes.ofWord w ++ more) =
          before ++ ([0x48, 0xb8] ++ Bytes.ofWord w) ++ more := by
        intro w more
        simp only [List.append_assoc]
      rw [hbytes, hassoc] at hc
      have hid : home < contents.length := (List.getElem?_eq_some_iff.1 hc).1
      have hsize : Codegen.sizeOf (.linked target offset :: items) = 10 + Codegen.sizeOf items := by
        rw [Codegen.sizeOf_cons, Codegen.size_linked]
      have hend : before.length + 2 + 8 ≤ wordMax := by omega
      obtain ⟨mid, hmid, hmidHolding⟩ := h.resolveLink (l := ⟨home, before.length + 2, target,
        offset⟩) hc (by simp) (Bytes.length_ofWord 0) hend hreached
      rw [hassoc'] at hmidHolding
      have hlength : (before ++ ([0x48, 0xb8] ++ Bytes.ofWord
          (addressOf bases sections target offset))).length = before.length + 10 := by simp
      obtain ⟨next, hnext, hholding⟩ := ih hrest (by rw [hlength]; omega) hmidHolding
        (by rw [List.getElem?_set_self hid])
      refine ⟨next, ?_, ?_⟩
      · rw [linksOf, resolveLinks, hmid]
        rw [hlength] at hnext
        exact hnext
      · rw [List.set_set, List.append_assoc, ← List.append_assoc ([0x48, 0xb8] ++ _),
          ← encode_moveImm_rax] at hholding
        exact hholding

theorem Holding.resolveFunctions {code : List (List Item)}
    (hlinks : ∀ items ∈ code, AllLinks (Reached sections) items ∧ Codegen.sizeOf items ≤ wordMax) {done rest : List (List UInt8)}
    (h : Holding bases sections (done ++ (code.map bytesOf ++ rest)) image) :
    ∃ next, resolveLinks sections image (linksFrom done.length code) = .ok next ∧
      Holding bases sections (done ++ (code.map (fun items =>
        encoded (Machine.resolved (addressOf bases sections) items)) ++ rest)) next := by
  induction code generalizing done image with
  | nil => exact ⟨image, rfl, h⟩
  | cons items code ih =>
    have hc : (done ++ ((items :: code).map bytesOf ++ rest))[done.length]? =
        some ([] ++ (bytesOf items ++ [])) := by
      rw [List.getElem?_append_right (Nat.le_refl _), Nat.sub_self]
      simp
    obtain ⟨hreached, hword⟩ := hlinks items List.mem_cons_self
    obtain ⟨mid, hmid, hmidHolding⟩ := h.resolveItems hreached (by simpa using hword) hc
    rw [List.set_append_right _ _ (Nat.le_refl _), Nat.sub_self, List.nil_append, List.append_nil]
      at hmidHolding
    have hmidHolding : Holding bases sections ((done ++ [encoded (Machine.resolved
        (addressOf bases sections) items)]) ++ (code.map bytesOf ++ rest)) mid := by
      rw [List.append_assoc]
      exact hmidHolding
    obtain ⟨next, hnext, hholding⟩ := ih (fun i hi => hlinks i (List.mem_cons_of_mem _ hi)) hmidHolding
    refine ⟨next, ?_, ?_⟩
    · rw [linksFrom, resolveLinks_append]
      rw [List.length_nil] at hmid
      rw [hmid]
      rw [List.length_append] at hnext
      exact hnext
    · rw [List.append_assoc] at hholding
      exact hholding

/-! ### Reading what was loaded -/

theorem Holding.byte (h : Holding bases sections contents image) {id : Nat} {p : Placement}
    {before mid after : List UInt8} (hp : (layout sections).1[id]? = some p)
    (hc : contents[id]? = some (before ++ (mid ++ after))) {i : Nat} (hi : i < mid.length) :
    image.byte? p.rights (p.offset + before.length + i) = some mid[i] := by
  have hget : (before ++ (mid ++ after))[before.length + i]? = some mid[i] := by
    rw [List.getElem?_append_right (by omega), Nat.add_sub_cancel_left, List.getElem?_append_left hi,
      List.getElem?_eq_getElem hi]
  rw [Nat.add_assoc]
  exact h.bytes id _ p hc hp (before.length + i) _ hget

/-- Bytes of a section are found from where they start in the memory of their class. -/
theorem Holding.extract (h : Holding bases sections contents image) {id : Nat} {p : Placement}
    {before mid after : List UInt8} {g : Region} (hp : (layout sections).1[id]? = some p)
    (hg : image.region? p.rights = some g) (hc : contents[id]? = some (before ++ (mid ++ after)))
    {width : Nat} (hwidth : mid.length ≤ width) :
    mid <+: (g.bytes.extract (p.offset + before.length) (p.offset + before.length + width)).toList := by
  rw [List.prefix_iff_getElem?]
  intro i hi
  have hbyte := h.byte hp hc hi
  rw [byte?, hg, Option.bind_some] at hbyte
  have hin : p.offset + before.length + i < g.bytes.size := (Array.getElem?_eq_some_iff.1 hbyte).1
  rw [Array.getElem?_toList, Array.getElem?_extract, if_pos (by omega)]
  exact hbyte

variable [HostAddresses]

theorem toNat_addressOf (hsuit : bases.Suit sections) {id : Nat} {s : Section} {start offset : Nat}
    (hs : sections[id]? = some s) (hp : (layout sections).1[id]? = some ⟨s.rights, start⟩)
    (hoffset : offset < s.data.size) :
    (addressOf bases sections id offset).toNat = bases s.rights + (start + offset) ∧
      start + offset < roundUp pageSize ((layout sections).2 s.rights) := by
  obtain ⟨start', hp', hend⟩ := layout_getElem hs
  rw [hp, Option.some_inj] at hp'
  cases hp'
  have hroom := hsuit.room s.rights
  have hround := le_roundUp (show 0 < pageSize by decide) ((layout sections).2 s.rights)
  refine ⟨?_, by omega⟩
  rw [addressOf, hp]
  dsimp only
  rw [UInt64.toNat_ofNat_of_lt' (by rw [UInt64.size]; omega), Nat.add_assoc]

theorem Holding.at (hsuit : bases.Suit sections) (h : Holding bases sections contents image) {id : Nat}
    {s : Section} (hs : sections[id]? = some s) (hrights : s.rights = .executable) {code : List Instr}
    {before after : List UInt8} (hc : contents[id]? = some (before ++ (encoded code ++ after))) :
    image.At (addressOf bases sections id before.length) code := by
  -- The instructions already fetched count to `before`.
  induction code generalizing before with
  | nil => trivial
  | cons i code ih =>
    have hbytes : before ++ (encoded (i :: code) ++ after) =
        before ++ (i.encode ++ (encoded code ++ after)) := by
      rw [show encoded (i :: code) = i.encode ++ encoded code from rfl, List.append_assoc]
    have hbytes' : before ++ (encoded (i :: code) ++ after) =
        before ++ i.encode ++ (encoded code ++ after) := by
      rw [hbytes, List.append_assoc]
    obtain ⟨start, hp, hend⟩ := layout_getElem hs
    obtain ⟨t, ht, hsize⟩ := h.section_of_content hc
    rw [hs, Option.some_inj] at ht
    subst ht
    have hpos : 0 < i.encode.length := List.length_pos_iff.2 (X86.encode_ne_nil i)
    rw [hbytes, List.length_append, List.length_append] at hsize
    obtain ⟨g, hg, hbase, hpages⟩ := h.laid.region (r := s.rights) (by omega)
    obtain ⟨haddress, hin⟩ := toNat_addressOf hsuit hs hp (show before.length < s.data.size by omega)
    have hstart : (addressOf bases sections id before.length).toNat - g.base =
        start + before.length := by
      rw [haddress, hbase]
      omega
    have hwidth : i.encode.length ≤ longestInstruction :=
      Nat.le_trans (X86.length_encode_le i) (by decide)
    obtain ⟨rest, hwindow⟩ := h.extract hp hg (by rw [← hbytes]; exact hc) hwidth
    have hfetch : image.fetch (addressOf bases sections id before.length) =
        .ok (i, behind (addressOf bases sections id before.length) i.encode.length) := by
      have hg : image.region? .executable = some g := by rw [← hrights]; exact hg
      rw [fetch, hg]
      dsimp only
      rw [hstart, if_pos ⟨by omega, by omega⟩, ← hwindow, X86.decode_encode_append]
      simp only [List.length_append, Nat.add_sub_cancel]
    refine ⟨hfetch, ?_⟩
    rw [← addressOf_add bases hp, ← List.length_append]
    exact ih (by rw [← hbytes']; exact hc)

theorem Holding.loadDouble (hsuit : bases.Suit sections) (h : Holding bases sections contents image)
    {id : Nat} {s : Section} (hs : sections[id]? = some s) (hrights : s.rights = .readOnly)
    {x : Double} {before after : List UInt8}
    (hc : contents[id]? = some (before ++ (Bytes.ofWord x.bits ++ after))) :
    image.loadDouble (addressOf bases sections id before.length) = .ok x := by
  obtain ⟨start, hp, hend⟩ := layout_getElem hs
  obtain ⟨t, ht, hsize⟩ := h.section_of_content hc
  rw [hs, Option.some_inj] at ht
  subst ht
  rw [List.length_append, List.length_append, Bytes.length_ofWord] at hsize
  obtain ⟨g, hg, hbase, hpages⟩ := h.laid.region (r := s.rights) (by omega)
  obtain ⟨haddress, hin⟩ := toNat_addressOf hsuit hs hp (show before.length < s.data.size by omega)
  have hround := le_roundUp (show 0 < pageSize by decide) ((layout sections).2 s.rights)
  have hfirst : ∃ rest, image.regions = g :: rest := by
    have hshape := h.shape
    rw [hrights] at hend hg
    have hpos : 0 < (layout sections).2 .readOnly := by omega
    have hallocate : ∃ rest, allocate bases (layout sections).2 = ⟨.readOnly, bases .readOnly,
        Array.replicate (roundUp pageSize ((layout sections).2 .readOnly)) 0⟩ :: rest := by
      have hfilter : Rights.all.filter (fun r => 0 < (layout sections).2 r) = .readOnly ::
          [Rights.readWrite, .executable].filter fun r => 0 < (layout sections).2 r :=
        List.filter_cons_of_pos (by simpa using hpos)
      rw [allocate, hfilter]
      exact ⟨_, rfl⟩
    obtain ⟨rest, hrest⟩ := hallocate
    rw [hrest, List.map_cons] at hshape
    obtain ⟨first, others, hregions, houtline, -⟩ := List.map_eq_cons_iff.1 hshape
    refine ⟨others, ?_⟩
    have hmatch : first.rights = .readOnly := congrArg Prod.fst houtline
    rw [region?, hregions, List.find?_cons_of_pos (by rw [hmatch]; rfl), Option.some_inj] at hg
    rw [hregions, hg]
  obtain ⟨rest, hregions⟩ := hfirst
  have hstart : (addressOf bases sections id before.length).toNat - g.base = start + before.length := by
    rw [haddress, hbase]
    omega
  have hprefix := h.extract hp hg hc (Nat.le_of_eq (Bytes.length_ofWord x.bits))
  have hlength : (g.bytes.extract (start + before.length) (start + before.length + 8)).toList.length ≤
      (Bytes.ofWord x.bits).length := by
    rw [Array.length_toList, Array.size_extract, Bytes.length_ofWord]
    omega
  have hbytes := hprefix.eq_of_length_le hlength
  rw [Image.loadDouble, hregions, List.find?_cons_of_pos]
  · dsimp only
    rw [hstart, ← hbytes, Bytes.toWord_ofWord]
  · rw [Bool.and_eq_true, decide_eq_true_iff, decide_eq_true_iff]
    dsimp only
    omega

end
end Image

/-! ### Programs -/

namespace Codegen

theorem LowersAll.length_eq [HostAddresses] {poolSection : SectionId}
    {sections : List (Named SectionId)} {pool : Pool}
    {home : SectionId} {functions : List (Named Function)} {code : List (List Item)}
    (h : LowersAll poolSection sections pool home functions code) : code.length = functions.length := by
  induction h with
  | nil => rfl
  | cons _ _ _ _ ih => rw [List.length_cons, List.length_cons, ih]

theorem LowersAll.of_mem [HostAddresses] {poolSection : SectionId}
    {sections : List (Named SectionId)} {pool : Pool}
    {home : SectionId} {functions : List (Named Function)} {code : List (List Item)}
    (h : LowersAll poolSection sections pool home functions code) {items : List Item}
    (hmem : items ∈ code) :
    ∃ f id, LowersFunction ⟨f, id, poolSection, sections⟩ pool items := by
  induction h with
  | nil => cases hmem
  | cons _ _ h _ ih =>
    rcases List.mem_cons.1 hmem with rfl | hmem
    · exact ⟨_, _, h⟩
    · exact ih hmem

theorem LowersAll.sizeOf_le [HostAddresses] {poolSection : SectionId}
    {sections : List (Named SectionId)} {pool : Pool}
    {home : SectionId} {functions : List (Named Function)} {code : List (List Item)}
    (h : LowersAll poolSection sections pool home functions code) {items : List Item}
    (hmem : items ∈ code) : sizeOf items ≤ X86.Assembler.defaultLimit := by
  induction h with
  | nil => cases hmem
  | cons hsize _ _ _ ih =>
    rcases List.mem_cons.1 hmem with rfl | hmem
    · exact hsize
    · exact ih hmem

theorem Pool.toList_bytes (pool : Pool) :
    pool.bytes.toList = pool.values.toList.flatMap fun x => Bytes.ofWord x.bits := by
  have hfold : ∀ (values : List Double) (start : Array UInt8),
      (values.foldl (fun bytes x => bytes ++ (Bytes.ofWord x.bits).toArray) start).toList =
        start.toList ++ values.flatMap fun x => Bytes.ofWord x.bits := by
    intro values
    induction values with
    | nil => simp
    | cons x values ih =>
      intro start
      rw [List.foldl_cons, ih, List.flatMap_cons, Array.toList_append, List.append_assoc]
  rw [Pool.bytes, ← Array.foldl_toList, hfold]
  rfl

theorem Pool.Holds.isEmpty {pool : Pool} {offset : Nat} {x : Double} (h : pool.Holds offset x) :
    pool.values.isEmpty = false := by
  obtain ⟨index, -, hget⟩ := h
  obtain ⟨hlt, -⟩ := Array.getElem?_eq_some_iff.1 hget
  rw [Array.isEmpty_eq_false_iff_exists_mem]
  exact ⟨_, Array.getElem_mem hlt⟩

theorem Pool.Holds.bytes {pool : Pool} {offset : Nat} {x : Double} (h : pool.Holds offset x) :
    ∃ before after, pool.bytes.toList = before ++ (Bytes.ofWord x.bits ++ after) ∧
      before.length = offset := by
  obtain ⟨index, hoffset, hx⟩ := h
  rw [← Array.getElem?_toList] at hx
  obtain ⟨hlt, hget⟩ := List.getElem?_eq_some_iff.1 hx
  have hsplit : pool.values.toList =
      pool.values.toList.take index ++ x :: pool.values.toList.drop (index + 1) := by
    rw [← hget, List.getElem_cons_drop, List.take_append_drop]
  refine ⟨(pool.values.toList.take index).flatMap fun x => Bytes.ofWord x.bits,
    (pool.values.toList.drop (index + 1)).flatMap fun x => Bytes.ofWord x.bits, ?_, ?_⟩
  · rw [Pool.toList_bytes]
    conv => lhs; rw [hsplit]
    rw [List.flatMap_append, List.flatMap_cons]
  · rw [List.length_flatMap, hoffset]
    simp only [Bytes.length_ofWord, List.map_const', List.sum_replicate_nat, List.length_take]
    rw [Nat.min_eq_left (Nat.le_of_lt hlt), Nat.mul_comm]

end Codegen

namespace Program.Lowered

open Image

variable {p : Program} {o : Object} {pool : Pool} {code : List (List Item)} {bases : Bases}
    [HostAddresses]

theorem length_code (h : p.Lowered o pool code) : code.length = p.functions.length :=
  h.functions.length_eq.trans (Named.sort_perm p.functions).length_eq

theorem section_code (h : p.Lowered o pool code) {id : Nat} {items : List Item}
    (hitems : code[id]? = some items) : o.sections[id]? = some (sectionOf items) := by
  have hid : id < code.length := (List.getElem?_eq_some_iff.1 hitems).1
  rw [h.sections, List.getElem?_append_left (by rw [List.length_map]; exact hid), List.getElem?_map,
    hitems]
  rfl

theorem section_pool (h : p.Lowered o pool code) {offset : Nat} {x : Double}
    (hx : pool.Holds offset x) : o.sections[p.functions.length]? = some ⟨.readOnly, pool.bytes⟩ := by
  have hlen : (code.map sectionOf).length = p.functions.length := by
    rw [List.length_map, h.length_code]
  rw [h.sections, List.getElem?_append_right (Nat.le_of_eq hlen), hlen, Nat.sub_self, hx.isEmpty]
  rfl

theorem sizeOf_pos (h : p.Lowered o pool code) {id : Nat} {items : List Item}
    (hitems : code[id]? = some items) : 0 < (sectionOf items).data.size := by
  obtain ⟨_, _, hlower⟩ := h.functions.of_mem (List.mem_of_getElem? hitems)
  exact hlower.sizeOf_pos

theorem allLinks (h : p.Lowered o pool code) {items : List Item} (hmem : items ∈ code) :
    AllLinks (Reached o.sections) items := by
  obtain ⟨f, id, hlower⟩ := h.functions.of_mem hmem
  refine hlower.allLinks.mono ?_
  intro target offset hlinked
  cases hlinked with
  | constant hx =>
    refine ⟨_, h.section_pool hx, ?_⟩
    obtain ⟨before, after, hbytes, hlength⟩ := hx.bytes
    have hsize := congrArg List.length hbytes
    rw [List.length_append, List.length_append, Bytes.length_ofWord, Array.length_toList] at hsize
    dsimp only
    omega
  | @function callee id' hid =>
    have hentries : o.entries = numbered (Named.sort p.functions) 0 := h.entries
    have hid : o.entries.lookup callee = some target := hid
    rw [hentries] at hid
    obtain ⟨i, a, rfl, hget, -⟩ := lookup_numbered hid
    obtain ⟨items', hitems', -⟩ := h.functions.getElem hget
    rw [Nat.zero_add]
    exact ⟨_, h.section_code hitems', h.sizeOf_pos hitems'⟩

/-- What the sections of a program hold, with every link at its address. -/
def contents (pool : Pool) (code : List (List Item)) (address : SectionId → Nat → UInt64) :
    List (List UInt8) :=
  code.map (fun items => encoded (Machine.resolved address items)) ++
    if pool.values.isEmpty then [] else [pool.bytes.toList]

omit [HostAddresses] in
theorem contents_code (pool : Pool) (address : SectionId → Nat → UInt64) {id : Nat} {items : List Item}
    (hitems : code[id]? = some items) :
    (contents pool code address)[id]? = some (encoded (Machine.resolved address items)) := by
  have hid : id < code.length := (List.getElem?_eq_some_iff.1 hitems).1
  rw [contents, List.getElem?_append_left (by rw [List.length_map]; exact hid), List.getElem?_map,
    hitems]
  rfl

theorem contents_pool (h : p.Lowered o pool code) (address : SectionId → Nat → UInt64) {offset : Nat}
    {x : Double} (hx : pool.Holds offset x) :
    (contents pool code address)[p.functions.length]? = some pool.bytes.toList := by
  have hlen : (code.map fun items => encoded (Machine.resolved address items)).length =
      p.functions.length := by rw [List.length_map, h.length_code]
  rw [contents, List.getElem?_append_right (Nat.le_of_eq hlen), hlen, Nat.sub_self, hx.isEmpty]
  rfl

theorem sizeOf_le_word (h : p.Lowered o pool code) {items : List Item} (hmem : items ∈ code) :
    Codegen.sizeOf items ≤ wordMax :=
  Nat.le_trans (h.functions.sizeOf_le hmem) (by decide)

theorem holding_load (h : p.Lowered o pool code) (bases : Bases) :
    ∃ image, Image.load bases o.sections o.links = .ok image ∧
      Holding bases o.sections (contents pool code (addressOf bases o.sections)) image := by
  have hcopied := @holding_copy bases o.sections [] o.sections _ rfl
    (holding_allocate bases o.sections ((allocate bases (layout o.sections).2).map fun r =>
      LoadStep.allocate r.rights ((layout o.sections).2 r.rights)))
  have hsections : o.sections.map (·.data.toList) =
      [] ++ (code.map bytesOf ++ if pool.values.isEmpty then [] else [pool.bytes.toList]) := by
    rw [h.sections, List.map_append, List.map_map, List.nil_append]
    congr 1
    split <;> rfl
  rw [hsections] at hcopied
  obtain ⟨image, hresolve, hholding⟩ :=
    hcopied.resolveFunctions fun items hmem => ⟨h.allLinks hmem, h.sizeOf_le_word hmem⟩
  refine ⟨image.protect, ?_, hholding.protect⟩
  rw [Image.load, h.links]
  exact congrArg (· >>= fun image => pure image.protect) hresolve

theorem ofAddress?_eq_none (h : p.Lowered o pool code) (hsuit : bases.Suit o.sections) {id : Nat}
    {items : List Item} (hitems : code[id]? = some items) :
    HostFunction.ofAddress? (addressOf bases o.sections id 0) = none := by
  obtain ⟨start, hp, -⟩ := layout_getElem (h.section_code hitems)
  obtain ⟨haddress, hin⟩ :=
    toNat_addressOf hsuit (h.section_code hitems) hp (h.sizeOf_pos hitems)
  cases hfind : HostFunction.ofAddress? (addressOf bases o.sections id 0) with
  | none => rfl
  | some f =>
    have hf : f.address = addressOf bases o.sections id 0 := by
      simpa using List.find?_some hfind
    have hapart := hsuit.apart f
    rw [hf, haddress] at hapart
    have hrights : (sectionOf items).rights = .executable := rfl
    rw [hrights] at hapart hin
    omega

theorem entryAddress_code (h : p.Lowered o pool code) {image : Image} {held : List (List UInt8)}
    (hheld : Holding bases o.sections held image) {id : Nat} {items : List Item}
    (hitems : code[id]? = some items) :
    ∃ address, image.entryAddress id 0 = .ok address ∧
      address.toUInt64 = addressOf bases o.sections id 0 := by
  obtain ⟨start, hp, -⟩ := layout_getElem (h.section_code hitems)
  obtain ⟨n, hn, hword⟩ := hheld.laid.address ⟨_, h.section_code hitems, h.sizeOf_pos hitems⟩
  refine ⟨n, ?_, hword⟩
  rw [Image.entryAddress, hheld.placements, hp, hn]
  rfl

theorem load (h : p.Lowered o pool code) (hsuit : bases.Suit o.sections) :
    ∃ image, Image.load bases o.sections o.links = .ok image ∧
      Machine.Loaded p pool code image (addressOf bases o.sections) ∧
      ∀ id items, code[id]? = some items → ∃ address, image.entryAddress id 0 = .ok address ∧
        address.toUInt64 = addressOf bases o.sections id 0 := by
  obtain ⟨image, hload, hheld⟩ := h.holding_load bases
  refine ⟨image, hload, ⟨?functions, ?constants, ?own⟩, fun _ _ => h.entryAddress_code hheld⟩
  case functions =>
    intro id items hitems
    have hcode := contents_code pool (addressOf bases o.sections) hitems
    rw [← List.append_nil (encoded _), ← List.nil_append (encoded _ ++ [])] at hcode
    exact hheld.at hsuit (h.section_code hitems) rfl hcode
  case constants =>
    intro offset x hx
    obtain ⟨before, after, hbytes, rfl⟩ := hx.bytes
    have hpool := h.contents_pool (addressOf bases o.sections) hx
    rw [hbytes] at hpool
    exact hheld.loadDouble hsuit (h.section_pool hx) rfl hpool
  case own => exact fun _ _ => h.ofAddress?_eq_none hsuit

end Program.Lowered
end ScalarJit
