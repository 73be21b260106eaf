import ScalarJit.Image.Load

/-! # Memory of loaded sections

Sections of one class do not overlap, so that what is written to a section leaves the others alone.
`Holding` says which bytes the sections have in memory at some point of loading. -/

namespace ScalarJit

theorem Bytes.getElem?_overwrite (buffer : Array UInt8) (start : Nat) (bytes : List UInt8) (i : Nat) :
    (overwrite buffer start bytes)[i]? =
      if start ≤ i ∧ i < start + bytes.length ∧ i < buffer.size then bytes[i - start]?
      else buffer[i]? := by
  induction bytes generalizing buffer start with
  | nil =>
    rw [overwrite, if_neg]
    simp only [List.length_nil]
    omega
  | cons b rest ih =>
    rw [overwrite, ih, Array.size_setIfInBounds, List.length_cons]
    by_cases hstart : i = start
    · subst hstart
      rw [if_neg (by omega), Array.getElem?_setIfInBounds]
      by_cases hi : i < buffer.size
      · rw [if_pos rfl, if_pos hi, if_pos ⟨Nat.le_refl i, by omega, hi⟩, Nat.sub_self]
        rfl
      · rw [if_pos rfl, if_neg hi, if_neg (by omega), Array.getElem?_eq_none (Nat.le_of_not_lt hi)]
    · rw [Array.getElem?_setIfInBounds_ne (Ne.symm hstart)]
      by_cases hin : start + 1 ≤ i ∧ i < start + 1 + rest.length ∧ i < buffer.size
      · have hsub : i - start = i - (start + 1) + 1 := by omega
        rw [if_pos hin, if_pos (by omega), hsub, List.getElem?_cons_succ]
      · rw [if_neg hin, if_neg (by omega)]

namespace Image

/-! ### Placement -/

theorem le_place (used : Rights → Nat) (sections : List Section) (r : Rights) :
    used r ≤ (place used sections).2 r := by
  induction sections generalizing used with
  | nil => exact Nat.le_refl _
  | cons s rest ih =>
    refine Nat.le_trans ?_ (ih fun r => if r = s.rights then roundUp 16 (used s.rights) + s.data.size
      else used r)
    split
    · next hr =>
      have h16 := le_roundUp (show 0 < 16 by decide) (used s.rights)
      rw [hr]
      omega
    · exact Nat.le_refl _

theorem place_getElem {used : Rights → Nat} {sections : List Section} {id : Nat} {s : Section}
    (h : sections[id]? = some s) :
    ∃ offset, (place used sections).1[id]? = some ⟨s.rights, offset⟩ ∧ used s.rights ≤ offset ∧
      offset + s.data.size ≤ (place used sections).2 s.rights := by
  induction sections generalizing used id with
  | nil => cases h
  | cons t rest ih =>
    have h16 := le_roundUp (show 0 < 16 by decide) (used t.rights)
    cases id with
    | zero =>
      cases h
      refine ⟨roundUp 16 (used s.rights), rfl, h16, ?_⟩
      have hle := le_place (fun r => if r = s.rights then roundUp 16 (used s.rights) + s.data.size
        else used r) rest s.rights
      rwa [if_pos rfl] at hle
    | succ id =>
      obtain ⟨offset, hplace, hused, hfinal⟩ := @ih (fun r => if r = t.rights then
        roundUp 16 (used t.rights) + t.data.size else used r) id h
      refine ⟨offset, hplace, Nat.le_trans ?_ hused, hfinal⟩
      split
      · next hr =>
        rw [hr]
        omega
      · exact Nat.le_refl _

theorem place_apart {used : Rights → Nat} {sections : List Section} {i j : Nat} {s t : Section}
    {ps pt : Placement} (hij : i < j) (hi : sections[i]? = some s) (hj : sections[j]? = some t)
    (hr : s.rights = t.rights) (hps : (place used sections).1[i]? = some ps)
    (hpt : (place used sections).1[j]? = some pt) : ps.offset + s.data.size ≤ pt.offset := by
  induction sections generalizing used i j with
  | nil => cases hi
  | cons u rest ih =>
    obtain ⟨j, rfl⟩ : ∃ k, j = k + 1 := ⟨j - 1, by omega⟩
    cases i with
    | succ i => exact ih (Nat.lt_of_succ_lt_succ hij) hi hj hps hpt
    | zero =>
      cases hi
      cases hps
      obtain ⟨offset, hplace, hused, -⟩ := @place_getElem (fun r => if r = s.rights then
        roundUp 16 (used s.rights) + s.data.size else used r) rest j t hj
      rw [if_pos hr.symm] at hused
      have hpt : (place (fun r => if r = s.rights then roundUp 16 (used s.rights) + s.data.size
        else used r) rest).1[j]? = some pt := hpt
      rw [hplace, Option.some_inj] at hpt
      rw [← hpt]
      exact hused

theorem layout_getElem {sections : List Section} {id : Nat} {s : Section}
    (h : sections[id]? = some s) : ∃ offset, (layout sections).1[id]? = some ⟨s.rights, offset⟩ ∧
      offset + s.data.size ≤ (layout sections).2 s.rights := by
  obtain ⟨offset, hplace, -, hfinal⟩ := @place_getElem (fun _ => 0) sections id s h
  exact ⟨offset, hplace, hfinal⟩

theorem layout_apart {sections : List Section} {i j : Nat} {s t : Section} {ps pt : Placement}
    (hij : i ≠ j) (hi : sections[i]? = some s) (hj : sections[j]? = some t)
    (hps : (layout sections).1[i]? = some ps) (hpt : (layout sections).1[j]? = some pt) :
    ps.rights ≠ pt.rights ∨ ps.offset + s.data.size ≤ pt.offset ∨
      pt.offset + t.data.size ≤ ps.offset := by
  obtain ⟨_, hs, -⟩ := layout_getElem hi
  obtain ⟨_, ht, -⟩ := layout_getElem hj
  have hsr : s.rights = ps.rights := by rw [hps, Option.some_inj] at hs; rw [hs]
  have htr : t.rights = pt.rights := by rw [hpt, Option.some_inj] at ht; rw [ht]
  by_cases hr : ps.rights = pt.rights
  · refine .inr ?_
    rcases Nat.lt_or_gt_of_ne hij with hlt | hgt
    · exact .inl (place_apart hlt hi hj (by rw [hsr, htr, hr]) hps hpt)
    · exact .inr (place_apart hgt hj hi (by rw [hsr, htr, hr]) hpt hps)
  · exact .inl hr

/-! ### Bytes -/

def byte? (image : Image) (rights : Rights) (i : Nat) : Option UInt8 :=
  (image.region? rights).bind (·.bytes[i]?)

theorem rights_of_region? {image : Image} {r : Rights} {g : Region} (h : image.region? r = some g) :
    g.rights = r := by
  simpa using List.find?_some h

theorem region?_write (image : Image) (rights : Rights) (offset : Nat) (bytes : List UInt8)
    (r : Rights) : (image.write rights offset bytes).region? r = (image.region? r).map fun g =>
      if g.rights = rights then { g with bytes := Bytes.overwrite g.bytes offset bytes } else g := by
  have hsame : ((fun g : Region => g.rights == r) ∘ fun g : Region =>
      if g.rights = rights then { g with bytes := Bytes.overwrite g.bytes offset bytes } else g) =
        fun g => g.rights == r := by
    funext g
    simp only [Function.comp_apply]
    split <;> rfl
  rw [region?, region?, write, List.find?_map, hsame]

theorem byte?_write_other {image : Image} {rights r : Rights} {offset i : Nat} {bytes : List UInt8}
    (h : r ≠ rights ∨ i < offset ∨ offset + bytes.length ≤ i) :
    (image.write rights offset bytes).byte? r i = image.byte? r i := by
  rw [byte?, byte?, region?_write]
  cases hg : image.region? r with
  | none => rfl
  | some g =>
    have hr := rights_of_region? hg
    simp only [Option.map_some, Option.bind_some]
    split
    · next heq =>
      rw [Bytes.getElem?_overwrite, if_neg]
      rintro ⟨hge, hlt, -⟩
      rcases h with hne | hlo | hhi
      · exact hne (hr.symm.trans heq)
      · omega
      · omega
    · rfl

theorem byte?_write_self {image : Image} {rights : Rights} {offset i : Nat} {bytes : List UInt8}
    {old x : UInt8} (hold : image.byte? rights (offset + i) = some old) (hx : bytes[i]? = some x) :
    (image.write rights offset bytes).byte? rights (offset + i) = some x := by
  obtain ⟨g, hg, hget⟩ := Option.bind_eq_some_iff.1 hold
  have hlt : i < bytes.length := (List.getElem?_eq_some_iff.1 hx).1
  have hin : offset + i < g.bytes.size := (Array.getElem?_eq_some_iff.1 hget).1
  rw [byte?, region?_write, hg]
  simp only [Option.map_some, Option.bind_some]
  rw [if_pos (rights_of_region? hg), Bytes.getElem?_overwrite, if_pos ⟨by omega, by omega, hin⟩,
    Nat.add_sub_cancel_left, hx]

/-! ### Sections in memory -/

def outline (g : Region) : Rights × Nat × Nat := (g.rights, g.base, g.bytes.size)

theorem find?_outline (regions : List Region) (r : Rights) :
    (regions.map outline).find? (·.1 == r) = (regions.find? (·.rights == r)).map outline :=
  List.find?_map ..

theorem outline_write (image : Image) (rights : Rights) (offset : Nat) (bytes : List UInt8) :
    (image.write rights offset bytes).regions.map outline = image.regions.map outline := by
  rw [write, List.map_map]
  apply List.map_congr_left
  intro g _
  simp only [Function.comp_apply, outline]
  split
  · rw [Bytes.size_overwrite]
  · rfl

theorem find?_allocate (bases : Bases) (sizes : Rights → Nat) {r : Rights} (h : 0 < sizes r) :
    (allocate bases sizes).find? (·.rights == r) =
      some ⟨r, bases r, Array.replicate (roundUp pageSize (sizes r)) 0⟩ := by
  have hfind : (Rights.all.filter fun r => 0 < sizes r).find? (· == r) = some r := by
    rw [List.find?_filter]
    cases r <;> simp [Rights.all, h]
  rw [allocate, List.find?_map]
  have hsame : ((fun g : Region => g.rights == r) ∘ fun r : Rights =>
      (⟨r, bases r, Array.replicate (roundUp pageSize (sizes r)) 0⟩ : Region)) = (· == r) := rfl
  rw [hsame, hfind]
  rfl

/-- Sections have their places in memory. -/
structure Laid (bases : Bases) (sections : List Section) (image : Image) : Prop where
  placements : image.placements = (layout sections).1
  shape : image.regions.map outline = (allocate bases (layout sections).2).map outline

theorem Laid.region {bases : Bases} {sections : List Section} {image : Image}
    (h : Laid bases sections image) {r : Rights} (hr : 0 < (layout sections).2 r) :
    ∃ g, image.region? r = some g ∧ g.base = bases r ∧
      g.bytes.size = roundUp pageSize ((layout sections).2 r) := by
  have hfind := find?_outline image.regions r
  rw [h.shape, find?_outline, find?_allocate bases _ hr] at hfind
  obtain ⟨g, hg, houtline⟩ := Option.map_eq_some_iff.1 hfind.symm
  simp only [outline, Prod.mk.injEq, Array.size_replicate] at houtline
  exact ⟨g, hg, houtline.2.1, houtline.2.2⟩

/-- The sections are in memory with the given bytes. -/
structure Holding (bases : Bases) (sections : List Section) (contents : List (List UInt8))
    (image : Image) : Prop where
  placements : image.placements = (layout sections).1
  shape : image.regions.map outline = (allocate bases (layout sections).2).map outline
  lengths : contents.map List.length = sections.map (·.data.size)
  bytes : ∀ (id : Nat) (content : List UInt8) (p : Placement), contents[id]? = some content →
    (layout sections).1[id]? = some p →
      ∀ (i : Nat) (x : UInt8), content[i]? = some x → image.byte? p.rights (p.offset + i) = some x

namespace Holding

variable {bases : Bases} {sections : List Section} {contents : List (List UInt8)} {image : Image}

theorem laid (h : Holding bases sections contents image) : Laid bases sections image :=
  ⟨h.placements, h.shape⟩

theorem note (h : Holding bases sections contents image) (step : LoadStep) :
    Holding bases sections contents (image.note step) := ⟨h.placements, h.shape, h.lengths, h.bytes⟩

theorem protect (h : Holding bases sections contents image) :
    Holding bases sections contents image.protect := ⟨h.placements, h.shape, h.lengths, h.bytes⟩

theorem section_of_content (h : Holding bases sections contents image) {id : Nat} {c : List UInt8}
    (hc : contents[id]? = some c) : ∃ s, sections[id]? = some s ∧ s.data.size = c.length := by
  have hlength : (sections.map (·.data.size))[id]? = some c.length := by
    rw [← h.lengths, List.getElem?_map, hc]
    rfl
  rw [List.getElem?_map] at hlength
  exact Option.map_eq_some_iff.1 hlength

theorem write (h : Holding bases sections contents image) {id : Nat} {p : Placement}
    {before old new after : List UInt8} (hp : (layout sections).1[id]? = some p)
    (hc : contents[id]? = some (before ++ (old ++ after))) (hnew : new.length = old.length) :
    Holding bases sections (contents.set id (before ++ (new ++ after)))
      (image.write p.rights (p.offset + before.length) new) := by
  have hid : id < contents.length := (List.getElem?_eq_some_iff.1 hc).1
  obtain ⟨s, hs, hsize⟩ := h.section_of_content hc
  rw [List.length_append, List.length_append] at hsize
  refine ⟨h.placements, (outline_write ..).trans h.shape, ?_, ?_⟩
  · rw [List.map_set, ← h.lengths]
    apply List.ext_getElem?
    intro i
    rw [List.getElem?_set, List.getElem?_map]
    split
    · next heq =>
      subst heq
      rw [if_pos (by rw [List.length_map]; exact hid), hc]
      simp [hnew]
    · rfl
  · intro j c q hj hq i x hx
    rw [List.getElem?_set] at hj
    split at hj
    · next heq =>
      subst heq
      rw [Option.some_inj] at hj
      subst hj
      rw [hp, Option.some_inj] at hq
      subst hq
      -- Only the bytes between `before` and `after` change.
      by_cases hlo : i < before.length
      · rw [byte?_write_other (.inr (.inl (by omega)))]
        rw [List.getElem?_append_left hlo] at hx
        exact h.bytes id _ p hc hp i x (by rw [List.getElem?_append_left hlo, hx])
      rw [List.getElem?_append_right (Nat.le_of_not_lt hlo)] at hx
      by_cases hhi : i - before.length < new.length
      · rw [List.getElem?_append_left hhi] at hx
        have hlt : i < (before ++ (old ++ after)).length := by
          rw [List.length_append, List.length_append]
          omega
        have hold := h.bytes id _ p hc hp i _ (List.getElem?_eq_getElem hlt)
        have hsum : p.offset + i = p.offset + before.length + (i - before.length) := by omega
        rw [hsum] at hold ⊢
        exact byte?_write_self hold hx
      · rw [byte?_write_other (.inr (.inr (by omega)))]
        refine h.bytes id _ p hc hp i x ?_
        rw [List.getElem?_append_right (Nat.le_of_not_lt hlo),
          List.getElem?_append_right (by omega), ← hnew,
          ← List.getElem?_append_right (Nat.le_of_not_lt hhi), hx]
    · next hne =>
      obtain ⟨t, ht, htsize⟩ := h.section_of_content hj
      have hi : i < c.length := (List.getElem?_eq_some_iff.1 hx).1
      rw [byte?_write_other, h.bytes j c q hj hq i x hx]
      rcases layout_apart hne hs ht hp hq with hrights | hle | hle
      · exact .inl (Ne.symm hrights)
      · exact .inr (.inr (by omega))
      · exact .inr (.inl (by omega))

end Holding
end Image
end ScalarJit
