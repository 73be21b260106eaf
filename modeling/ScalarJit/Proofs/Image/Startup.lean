import ScalarJit.Execution
import ScalarJit.Proofs.Codegen.Sections

/-! # What is compiled starts

Links of compiled programs lie in their sections, and every function has a section to enter. So loading
never fails, wherever the host puts the pages, and a run has a fault to report only before the entry is
called, when nothing has reached the host yet. -/

namespace ScalarJit

open Codegen (Item Pool bytesOf linksOf sectionOf)

/-- The eight bytes of a link lie in a section, and it leads into a section. -/
structure Link.InPlace (sections : List Section) (l : Link) : Prop where
  slot : ∃ s, sections[l.pointerSection]? = some s ∧ l.pointerOffset + 8 ≤ s.data.size
  pointee : ∃ s, sections[l.pointeeSection]? = some s ∧ l.pointeeOffset < s.data.size

theorem Link.InPlace.fits {sections : List Section} {l : Link} (h : l.InPlace sections) :
    l.Fits sections := by
  obtain ⟨t, ht, hpointee⟩ := h.pointee
  exact ⟨h.slot, t, ht, Nat.le_of_lt hpointee, t, List.mem_of_getElem? ht, rfl, by omega⟩

/-! ### Loading -/

namespace Image

variable {bases : Bases} {sections : List Section} {image : Image}

theorem load_of_inPlace (bases : Bases) {sections : List Section} {links : List Link}
    (h : ∀ l ∈ links, l.InPlace sections) (hwords : ∀ l ∈ links, l.pointerOffset + 8 ≤ wordMax) :
    ∃ image, Image.load bases sections links = .ok image ∧ Laid bases sections image := by
  have hcopied := @holding_copy bases sections [] sections _ rfl
    (holding_allocate bases sections ((allocate bases (layout sections).2).map fun r =>
      LoadStep.allocate r.rights ((layout sections).2 r.rights)))
  obtain ⟨image, himage, hlaid⟩ := hcopied.laid.resolveLinks_fits fun l hl =>
    ⟨(h l hl).fits, fun hover => Nat.not_lt.2 (hwords l hl) hover.2⟩
  refine ⟨image.protect, ?_, ⟨hlaid.placements, hlaid.shape⟩⟩
  rw [Image.load]
  exact congrArg (· >>= fun image => pure image.protect) himage

theorem Laid.entryAddress (h : Laid bases sections image) {id : SectionId} {s : Section}
    (hs : sections[id]? = some s) (hrights : s.rights = .executable) (hsize : 0 < s.data.size) :
    ∃ address, image.entryAddress id 0 = .ok address := by
  obtain ⟨start, hp, -⟩ := layout_getElem hs
  obtain ⟨address, haddress, -⟩ := h.address ⟨s, hs, hsize⟩
  rw [hrights] at hp
  refine ⟨address, ?_⟩
  rw [Image.entryAddress, h.placements, hp, haddress]
  rfl

end Image

/-! ### Programs -/

/-- What a program has to bring to be loaded and started. -/
structure Object.Starts (o : Object) (p : Program) : Prop where
  links : ∀ l ∈ o.links, l.InPlace o.sections
  /-- The functions of the program have an entry each. -/
  names : (o.entries.map (·.1)).Perm (p.functions.map (·.1))
  nodup : (o.entries.map (·.1)).Nodup
  /-- No two functions share a section. -/
  apart : (o.entries.map (·.2)).Nodup
  code : ∀ entry ∈ o.entries, ∃ s, o.sections[entry.2]? = some s ∧ s.rights = .executable ∧
    0 < s.data.size

theorem map_fst_numbered {α : Type} (entries : List (Named α)) (start : Nat) :
    (numbered entries start).map (·.1) = entries.map (·.1) := by
  induction entries generalizing start with
  | nil => rfl
  | cons entry rest ih => exact congrArg (entry.1 :: ·) (ih (start + 1))

theorem map_snd_numbered {α : Type} (entries : List (Named α)) (start : Nat) :
    (numbered entries start).map (·.2) = List.range' start entries.length := by
  induction entries generalizing start with
  | nil => rfl
  | cons entry rest ih => exact congrArg (start :: ·) (ih (start + 1))

namespace Program

variable [HostAddresses]

theorem Lowered.starts {p : Program} {o : Object} {pool : Pool} {code : List (List Item)}
    (h : p.Lowered o pool code) (hp : p.Ordered) : o.Starts p := by
  have hentries : o.entries = numbered (Named.sort p.functions) 0 := h.entries
  have hnames : (o.entries.map (·.1)).Perm (p.functions.map (·.1)) := by
    rw [hentries, map_fst_numbered]
    exact (Named.sort_perm p.functions).map _
  have hids : o.entries.map (·.2) = List.range' 0 code.length := by
    rw [hentries, map_snd_numbered, h.functions.length_eq]
  refine ⟨?_, hnames, hnames.nodup_iff.2 (List.nodup_append.1 hp.names).1, ?_, ?_⟩
  · intro l hl
    rw [h.links] at hl
    obtain ⟨n, items, hitems, hmem⟩ := Codegen.mem_linksFrom hl
    obtain ⟨index, target, offset, hitem, rfl⟩ := Codegen.mem_linksOf.1 hmem
    rw [Nat.zero_add, Nat.zero_add]
    refine ⟨⟨_, h.section_code hitems, (Codegen.zeros_of_linked hitem).1⟩, ?_⟩
    exact h.allLinks (List.mem_of_getElem? hitems) target offset (List.mem_of_getElem? hitem)
  · rw [hids]
    exact List.nodup_range'
  · intro entry hentry
    have hid : entry.2 ∈ o.entries.map (·.2) := List.mem_map.2 ⟨entry, hentry, rfl⟩
    rw [hids, List.mem_range'_1, Nat.zero_add] at hid
    have hitems := List.getElem?_eq_getElem hid.2
    exact ⟨_, h.section_code hitems, rfl, h.sizeOf_pos hitems⟩

/-- Code is too short for the end of a slot to be no word. -/
theorem Lowered.words {p : Program} {o : Object} {pool : Pool} {code : List (List Item)}
    (h : p.Lowered o pool code) : ∀ l ∈ o.links, l.pointerOffset + 8 ≤ wordMax := by
  intro l hl
  rw [h.links] at hl
  obtain ⟨n, items, hitems, hmem⟩ := Codegen.mem_linksFrom hl
  obtain ⟨index, target, offset, hitem, rfl⟩ := Codegen.mem_linksOf.1 hmem
  have hslot := (Codegen.zeros_of_linked hitem).1
  have hsize : (bytesOf items).length ≤ wordMax := h.sizeOf_le_word (List.mem_of_getElem? hitems)
  dsimp only
  omega

theorem starts_compile {source : List Char} (hlen : source.length < sourceLimit) {o : Object}
    (hcompile : (Program.parse source).compile = .ok o) :
    o.Starts (Program.parse source) ∧ ∀ l ∈ o.links, l.pointerOffset + 8 ≤ wordMax := by
  have hanswers := answers_compile_parse hlen (errorCount_of_compile hcompile)
  rw [hcompile] at hanswers
  obtain ⟨pool, code, h⟩ := hanswers
  exact ⟨h.starts (ordered_parse source), h.words⟩

end Program

theorem Object.Starts.load {o : Object} {p : Program} (h : o.Starts p)
    (hwords : ∀ l ∈ o.links, l.pointerOffset + 8 ≤ wordMax) (bases : Bases) : ∃ image, Image.load bases o.sections o.links = .ok image ∧
      ∀ entry ∈ o.entries, ∃ address, image.entryAddress entry.2 0 = .ok address := by
  obtain ⟨image, hload, hlaid⟩ := Image.load_of_inPlace bases h.links hwords
  refine ⟨image, hload, fun entry hentry => ?_⟩
  obtain ⟨s, hs, hrights, hsize⟩ := h.code entry hentry
  exact hlaid.entryAddress hs hrights hsize

theorem Object.Starts.entry {o : Object} {p : Program} (h : o.Starts p) {name : String} {f : Function}
    (hf : p.function? name = some f) : ∃ id, o.entry? name = some id ∧ (name, id) ∈ o.entries := by
  have hname : name ∈ o.entries.map (·.1) := by
    rw [h.names.mem_iff]
    exact List.mem_map.2 ⟨(name, f), mem_of_lookup hf, rfl⟩
  obtain ⟨⟨_, id⟩, hentry, rfl⟩ := List.mem_map.1 hname
  exact ⟨id, lookup_of_mem h.nodup hentry, hentry⟩

/-! ### Runs -/

theorem answers_prepare [HostAddresses] {source : List Char} (hlen : source.length < sourceLimit)
    (entry : String) :
    Codegen.Answers (prepare source entry) (fun e => ∃ address, e.entryAddress entry = .ok address)
      fun fault => ∀ f, fault ≠ .load f := by
  have hsource : Codegen.Answers (Program.ofSource source) (· = Program.parse source)
      fun fault => ∀ f, fault ≠ .load f := by
    rw [Program.ofSource]
    split
    · rfl
    · intro f hf
      cases hf
  refine Codegen.answers_bind.2 (hsource.mono ?_ fun _ h => h)
  rintro p rfl
  have hcheck : Codegen.Answers ((Program.parse source).checkEntry entry)
      (fun _ => ∃ f, (Program.parse source).function? entry = some f)
      fun fault => ∀ f, fault ≠ .load f := by
    rw [Program.checkEntry]
    split
    · intro f hf
      cases hf
    · next f hf =>
      split
      · exact ⟨f, hf⟩
      · intro f hf
        cases hf
  refine Codegen.answers_bind.2 (hcheck.mono ?_ fun _ h => h)
  rintro _ ⟨f, hf⟩
  rw [Executable.ofProgram]
  split
  · next o ho =>
    obtain ⟨hstarts, hwords⟩ := Program.starts_compile hlen ho
    obtain ⟨id, hid, hmem⟩ := hstarts.entry hf
    obtain ⟨image, hload, hentries⟩ := hstarts.load hwords .standard
    obtain ⟨address, haddress⟩ := hentries _ hmem
    rw [Executable.ofObject, hload]
    refine ⟨address.toUInt64, ?_⟩
    rw [Executable.entryAddress, hid]
    dsimp only
    rw [haddress]
  · intro f hf
    cases hf

/-- The faults of a machine that stops or goes on for too long: then there is no answer to a call. -/
def RunFault.ofMachine : RunFault → Bool
  | .machine _ => true
  | .outOfFuel => true
  | _ => false

/-- A source that is compiled can be loaded and started: its links lie in its sections, each function
has an entry of its own, and wherever the host puts the pages, loading succeeds and every entry has an
address. So a run has no fault of the loader to report, and one that has a fault to report has left the
host alone. -/
theorem run_starts [HostAddresses] (source : List Char) (hlen : source.length < sourceLimit) :
    (∀ o, (Program.parse source).compile = .ok o → o.Starts (Program.parse source) ∧
      ∀ bases, ∃ image, Image.load bases o.sections o.links = .ok image ∧
        ∀ name id, o.entry? name = some id → ∃ address, image.entryAddress id 0 = .ok address) ∧
    ∀ (entry : String) (σ : Type) (host : Host σ) (residue : σ → Residue) (fuel : Nat) (s t : σ)
      (fault : RunFault), run host residue fuel source entry s = (.error fault, t) →
        (∀ f, fault ≠ .load f) ∧ (fault.ofMachine = false → t = s) := by
  refine ⟨fun o ho => ?_, ?_⟩
  · obtain ⟨hstarts, hwords⟩ := Program.starts_compile hlen ho
    refine ⟨hstarts, fun bases => ?_⟩
    obtain ⟨image, hload, hentries⟩ := hstarts.load hwords bases
    exact ⟨image, hload, fun name id hid => hentries _ (mem_of_lookup hid)⟩
  · intro entry σ host residue fuel s t fault hrun
    have hprepare := answers_prepare hlen entry
    cases hp : prepare source entry with
    | error f =>
      rw [run_of_prepare_error hp] at hrun
      cases hrun
      rw [hp] at hprepare
      exact ⟨hprepare, fun _ => rfl⟩
    | ok e =>
      rw [hp] at hprepare
      obtain ⟨address, haddress⟩ := hprepare
      rw [run, hp] at hrun
      dsimp only at hrun
      rw [Executable.call, haddress] at hrun
      dsimp only at hrun
      split at hrun
      · cases hrun
      · cases hrun
        exact ⟨fun f hf => (by cases hf), fun hbad => (by cases hbad)⟩
      · cases hrun
        exact ⟨fun f hf => (by cases hf), fun hbad => (by cases hbad)⟩

open scoped HostAddresses in
theorem run_starts_printsTwo :
    (∃ o, (Program.parse Program.printsTwo).compile = .ok o ∧
      o.Starts (Program.parse Program.printsTwo) ∧ o.links.length = 1) ∧
    ∃ fault t, run Console.call (fun _ => .nans) 0 Program.printsTwo "g" (.fresh [] none) =
        (.error fault, t) ∧ (∀ f, fault ≠ .load f) ∧ t = .fresh [] none := by
  have hlen : Program.printsTwo.length < sourceLimit := by decide +kernel
  obtain ⟨hcompiled, hruns⟩ := run_starts Program.printsTwo hlen
  constructor
  · have hlinks : ((Program.parse Program.printsTwo).compile.toOption.any fun o =>
        o.links.length == 1) = true := by decide +kernel
    obtain ⟨o, hc, hone⟩ := exists_ok_of_any hlinks
    exact ⟨o, hc, (hcompiled o hc).1, beq_iff_eq.1 hone⟩
  · have hnone : Except.rec (motive := fun _ => Bool) (fun fault => !fault.ofMachine) (fun _ => false)
        (prepare Program.printsTwo "g") = true := by decide +kernel
    cases hp : prepare Program.printsTwo "g" with
    | ok e =>
      rw [hp] at hnone
      cases hnone
    | error fault =>
      rw [hp] at hnone
      have hrun := @run_of_prepare_error _ _ Console.call (fun _ => .nans) 0 _ _ _ hp (.fresh [] none)
      obtain ⟨hload, hstate⟩ := hruns "g" _ _ _ _ _ _ _ hrun
      exact ⟨fault, _, hrun, hload, hstate (by simpa using hnone)⟩

end ScalarJit
