import ScalarJit.Proofs.Machine.Agreement
import ScalarJit.Proofs.Machine.Frames

/-! # Stack discipline

A path through the code of a program goes through the functions that it calls, and through what they
call. It is a stack of activations: the machine is in the innermost one, and the others wait behind
their calls. As a function leaves the stack and the frame pointer as it found them, a call is one step
for its caller, and each activation keeps the rules of its own function. -/

namespace ScalarJit

open X86 (Gpr Instr)

namespace Machine

/-! ### Paths -/

/-- A function that was entered and has not returned: the machine that entered it, and the instructions
that it has carried out itself. -/
structure Frame where
  entry : Machine
  trace : List Instr
deriving DecidableEq, Repr

/-- A path from a machine that enters a function, until this function returns. It leads to a machine and
to what was entered and has not returned, the innermost frame first. A host function may answer
anything, and leave anything in the registers that are not kept for its caller. -/
inductive Path [HostAddresses] (image : Image) (first : Machine) : List Frame → Machine → Prop
  | enter : Path image first [⟨first, []⟩] first
  | own {entry m next : Machine} {trace : List Instr} {outer : List Frame} {i : Instr} {after : UInt64}
      (h : Path image first (⟨entry, trace⟩ :: outer) m) (hi : image.fetch m.pc = .ok (i, after))
      (hcall : ∀ g, i ≠ .call g) (hret : i ≠ .ret) (hstep : m.step image = .ok (.running next)) :
      Path image first (⟨entry, trace ++ [i]⟩ :: outer) next
  | call {entry m next : Machine} {trace : List Instr} {outer : List Frame} {g : Gpr} {after : UInt64}
      (h : Path image first (⟨entry, trace⟩ :: outer) m) (hi : image.fetch m.pc = .ok (.call g, after))
      (hstep : m.step image = .ok (.running next)) :
      Path image first (⟨next, []⟩ :: ⟨entry, trace ++ [.call g]⟩ :: outer) next
  | host {entry m next : Machine} {trace : List Instr} {outer : List Frame} {g : Gpr} {after : UInt64}
      {f : HostFunction} {args : List Double} (h : Path image first (⟨entry, trace⟩ :: outer) m)
      (hi : image.fetch m.pc = .ok (.call g, after)) (hstep : m.step image = .ok (.calling f args next))
      (residue : Residue) (answer : Double) :
      Path image first (⟨entry, trace ++ [.call g]⟩ :: outer) (next.resume residue answer)
  | ret {entry m next : Machine} {trace : List Instr} {caller : Frame} {outer : List Frame}
      {after : UInt64} (h : Path image first (⟨entry, trace⟩ :: caller :: outer) m)
      (hi : image.fetch m.pc = .ok (.ret, after)) (hstep : m.step image = .ok (.running next)) :
      Path image first (caller :: outer) next

section
variable {image : Image} {first entry m next : Machine} {trace : List Instr} {outer : List Frame}
  {i : Instr} {g : Gpr} {after : UInt64} [HostAddresses]

theorem step_of_fetch (hi : image.fetch m.pc = .ok (i, after)) :
    m.step image = { m with pc := after }.execute image i := by
  rw [step, hi]
  rfl

omit [HostAddresses] in
theorem gpr_pc (m : Machine) (pc : UInt64) (r : Gpr) : { m with pc := pc }.gpr r = m.gpr r := rfl

theorem step_call_cases (hi : image.fetch m.pc = .ok (.call g, after)) {event : Event}
    (hstep : m.step image = .ok event) :
    (∃ word, m.gpr g = .bits word ∧ HostFunction.ofAddress? word = none ∧
      event = .running { m with pc := word, stack := m.stack.push (some (.bits after)) }) ∨
    ∃ f args, event = .calling f args { m with pc := after } := by
  rw [step_of_fetch hi, execute, gpr_pc] at hstep
  cases hword : m.gpr g with
  | bits word =>
    rw [hword, call] at hstep
    cases hhost : HostFunction.ofAddress? word with
    | none =>
      rw [hhost] at hstep
      cases hstep
      exact .inl ⟨word, rfl, hhost, rfl⟩
    | some f =>
      rw [hhost] at hstep
      simp only [callHost] at hstep
      split at hstep
      · cases hstep
      · split at hstep
        · cases hstep
        · cases hstep
          exact .inr ⟨f, _, rfl⟩
  | stack depth =>
    rw [hword] at hstep
    cases hstep
  | exit =>
    rw [hword] at hstep
    cases hstep

theorem running_call (hi : image.fetch m.pc = .ok (.call g, after))
    (hstep : m.step image = .ok (.running next)) :
    m.gpr g = .bits next.pc ∧ HostFunction.ofAddress? next.pc = none ∧
      next.stack = m.stack.push (some (.bits after)) ∧ next.gpr .rbp = m.gpr .rbp := by
  obtain ⟨word, hword, hown, heq⟩ | ⟨f, args, heq⟩ := step_call_cases hi hstep
  · cases heq
    exact ⟨hword, hown, rfl, rfl⟩
  · cases heq

theorem calling_call {f : HostFunction} {args : List Double}
    (hi : image.fetch m.pc = .ok (.call g, after))
    (hstep : m.step image = .ok (.calling f args next)) : next = { m with pc := after } := by
  obtain ⟨word, -, -, heq⟩ | ⟨_, _, heq⟩ := step_call_cases hi hstep
  · cases heq
  · cases heq
    rfl

theorem running_ret {below : Array (Option Word)} {word : UInt64}
    (hi : image.fetch m.pc = .ok (.ret, after)) (hstep : m.step image = .ok (.running next))
    (hstack : m.stack = below.push (some (.bits word))) :
    next.pc = word ∧ next.stack = below ∧ next.gpr .rbp = m.gpr .rbp := by
  have hpop : { m with pc := after }.pop = .ok (.bits word, { m with pc := after, stack := below }) := by
    rw [pop]
    simp only [hstack]
    simp
  rw [step_of_fetch hi, execute, ret, hpop] at hstep
  cases hstep
  exact ⟨rfl, rfl, rfl⟩

/-- One step along a path, where host functions all answer the same. Stays if there is no step. -/
def advance (image : Image) (residue : Residue) (answer : Double) :
    List Frame × Machine → List Frame × Machine
  | ([], m) => ([], m)
  | (⟨entry, trace⟩ :: outer, m) =>
    match image.fetch m.pc, m.step image with
    | .ok (.call g, _), .ok (.running next) => (⟨next, []⟩ :: ⟨entry, trace ++ [.call g]⟩ :: outer, next)
    | .ok (.call g, _), .ok (.calling _ _ next) =>
      (⟨entry, trace ++ [.call g]⟩ :: outer, next.resume residue answer)
    | .ok (.ret, _), .ok (.running next) =>
      match outer with
      | [] => (⟨entry, trace⟩ :: outer, m)
      | caller :: outer => (caller :: outer, next)
    | .ok (i, _), .ok (.running next) => (⟨entry, trace ++ [i]⟩ :: outer, next)
    | _, _ => (⟨entry, trace⟩ :: outer, m)

theorem Path.advance {frames : List Frame} (h : Path image first frames m) (residue : Residue)
    (answer : Double) : Path image first (Machine.advance image residue answer (frames, m)).1
      (Machine.advance image residue answer (frames, m)).2 := by
  cases frames with
  | nil => exact h
  | cons frame outer =>
    rw [Machine.advance]
    split
    · next hi hstep => exact .call h hi hstep
    · next hi hstep => exact .host h hi hstep residue answer
    · next hi hstep =>
      split
      · exact h
      · exact .ret h hi hstep
    · next hcall hret hi hstep => exact .own h hi hcall hret hstep
    · exact h

def follow (image : Image) (residue : Residue) (answer : Double) (first : Machine)
    (n : Nat) :
    List Frame × Machine :=
  n.repeat (advance image residue answer) ([⟨first, []⟩], first)

theorem path_follow (image : Image) (residue : Residue) (answer : Double) (first : Machine) (n : Nat) :
    Path image first (follow image residue answer first n).1 (follow image residue answer first n).2 := by
  induction n with
  | zero => exact .enter
  | succ n ih => exact ih.advance residue answer

/-! ### Activations that wait -/

/-- What callers rely on: what is called is ready to be entered, and leaves the stack and the frame
pointer as they were. -/
structure Reliable (image : Image) (ready : Machine → Prop) : Prop where
  calls : ∀ entry trace m g after next, ready entry → Walk image entry trace m →
    image.fetch m.pc = .ok (.call g, after) → m.step image = .ok (.running next) → ready next
  returns : ∀ entry trace m after, ready entry → Walk image entry trace m →
    image.fetch m.pc = .ok (.ret, after) → m.stack = entry.stack ∧ m.gpr .rbp = entry.gpr .rbp

/-- The frames below one that was entered. Each has come to a call and waits for it to return. -/
inductive Suspended (image : Image) (ready : Machine → Prop) (first : Machine) :
    Machine → List Frame → Prop
  | first : Suspended image ready first first []
  | caller {entry caller m : Machine} {trace : List Instr} {outer : List Frame} {g : Gpr}
      {after : UInt64} (h : Suspended image ready first caller outer) (hready : ready caller)
      (hwalk : Walk image caller trace m) (hi : image.fetch m.pc = .ok (.call g, after))
      (hstack : entry.stack = m.stack.push (some (.bits after)))
      (hframe : entry.gpr .rbp = m.gpr .rbp) :
      Suspended image ready first entry (⟨caller, trace ++ [.call g]⟩ :: outer)

def Stacked (image : Image) (ready : Machine → Prop)
    (first m : Machine) : List Frame → Prop
  | [] => False
  | ⟨entry, trace⟩ :: outer =>
    ready entry ∧ Walk image entry trace m ∧ Suspended image ready first entry outer

theorem Path.stacked {ready : Machine → Prop} {frames : List Frame} (hreliable : Reliable image ready)
    (hfirst : ready first) (h : Path image first frames m) : Stacked image ready first m frames := by
  induction h with
  | enter => exact ⟨hfirst, .nil, .first⟩
  | own _ hi hcall hret hstep ih =>
    obtain ⟨hready, hwalk, hsuspended⟩ := ih
    exact ⟨hready, hwalk.snoc (.own hi hcall hret hstep), hsuspended⟩
  | call _ hi hstep ih =>
    obtain ⟨hready, hwalk, hsuspended⟩ := ih
    obtain ⟨-, -, hstack, hframe⟩ := running_call hi hstep
    exact ⟨hreliable.calls _ _ _ _ _ _ hready hwalk hi hstep, .nil,
      .caller hsuspended hready hwalk hi hstack hframe⟩
  | host _ hi hstep residue answer ih =>
    obtain ⟨hready, hwalk, hsuspended⟩ := ih
    obtain rfl := calling_call hi hstep
    exact ⟨hready, hwalk.snoc (.call hi rfl rfl (rbp_resume _ residue answer)), hsuspended⟩
  | ret _ hi hstep ih =>
    obtain ⟨hready, hwalk, hsuspended⟩ := ih
    obtain ⟨hstack, hframe⟩ := hreliable.returns _ _ _ _ hready hwalk hi
    -- What was pushed at the call is what is on top of the stack again.
    cases hsuspended with
    | caller hcaller hready' hwalk' hi' hstack' hframe' =>
      obtain ⟨hpc, hbelow, hkept⟩ := running_ret hi hstep (hstack.trans hstack')
      exact ⟨hready', hwalk'.snoc (.call hi' hpc hbelow (hkept.trans (hframe.trans hframe'))), hcaller⟩

theorem Suspended.eq_first {ready : Machine → Prop} (h : Suspended image ready first entry outer)
    (houter : outer = []) : entry = first := by
  cases h with
  | first => rfl
  | caller => cases houter

end
end Machine

/-! ### Functions of a program -/

def Function.SlotsApart (f : Function) : Prop :=
  ∀ rbp var v other w, declaration? f.blocks var = some v → declaration? f.blocks other = some w →
    var ≠ other → slotAt rbp v.slot + 8 ≤ slotAt rbp w.slot ∨ slotAt rbp w.slot + 8 ≤ slotAt rbp v.slot

theorem Function.slotsApart {f : Function} (h : Machine.Apart f) : f.SlotsApart := by
  intro rbp var v other w hv hw hne
  have hslots : v.slot ≠ w.slot := fun heq => hne (h var v other w hv hw heq)
  rw [slotAt, slotAt]
  omega

namespace Program

/-- A machine that enters a function of a program, with a stack pointer as behind a call. -/
structure Entered (p : Program) (o : Object) (image : Image) (bottom : Int) (name : String)
    (f : Function) (m : Machine) : Prop where
  function : p.function? name = some f
  address : ∃ id address, o.entry? name = some id ∧ image.entryAddress id 0 = .ok address ∧
    m.pc = address.toUInt64
  aligned : m.rsp bottom % 16 = 8

inductive Calls [HostAddresses] (o : Object) (address : SectionId → Nat → UInt64) : UInt64 → Prop
  | host (f : HostFunction) : Calls o address f.address
  | function {name : String} {id : SectionId} (h : o.entry? name = some id) :
      Calls o address (address id 0)

section
variable {p : Program} {o : Object} {pool : Codegen.Pool} {code : List (List Codegen.Item)}
  {image : Image} {address : SectionId → Nat → UInt64} {bottom : Int} {name : String} {f : Function}
  {first entry m : Machine} {trace : List Instr}

variable [HostAddresses]

structure Resident (p : Program) (o : Object) (pool : Codegen.Pool)
    (code : List (List Codegen.Item))
    (image : Image) (address : SectionId → Nat → UInt64) : Prop where
  ordered : p.Ordered
  lowered : p.Lowered o pool code
  loaded : Machine.Loaded p pool code image address
  entries : ∀ id items, code[id]? = some items →
    ∃ a, image.entryAddress id 0 = .ok a ∧ a.toUInt64 = address id 0

open Machine (Visit)

def visit (p : Program) (o : Object) (pool : Codegen.Pool) (image : Image)
    (address : SectionId → Nat → UInt64) (bottom : Int) (f : Function) (id : SectionId)
    (entry : Machine) : Visit :=
  ⟨image, address, ⟨f, id, p.functions.length, o.entries⟩, pool, bottom, entry, Calls o address⟩

theorem Resident.good (h : p.Resident o pool code image address)
    (hentered : p.Entered o image bottom name f entry) (hwalk : Machine.Walk image entry trace m) :
    ∃ id, (p.visit o pool image address bottom f id entry).Good trace m := by
  obtain ⟨hf, ⟨id, a, hid, ha, hpc⟩, haligned⟩ := hentered
  obtain ⟨g, items, hg, hmem, hitems, hlower⟩ := h.lowered.function_of_entry h.ordered hid
  obtain rfl : f = g := Option.some_inj.1 (hf.symm.trans hg)
  obtain ⟨b, hb, hword⟩ := h.entries id items hitems
  obtain rfl : a = b := by
    rw [ha] at hb
    cases hb
    rfl
  have hfits : (p.visit o pool image address bottom f id entry).Fits :=
    ⟨hlower.framed, haligned, fun _ _ hlookup => .function hlookup, .host⟩
  have hsafe := Visit.safe_function hfits hlower
    (fun index hindex => Codegen.declaration?_argument (h.ordered.functions _ hmem) hindex)
    (by
      rw [show (p.visit o pool image address bottom f id entry).entry.pc = _ from hpc, hword]
      exact h.loaded.functions id items hitems)
  exact ⟨id, hsafe [] rfl trace m hwalk⟩

theorem Resident.entered (h : p.Resident o pool code image address) {id : SectionId}
    (hid : o.entry? name = some id) (hpc : m.pc = address id 0) (haligned : m.rsp bottom % 16 = 8) :
    ∃ f, p.Entered o image bottom name f m := by
  obtain ⟨f, items, hf, -, hitems, -⟩ := h.lowered.function_of_entry h.ordered hid
  obtain ⟨a, ha, hword⟩ := h.entries id items hitems
  exact ⟨f, hf, ⟨id, a, hid, ha, hpc.trans hword.symm⟩, haligned⟩

theorem Resident.reliable (h : p.Resident o pool code image address) (bottom : Int) :
    Machine.Reliable image fun m => ∃ name f, p.Entered o image bottom name f m where
  calls := by
    rintro entry trace m g after next ⟨name, f, hentered⟩ hwalk hi hstep
    obtain ⟨_, hgood⟩ := h.good hentered hwalk
    obtain ⟨htarget, hown, hstack, -⟩ := Machine.running_call hi hstep
    have hzero : m.rsp bottom % 16 = 0 := hgood.disciplined.permitted _ _ hi
    have haligned : next.rsp bottom % 16 = 8 := by
      rw [Machine.rsp, Machine.depth] at hzero ⊢
      rw [hstack, Array.size_push]
      omega
    obtain ⟨word, hword, hcalls⟩ := hgood.intact _ _ hi
    rw [htarget] at hword
    cases hword
    -- Host functions are not called in this way, so another function of the program was entered.
    generalize hpc : next.pc = word at hcalls hown
    cases hcalls with
    | host f =>
      rw [HostFunction.ofAddress?_address] at hown
      cases hown
    | @function name id hid =>
      obtain ⟨f, hf⟩ := h.entered hid hpc haligned
      exact ⟨name, f, hf⟩
  returns := by
    rintro entry trace m after ⟨name, f, hentered⟩ hwalk hi
    obtain ⟨_, hgood⟩ := h.good hentered hwalk
    exact ⟨hgood.intact _ _ hi, (hgood.disciplined.permitted _ _ hi).2⟩

/-- Each activation on a path is one of a function of the program, and keeps the rules of it. -/
theorem Resident.disciplined (h : p.Resident o pool code image address)
    (hfirst : p.Entered o image bottom name f first) {frame : Machine.Frame}
    {outer : List Machine.Frame} (hpath : Machine.Path image first (frame :: outer) m) :
    (outer = [] → frame.entry = first) ∧
    (∃ name g, p.Entered o image bottom name g frame.entry) ∧
    ∀ name g, p.Entered o image bottom name g frame.entry →
      Machine.Disciplined image g bottom frame.entry frame.trace m := by
  obtain ⟨hready, hwalk, hsuspended⟩ := hpath.stacked (h.reliable bottom) ⟨name, f, hfirst⟩
  refine ⟨hsuspended.eq_first, hready, fun callee g hentered => ?_⟩
  obtain ⟨_, hgood⟩ := h.good hentered hwalk
  exact hgood.disciplined

end

/-- The code of a program, wherever it is loaded, keeps the stack in order along every path from an
entry of a function with the stack pointer eight above a multiple of sixteen. Calls find the stack
pointer at a multiple of sixteen, returns find it and the frame pointer as they were at the entry, the
frame has its size between, and every cell that is read or written lies in it and is that of one
variable, or of one register that is saved. -/
theorem stack_discipline [HostAddresses] (source : List Char) (hlen : source.length < sourceLimit)
    (o : Object)
    (hcompile : (parse source).compile = .ok o) (bases : Bases) (hsuit : bases.Suit o.sections) :
    ∃ image, Image.load bases o.sections o.links = .ok image ∧
      (∀ name f, (parse source).function? name = some f → f.SlotsApart ∧
        ∃ id address, o.entry? name = some id ∧ image.entryAddress id 0 = .ok address) ∧
      ∀ bottom name f first, (parse source).Entered o image bottom name f first →
        ∀ frame outer m, Machine.Path image first (frame :: outer) m →
          (outer = [] → frame.entry = first) ∧
          (∃ name g, (parse source).Entered o image bottom name g frame.entry) ∧
          ∀ name g, (parse source).Entered o image bottom name g frame.entry →
            Machine.Disciplined image g bottom frame.entry frame.trace m := by
  have hanswers := answers_compile_parse hlen (errorCount_of_compile hcompile)
  rw [hcompile] at hanswers
  obtain ⟨pool, code, hlowered⟩ := hanswers
  obtain ⟨image, hload, hloaded, hentries⟩ := hlowered.load hsuit
  have hresident : (parse source).Resident o pool code image (Image.addressOf bases o.sections) :=
    ⟨ordered_parse source, hlowered, hloaded, hentries⟩
  refine ⟨image, hload, fun name f hf => ?_, fun _ _ _ _ hfirst _ _ _ => hresident.disciplined hfirst⟩
  cases hid : o.entries.lookup name with
  | none =>
    rw [hlowered.function_of_no_entry hresident.ordered hid] at hf
    cases hf
  | some id =>
    obtain ⟨_, items, -, -, hitems, -⟩ := hlowered.function_of_entry hresident.ordered hid
    obtain ⟨address, haddress, -⟩ := hentries id items hitems
    have hmem := mem_of_lookup hf
    exact ⟨Function.slotsApart (Machine.apart_of_wellFormed (hresident.ordered.functions _ hmem)),
      id, address, hid, haddress⟩

def holdsValue : List Char :=
  ("func g(x: Float64) -> Float64 \x7b\n return x\n\x7d\n" ++
    "func f() -> Float64 \x7b\n return 2 + g(3)\n\x7d").toList

open scoped HostAddresses in
theorem stack_discipline_holdsValue : ∃ o image first frame outer m g,
    (parse holdsValue).compile = .ok o ∧ Image.load .standard o.sections o.links = .ok image ∧
    (parse holdsValue).function? "g" = some g ∧ Machine.Path image first (frame :: outer) m ∧
    outer ≠ [] ∧ frame.trace = g.prologue ∧
    Machine.Disciplined image g 0 frame.entry frame.trace m := by
  have hlen : holdsValue.length < sourceLimit := by decide +kernel
  have hchecks : (fun p : Program => p.compile.toOption.any fun o =>
      (Rights.all.all fun r => decide ((Image.layout o.sections).2 r ≤ 0x100000000)) &&
      (Image.load .standard o.sections o.links).toOption.any fun image =>
      (p.function? "f").any fun _ => (p.function? "g").any fun g =>
      (o.entry? "f").any fun id => (image.entryAddress id 0).toOption.any fun address =>
      (o.entry? "g").any fun id' => (image.entryAddress id' 0).toOption.any fun address' =>
      (fun frames : List Machine.Frame => frames.head?.any fun frame => frames.tail != [] &&
        frame.trace == g.prologue && frame.entry.pc == address'.toUInt64)
        (Machine.follow image .nans .one (.enter address.toUInt64 .nans) 15).1)
      (parse holdsValue) = true := by decide +kernel
  simp only [Option.any_eq_true, Bool.and_eq_true, beq_iff_eq, bne_iff_ne, List.head?_eq_some_iff]
    at hchecks
  obtain ⟨o, ho, hsizes, image, himage, f, hf, g, hg, id, hid, address, haddress, id', hid', address',
    haddress', frame, ⟨outer, hframes⟩, ⟨houter, htrace⟩, hpc⟩ := hchecks
  have hcompile := eq_ok_of_toOption ho
  have hload := eq_ok_of_toOption himage
  have hsuit : Bases.standard.Suit o.sections := by
    refine Bases.suit_standard fun r => ?_
    exact of_decide_eq_true (List.all_eq_true.1 hsizes r (by cases r <;> decide))
  obtain ⟨_, hload', -, hpaths⟩ := stack_discipline holdsValue hlen o hcompile .standard hsuit
  rw [hload] at hload'
  cases hload'
  have hpath := Machine.path_follow image .nans .one (.enter address.toUInt64 .nans) 15
  rw [hframes] at hpath houter
  obtain ⟨-, ⟨_, _, hentered⟩, hdisciplined⟩ := hpaths 0 "f" f _
    ⟨hf, ⟨id, address, hid, eq_ok_of_toOption haddress, rfl⟩, rfl⟩ _ _ _ hpath
  exact ⟨o, image, _, frame, outer, _, g, hcompile, hload, hg, hpath, houter, htrace,
    hdisciplined "g" g ⟨hg, ⟨id', address', hid', eq_ok_of_toOption haddress', hpc⟩, hentered.aligned⟩⟩

end Program
end ScalarJit
