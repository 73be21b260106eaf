import Mathlib.Data.Finset.Card
import ScalarJit.Proofs.Codegen.Sections
import ScalarJit.Proofs.Tree.Levels

/-! # The pool over a whole run

Literals are asked for while functions are generated, one function after the other, and links to them
are made long before the pool becomes a section. Values that were handed an offset keep it, and each
link leads to the literal that it was made for.

This is so whatever the functions are, also of those that no source has. Items are known of well-formed
functions only, so that the steps of the generator are gone through here for what they ask for. -/

namespace ScalarJit
namespace Codegen

/-! ### Request after request -/

namespace Pool

def internAll : Pool → List Double → List Nat × Pool
  | p, [] => ([], p)
  | p, x :: requests =>
    let (offset, p) := p.intern x
    let (offsets, p) := p.internAll requests
    (offset :: offsets, p)

section
variable {p : Pool} {x y : Double} {offset offset' : Nat} {requests : List Double}

theorem internAll_append (p : Pool) (requests later : List Double) :
    p.internAll (requests ++ later) =
      ((p.internAll requests).1 ++ ((p.internAll requests).2.internAll later).1,
        ((p.internAll requests).2.internAll later).2) := by
  induction requests generalizing p with
  | nil => rfl
  | cons x requests ih => simp [internAll, ih]

theorem length_internAll (p : Pool) (requests : List Double) :
    (p.internAll requests).1.length = requests.length := by
  induction requests generalizing p with
  | nil => rfl
  | cons x requests ih => simp [internAll, ih]

theorem extends_internAll (p : Pool) (requests : List Double) : p.Extends (p.internAll requests).2 := by
  induction requests generalizing p with
  | nil => exact .refl p
  | cons x requests ih => exact (extends_intern p x).trans (ih _)

def Distinct (p : Pool) : Prop := p.values.toList.Nodup

theorem distinct_intern (h : p.Distinct) (x : Double) : (p.intern x).2.Distinct := by
  unfold intern
  split
  · exact h
  · next hnone =>
    have hnew : x ∉ p.values := Array.idxOf?_eq_none_iff.1 hnone
    simp only [Distinct, Array.toList_push]
    refine List.nodup_append.2 ⟨h, List.nodup_singleton x, ?_⟩
    intro a ha b hb heq
    rw [List.mem_singleton.1 hb] at heq
    exact hnew (by simpa [heq] using ha)

theorem mem_intern : y ∈ (p.intern x).2.values ↔ y ∈ p.values ∨ y = x := by
  unfold intern
  split
  · next index hindex =>
    have hx : x ∈ p.values := by
      by_contra hnot
      rw [Array.idxOf?_eq_none_iff.2 hnot] at hindex
      cases hindex
    constructor
    · exact .inl
    · rintro (hy | rfl)
      · exact hy
      · exact hx
  · simp

theorem distinct_internAll (h : p.Distinct) (requests : List Double) :
    (p.internAll requests).2.Distinct := by
  induction requests generalizing p with
  | nil => exact h
  | cons x requests ih => exact ih (distinct_intern h x)

theorem mem_internAll : y ∈ (p.internAll requests).2.values ↔ y ∈ p.values ∨ y ∈ requests := by
  induction requests generalizing p with
  | nil => simp [internAll]
  | cons x requests ih => simp [internAll, ih, mem_intern, or_assoc]

theorem holds_internAll (p : Pool) (requests : List Double) :
    List.Forall₂ (fun x offset => (p.internAll requests).2.Holds offset x) requests
      (p.internAll requests).1 := by
  induction requests generalizing p with
  | nil => exact .nil
  | cons x requests ih =>
    exact .cons ((holds_intern p x).extends (extends_internAll _ requests)) (ih _)

theorem Holds.eq_iff (hp : p.Distinct) (h : p.Holds offset x) (h' : p.Holds offset' y) :
    offset = offset' ↔ x = y := by
  obtain ⟨index, rfl, hx⟩ := h
  obtain ⟨index', rfl, hy⟩ := h'
  rw [← Array.getElem?_toList] at hx hy
  constructor
  · intro heq
    obtain rfl : index = index' := by omega
    rw [hx] at hy
    exact Option.some.inj hy
  · rintro rfl
    have hlt := (List.getElem?_eq_some_iff.1 hx).1
    rw [(List.getElem?_inj hlt hp).1 (hx.trans hy.symm)]

end

/-- Bytes keep what was asked for, at the offsets that were answered: a word for each bit pattern, and
each literal its own. -/
structure Keeps (bytes : List UInt8) (requests : List Double) (offsets : List Nat) : Prop where
  size : bytes.length = 8 * (requests.map (·.bits)).toFinset.card
  each : List.Forall₂ (fun x offset => 8 ∣ offset ∧ (bytes.drop offset).take 8 = Bytes.ofWord x.bits)
    requests offsets
  shares : ∀ first ∈ requests.zip offsets, ∀ second ∈ requests.zip offsets,
    first.2 = second.2 ↔ first.1.bits = second.1.bits

theorem Holds.read {p : Pool} {x : Double} {offset : Nat} (h : p.Holds offset x) :
    8 ∣ offset ∧ (p.bytes.toList.drop offset).take 8 = Bytes.ofWord x.bits := by
  obtain ⟨before, after, hbytes, rfl⟩ := h.bytes
  obtain ⟨index, hoffset, -⟩ := h
  refine ⟨⟨index, hoffset⟩, ?_⟩
  rw [hbytes, List.drop_left, ← Bytes.length_ofWord x.bits, List.take_left]

theorem length_bytes (p : Pool) : p.bytes.toList.length = 8 * p.values.size := by
  rw [toList_bytes, List.length_flatMap]
  simp [Nat.mul_comm]

theorem bits_inj {x y : Double} : x.bits = y.bits ↔ x = y := by
  cases x
  cases y
  simp

theorem keeps_internAll (requests : List Double) :
    Keeps (empty.internAll requests).2.bytes.toList requests (empty.internAll requests).1 := by
  have hempty : empty.Distinct := List.nodup_nil
  have hdistinct := distinct_internAll hempty requests
  have hholds := holds_internAll empty requests
  refine ⟨?_, hholds.imp fun _ _ h => h.read, ?_⟩
  · have hnodup : ((empty.internAll requests).2.values.toList.map (·.bits)).Nodup :=
      hdistinct.map fun x y h => bits_inj.1 h
    have hsame : ((empty.internAll requests).2.values.toList.map (·.bits)).toFinset =
        (requests.map (·.bits)).toFinset := by
      ext bits
      simp [mem_internAll, empty]
    rw [length_bytes, ← hsame, List.toFinset_card_of_nodup hnodup, List.length_map, Array.length_toList]
  · intro first hfirst second hsecond
    have hzip : ∀ entry ∈ requests.zip (empty.internAll requests).1,
        (empty.internAll requests).2.Holds entry.2 entry.1 :=
      fun entry hentry => List.forall₂_iff_zip.1 hholds |>.2 hentry
    rw [bits_inj]
    exact (hzip first hfirst).eq_iff hdistinct (hzip second hsecond)

end Pool

/-! ### A table beside the bytes -/

/-- The pool as bytes and a table from bit patterns to offsets. -/
structure Table where
  bytes : Array UInt8
  offsets : UInt64 → Option Nat

namespace Table

def empty : Table := ⟨#[], fun _ => none⟩

def intern (t : Table) (x : Double) : Nat × Table :=
  match t.offsets x.bits with
  | some offset => (offset, t)
  | none => (t.bytes.size, ⟨t.bytes ++ (Bytes.ofWord x.bits).toArray,
      Function.update t.offsets x.bits (some t.bytes.size)⟩)

def internAll : Table → List Double → List Nat × Table
  | t, [] => ([], t)
  | t, x :: requests =>
    let (offset, t) := t.intern x
    let (offsets, t) := t.internAll requests
    (offset :: offsets, t)

/-- The bytes are those of the pool, and the table finds its values where they are. -/
structure InStep (t : Table) (p : Pool) : Prop where
  bytes : t.bytes = p.bytes
  offsets : ∀ (x : Double) (offset : Nat), t.offsets x.bits = some offset ↔ p.Holds offset x

theorem holds_push {p : Pool} {x y : Double} {offset : Nat} :
    (⟨p.values.push x⟩ : Pool).Holds offset y ↔
      p.Holds offset y ∨ offset = 8 * p.values.size ∧ y = x := by
  simp only [Pool.Holds, Array.getElem?_push]
  constructor
  · rintro ⟨index, hoffset, hy⟩
    split at hy
    · next hlast => exact .inr ⟨hlast ▸ hoffset, (Option.some.inj hy).symm⟩
    · exact .inl ⟨index, hoffset, hy⟩
  · rintro (⟨index, hoffset, hy⟩ | ⟨hoffset, rfl⟩)
    · have hlt := (Array.getElem?_eq_some_iff.1 hy).1
      exact ⟨index, hoffset, by rw [if_neg (Nat.ne_of_lt hlt), hy]⟩
    · exact ⟨p.values.size, hoffset, if_pos rfl⟩

theorem InStep.intern {t : Table} {p : Pool} (h : t.InStep p) (x : Double) :
    (t.intern x).1 = (p.intern x).1 ∧ (t.intern x).2.InStep (p.intern x).2 := by
  have hheld := p.holds_intern x
  unfold Pool.intern at hheld ⊢
  unfold Table.intern
  cases hindex : p.values.idxOf? x with
  | some index =>
    simp only [hindex] at hheld
    simp only [(h.offsets x _).2 hheld]
    exact ⟨trivial, h⟩
  | none =>
    have hnew : ∀ offset, ¬p.Holds offset x := by
      rintro offset ⟨index, -, hx⟩
      exact Array.idxOf?_eq_none_iff.1 hindex (Array.mem_of_getElem? hx)
    have hmissing : t.offsets x.bits = none := by
      rw [Option.eq_none_iff_forall_ne_some]
      exact fun offset hoffset => hnew offset ((h.offsets x offset).1 hoffset)
    have hsize : t.bytes.size = 8 * p.values.size := by
      rw [h.bytes, ← Array.length_toList, Pool.length_bytes]
    simp only [hmissing]
    refine ⟨hsize, by simp [h.bytes, Pool.bytes], fun y offset => ?_⟩
    rw [holds_push]
    by_cases hy : y = x
    · subst hy
      simp [hnew, hsize, eq_comm]
    · have hbits : y.bits ≠ x.bits := fun heq => hy (Pool.bits_inj.1 heq)
      simp [hy, hbits, h.offsets]

theorem InStep.internAll {t : Table} {p : Pool} (h : t.InStep p) (requests : List Double) :
    (t.internAll requests).1 = (p.internAll requests).1 ∧
      (t.internAll requests).2.InStep (p.internAll requests).2 := by
  induction requests generalizing t p with
  | nil => exact ⟨rfl, h⟩
  | cons x requests ih =>
    obtain ⟨hoffset, hstep⟩ := h.intern x
    obtain ⟨hoffsets, hrest⟩ := ih hstep
    exact ⟨congrArg₂ _ hoffset hoffsets, hrest⟩

theorem inStep_empty : empty.InStep .empty := by
  refine ⟨rfl, fun x offset => ?_⟩
  simp [empty, Pool.Holds, Pool.empty]

end Table

/-! ### Steps that ask for literals -/

open X86 (Assembler AsmM Xmm)

def linksTo (target : SectionId) (links : List Link) : List (SectionId × Nat) :=
  (links.filter (·.pointeeSection == target)).map fun l => (l.pointerSection, l.pointeeOffset)

/-- Between two states some literals were asked for, and each of them was linked. -/
structure Asks (ctx : Context) (s t : State) (requests : List Double) : Prop where
  pool : t.pool = (s.pool.internAll requests).2
  links : linksTo ctx.poolSection t.links.toList = linksTo ctx.poolSection s.links.toList ++
    (s.pool.internAll requests).1.map fun offset => (ctx.home, offset)

theorem Asks.refl {ctx : Context} {s t : State} (hpool : t.pool = s.pool) (hlinks : t.links = s.links) :
    Asks ctx s t [] := ⟨hpool, by simp [hlinks, Pool.internAll]⟩

theorem Asks.trans {ctx : Context} {s t u : State} {requests more : List Double}
    (h : Asks ctx s t requests) (h' : Asks ctx t u more) : Asks ctx s u (requests ++ more) := by
  refine ⟨?_, ?_⟩
  · rw [h'.pool, h.pool, Pool.internAll_append]
  · rw [h'.links, h.links, h.pool, Pool.internAll_append]
    simp

/-- A step that ends with a value asks for these literals, in this order. -/
def Requests {α : Type} (ctx : Context) (m : GenM α) (requests : List Double) : Prop :=
  ∀ s, Ends m s (fun _ t => Asks ctx s t requests) fun _ _ => True

section
variable {α β : Type} {ctx : Context} {m : GenM α} {f : α → GenM β} {requests more : List Double}

theorem Requests.bind (h : Requests ctx m requests) (next : ∀ a, Requests ctx (f a) more) :
    Requests ctx (m >>= f) (requests ++ more) := by
  intro s
  refine Ends.bind (h s) fun a t ht => ?_
  exact (next a t).mono (fun _ u hu => ht.trans hu) fun _ _ h => h

theorem Requests.andThen (h : Requests ctx m []) (next : ∀ a, Requests ctx (f a) more) :
    Requests ctx (m >>= f) more := h.bind next

theorem Requests.then (h : Requests ctx m requests) (next : ∀ a, Requests ctx (f a) []) :
    Requests ctx (m >>= f) requests := by
  have hbind := h.bind next
  rwa [List.append_nil] at hbind

theorem requests_pure (a : α) : Requests ctx (pure a) [] := fun _ => Asks.refl rfl rfl

theorem requests_fail (fault : Fault) : Requests ctx (throw fault : GenM α) requests := fun _ => trivial

theorem requests_asm (m : AsmM α) : Requests ctx (asm m) [] := by
  intro s
  rw [ends_asm, ends_iff]
  exact ⟨fun _ _ _ => Asks.refl rfl rfl, fun _ _ _ => trivial⟩

theorem requests_emit (i : X86.Instr) : Requests ctx (emit i) [] := requests_asm _

theorem requests_acquire : Requests ctx acquire [] := by
  rintro ⟨code, registers, links, pool⟩
  simp only [Ends, acquire]
  cases registers.acquire with
  | ok taken => exact Asks.refl rfl rfl
  | error fault => trivial

theorem requests_release (r : Xmm) : Requests ctx (release r) [] := by
  rintro ⟨code, registers, links, pool⟩
  simp only [Ends, release]
  cases registers.release r with
  | ok left => exact Asks.refl rfl rfl
  | error fault => trivial

theorem requests_live : Requests ctx live [] := fun _ => Asks.refl rfl rfl

theorem requests_ite {c : Prop} [Decidable c] {m' : GenM α} (h : Requests ctx m requests)
    (h' : Requests ctx m' requests) : Requests ctx (if c then m else m') requests := by
  split
  · exact h
  · exact h'

theorem requests_loadLinked {target : SectionId} (h : target ≠ ctx.poolSection) (offset : Nat) :
    Requests ctx (loadLinked ctx target offset) [] := by
  refine (requests_asm _).andThen fun place s => ?_
  rw [addLink, ends_modify]
  refine ⟨rfl, ?_⟩
  simp [linksTo, Pool.internAll, h]

theorem ends_intern {s : State} (x : Double) :
    Ends (intern x) s (fun offset t => offset = (s.pool.intern x).1 ∧ t.pool = (s.pool.intern x).2 ∧
      t.links = s.links) fun _ _ => True := by
  obtain ⟨code, registers, links, pool⟩ := s
  rw [intern, ends_modifyGet]
  exact ⟨rfl, rfl, rfl⟩

theorem ends_loadLinked_pool {s : State} (offset : Nat) :
    Ends (loadLinked ctx ctx.poolSection offset) s
      (fun _ t => t.pool = s.pool ∧ linksTo ctx.poolSection t.links.toList =
        linksTo ctx.poolSection s.links.toList ++ [(ctx.home, offset)]) fun _ _ => True := by
  rw [loadLinked, ends_bind, ends_asm, ends_iff]
  refine ⟨fun place b _ => ?_, fun _ _ _ => trivial⟩
  rw [addLink, ends_modify]
  simp [linksTo]

theorem requests_constant (x : Double) : Requests ctx (constant ctx x) [x] := by
  intro s
  refine Ends.bind (ends_intern x) fun offset t ht => ?_
  obtain ⟨rfl, hpool, hlinks⟩ := ht
  refine Ends.bind (@requests_acquire ctx t) fun r u hu => ?_
  refine Ends.bind (ends_loadLinked_pool _) fun _ v hv => ?_
  have hload : Requests ctx (do emit (.sseLoad .movSd r ⟨.rax, 0⟩); return r) [] :=
    (requests_emit _).andThen fun _ => requests_pure r
  refine (hload v).mono (fun _ w hw => ?_) fun _ _ h => h
  have hpools : w.pool = (s.pool.intern x).2 := by
    rw [hw.pool, Pool.internAll, hv.1, hu.pool, Pool.internAll, hpool]
  refine ⟨hpools, ?_⟩
  rw [hw.links, hv.2, hu.links, hlinks]
  simp [Pool.internAll]

/-! ### Values, calls and conditionals -/

theorem requests_checked (result : Except Panic α) : Requests ctx (checked result) [] := by
  cases result with
  | ok a => exact requests_pure a
  | error p => exact requests_fail _

theorem requests_slotAddress (slot : Nat) : Requests ctx (slotAddress slot) [] :=
  (requests_checked _).andThen fun _ => (requests_checked _).andThen fun _ =>
    requests_ite (requests_pure _) (requests_fail _)

theorem requests_variableAddress (var : VarRef) : Requests ctx (variableAddress ctx var) [] := by
  unfold variableAddress
  split
  · exact requests_slotAddress _
  · exact requests_fail _

theorem Requests.required {m : GenM (Option Xmm)} (h : Requests ctx m requests) :
    Requests ctx (required m) requests := by
  refine h.then fun value => ?_
  cases value with
  | none => exact requests_fail _
  | some r => exact requests_pure r

theorem requests_returnValue (value : Option Xmm) : Requests ctx (returnValue value) [] := by
  cases value with
  | none => exact requests_emit _
  | some r =>
    exact requests_ite ((requests_emit _).andThen fun _ => requests_release r) (requests_release r)

theorem requests_epilogue : Requests ctx epilogue [] :=
  (requests_emit _).andThen fun _ => (requests_emit _).andThen fun _ => requests_emit _

theorem requests_spill (index : Nat) (held : List Xmm) : Requests ctx (spill index held) [] := by
  induction held generalizing index with
  | nil => exact requests_pure _
  | cons r rest ih => exact (requests_emit _).andThen fun _ => ih (index + 1)

theorem requests_reload (index : Nat) (held : List Xmm) : Requests ctx (reload index held) [] := by
  induction held generalizing index with
  | nil => exact requests_pure _
  | cons r rest ih => exact (requests_emit _).andThen fun _ => ih (index + 1)

theorem requests_loadArguments (base count index : Nat) :
    Requests ctx (loadArguments base count index) [] := by
  induction count generalizing index with
  | zero => exact requests_pure _
  | succ count ih =>
    rw [loadArguments]
    cases Xmm.argument? index with
    | none => exact requests_fail _
    | some r => exact (requests_emit _).andThen fun _ => ih (index + 1)

theorem requests_releaseAll (held : List Xmm) : Requests ctx (releaseAll held) [] := by
  induction held with
  | nil => exact requests_pure _
  | cons r rest ih => exact ih.andThen fun _ => requests_release r

def Target.Outside (poolSection : SectionId) : Target → Prop
  | .code id => id ≠ poolSection
  | .host _ => True

theorem requests_callTarget [HostAddresses] {t : Target} (h : t.Outside ctx.poolSection) :
    Requests ctx (callTarget ctx t) [] := by
  cases t with
  | code id => exact (requests_loadLinked h 0).andThen fun _ => requests_emit _
  | host f =>
    unfold callTarget
    have haddress : Requests ctx (do emit (.moveImm .rax f.address); emit (.call .rax)) [] :=
      (requests_emit _).andThen fun _ => requests_emit _
    exact requests_ite ((requests_emit _).andThen fun _ => haddress) haddress

theorem requests_target (hsections : ∀ entry ∈ ctx.sections, entry.2 ≠ ctx.poolSection) (callee : String)
    {f : Target → GenM α} (h : ∀ t : Target, t.Outside ctx.poolSection → Requests ctx (f t) requests) :
    Requests ctx (target ctx callee >>= f) requests := by
  unfold target
  cases hid : ctx.sections.lookup callee with
  | some id =>
    simp only [pure_bind]
    exact h (.code id) (hsections _ (mem_of_lookup hid))
  | none =>
    cases Intrinsic.ofName? callee with
    | some i =>
      simp only [pure_bind]
      exact h (.host (.intrinsic i)) trivial
    | none => exact requests_fail _

theorem requests_call [HostAddresses] {t : Target} (ht : t.Outside ctx.poolSection)
    {arguments : GenM (List Xmm)}
    (h : Requests ctx arguments requests) (returns : Bool) :
    Requests ctx (call ctx t arguments returns) requests := by
  have hreload : ∀ (before area : Nat) (result : Option Xmm), Requests ctx (do
      reload 0 ((← live).take before)
      if 0 < area then asm (Assembler.freeStack area)
      return result) [] := by
    intro before area result
    refine requests_live.andThen fun held => (requests_reload _ _).andThen fun _ => ?_
    exact requests_ite ((requests_asm _).andThen fun _ => requests_pure _) (requests_pure _)
  have hresult : ∀ (before area : Nat), Requests ctx (do
      let result ←
        if returns then
          let r ← acquire
          if r ≠ Xmm.result then emit (.sse .movSd r .result)
          pure (some r)
        else pure none
      reload 0 ((← live).take before)
      if 0 < area then asm (Assembler.freeStack area)
      return result) [] := by
    intro before area
    cases returns with
    | false => exact hreload before area none
    | true =>
      refine requests_acquire.andThen fun r => ?_
      exact requests_ite ((requests_emit _).andThen fun _ => hreload before area (some r))
        (hreload before area (some r))
  unfold call
  refine requests_live.andThen fun outer => h.then fun args => requests_live.andThen fun held => ?_
  have hspill := fun area => (@requests_spill ctx 0 held).andThen fun _ =>
    (requests_loadArguments outer.length args.length 0).andThen fun _ =>
      (requests_callTarget ht).andThen fun _ => (requests_releaseAll args).andThen fun _ =>
        hresult outer.length area
  exact requests_ite ((requests_asm _).andThen fun _ => hspill _) (hspill _)

theorem requests_comparison (predicate : X86.Predicate) (swapped : Bool) (l r : Xmm) :
    Requests ctx (comparison ctx predicate swapped l r) [.one] := by
  have hone : Requests ctx (do
      release r
      let one ← constant ctx .one
      emit (.sse .andPd l one)
      release one) [.one] :=
    (requests_release r).andThen fun _ => (requests_constant _).then fun one =>
      (requests_emit _).andThen fun _ => requests_release one
  unfold comparison
  exact requests_ite ((requests_emit _).andThen fun _ => (requests_emit _).andThen fun _ => hone)
    ((requests_emit _).andThen fun _ => hone)

theorem requests_negation {m : GenM (Option Xmm)} (h : Requests ctx m requests) :
    Requests ctx (negation ctx m) (requests ++ [.negativeZero]) :=
  h.required.bind fun _ => (requests_constant _).then fun sign =>
    (requests_emit _).andThen fun _ => (requests_release sign).andThen fun _ => requests_pure _

theorem requests_storeVariable (var : VarRef) {m : GenM (Option Xmm)} (h : Requests ctx m requests) :
    Requests ctx (storeVariable ctx var m) requests :=
  h.required.then fun r => (requests_variableAddress var).andThen fun _ =>
    (requests_emit _).andThen fun _ => requests_release r

theorem requests_testCondition {condition : GenM (Option Xmm)} (h : Requests ctx condition requests) :
    Requests ctx (testCondition condition) requests :=
  h.required.then fun c => requests_acquire.andThen fun zero => (requests_emit _).andThen fun _ =>
    (requests_emit _).andThen fun _ => (requests_release zero).andThen fun _ =>
      (requests_release c).andThen fun _ => requests_asm _

theorem requests_missingAlternative (hasValue : Bool) :
    Requests ctx (missingAlternative hasValue) [] := by
  cases hasValue with
  | false => exact requests_pure _
  | true => exact requests_acquire.andThen fun _ => (requests_emit _).andThen fun _ => requests_pure _

-- its numerals are too large for the checks of types to look inside
attribute [local irreducible] X86.Assembler.patch

theorem requests_conditional {condition onTrue onFalse : GenM (Option Xmm)} {xc xt xf : List Double}
    (hc : Requests ctx condition xc) (ht : Requests ctx onTrue xt) (hf : Requests ctx onFalse xf)
    (hasValue : Bool) :
    Requests ctx (conditional condition onTrue onFalse hasValue) (xc ++ (xt ++ xf)) := by
  have hbehind : ∀ (toFalse : X86.Fixup) (finish : Option Xmm → GenM (Option Xmm)),
      (∀ f, Requests ctx (finish f) []) → Requests ctx (do
        let toEnd ← asm Assembler.jump
        asm (do Assembler.patch toFalse (← Assembler.position))
        let f ← onFalse
        asm (do Assembler.patch toEnd (← Assembler.position))
        finish f) xf := by
    intro toFalse finish hfinish
    refine (requests_asm _).andThen fun toEnd => (requests_asm _).andThen fun _ => ?_
    exact hf.then fun f => (requests_asm _).andThen fun _ => hfinish f
  unfold conditional
  refine (requests_testCondition hc).bind fun toFalse => ht.bind fun t => ?_
  cases t with
  | none =>
    refine hbehind toFalse _ fun f => ?_
    cases hasValue with
    | false =>
      cases f with
      | none => exact requests_pure _
      | some r => exact (requests_release r).andThen fun _ => requests_pure _
    | true => exact requests_fail _
  | some r =>
    refine (requests_release r).andThen fun _ => hbehind toFalse _ fun f => ?_
    cases f with
    | none =>
      cases hasValue with
      | false => exact requests_pure _
      | true => exact requests_fail _
    | some r' =>
      cases hasValue with
      | false => exact (requests_release r').andThen fun _ => requests_pure _
      | true => exact requests_ite (requests_pure _) (requests_fail _)

/-! ### Expressions, blocks and functions -/

def literalsIn (references : List Reference) : List Double :=
  references.filterMap fun
    | .constant x => some x
    | .function _ => none

theorem literalsIn_append (references more : List Reference) :
    literalsIn (references ++ more) = literalsIn references ++ literalsIn more := List.filterMap_append

theorem requests_operation [HostAddresses] (op : BinaryOp) {l r : GenM (Option Xmm)}
    (hl : Requests ctx l requests)
    (hr : Requests ctx r more) :
    Requests ctx (operation ctx op l r) (requests ++ (more ++ literalsIn (operationReferences op))) := by
  have hoperands : Requests ctx (do
      let l ← required l
      let r ← required r
      return (l, r)) (requests ++ more) :=
    hl.required.bind fun _ => hr.required.then fun _ => requests_pure _
  unfold operation operationReferences
  cases Lowering.of op with
  | power =>
    have houtside : (Target.host .power).Outside ctx.poolSection := trivial
    rw [literalsIn, List.filterMap_nil, List.append_nil]
    exact requests_call houtside (hoperands.then fun _ => requests_pure _) true
  | arithmetic sse =>
    rw [literalsIn, List.filterMap_nil, List.append_nil]
    exact hoperands.then fun _ => (requests_emit _).andThen fun _ =>
      (requests_release _).andThen fun _ => requests_pure _
  | comparison predicate swapped =>
    rw [← List.append_assoc]
    exact hoperands.bind fun _ => (requests_comparison predicate swapped _ _).then fun _ =>
      requests_pure _

section
variable {blocks : BlockGen} {isFunction : String → Bool} {inside : BlockId → List Reference}
    [HostAddresses]

theorem requests_arguments (args : List Expr) (h : ∀ arg ∈ args,
      Requests ctx (expr ctx blocks arg) (literalsIn (references isFunction inside arg))) :
    Requests ctx (arguments ctx blocks args) (literalsIn (listReferences isFunction inside args)) := by
  induction args with
  | nil => exact requests_pure _
  | cons e rest ih =>
    rw [arguments, listReferences, literalsIn_append]
    exact (h e (.head _)).required.bind fun _ => (ih fun arg harg => h arg (.tail _ harg)).then fun _ =>
      requests_pure _

theorem requests_expr (hsections : ∀ entry ∈ ctx.sections, entry.2 ≠ ctx.poolSection)
    (hblocks : ∀ id hasValue, Requests ctx (blocks id hasValue) (literalsIn (inside id))) (e : Expr) :
    Requests ctx (expr ctx blocks e) (literalsIn (references isFunction inside e)) := by
  induction e using Expr.children_induction with
  | step e ih =>
    -- References name the literals in the order in which the code asks for them.
    cases e with
    | literal value =>
      rw [expr, references, map_eq_pure_bind]
      exact (requests_constant value).then fun _ => requests_pure _
    | read name var ty mutable =>
      rw [expr, references]
      exact requests_acquire.andThen fun _ => (requests_variableAddress var).andThen fun _ =>
        (requests_emit _).andThen fun _ => requests_pure _
    | write name var value | bind name var value =>
      rw [expr, references]
      exact (requests_storeVariable var (ih value (.head _))).then fun _ => requests_pure _
    | binary op lhs rhs =>
      rw [expr, references, literalsIn_append, literalsIn_append]
      exact requests_operation op (ih lhs (.head _)) (ih rhs (.tail _ (.head _)))
    | unary op operand =>
      cases op with
      | plus =>
        rw [expr, references]
        exact ih operand (.head _)
      | minus =>
        rw [expr, references, literalsIn_append]
        exact requests_negation (ih operand (.head _))
    | call callee args ty =>
      have hargs := requests_arguments args ih
      have hnone : literalsIn (if isFunction callee then [.function callee] else []) = [] := by
        split <;> rfl
      rw [expr, references, literalsIn_append, hnone, List.append_nil]
      exact requests_target hsections callee fun t ht => requests_call ht hargs _
    | leave =>
      rw [expr, references]
      exact (requests_returnValue none).andThen fun _ => requests_epilogue.andThen fun _ => requests_pure _
    | leaveWith value =>
      rw [expr, references]
      exact (ih value (.head _)).required.then fun r => (requests_returnValue _).andThen fun _ =>
        requests_epilogue.andThen fun _ => requests_pure _
    | ifThen condition onTrue =>
      have hboth := requests_conditional (ih condition (.head _)) (ih onTrue (.tail _ (.head _)))
        (requests_missingAlternative onTrue.hasValue) onTrue.hasValue
      rw [List.append_nil] at hboth
      rw [expr, references, literalsIn_append]
      exact hboth
    | ifThenElse condition onTrue onFalse =>
      rw [expr, references, literalsIn_append, literalsIn_append]
      exact requests_conditional (ih condition (.head _)) (ih onTrue (.tail _ (.head _)))
        (ih onFalse (.tail _ (.tail _ (.head _)))) onTrue.hasValue
    | block id ty =>
      rw [expr, references]
      exact hblocks id _

theorem requests_statements (hsections : ∀ entry ∈ ctx.sections, entry.2 ≠ ctx.poolSection)
    (hblocks : ∀ id hasValue, Requests ctx (blocks id hasValue) (literalsIn (inside id)))
    (hasValue : Bool) (list : List Expr) :
    Requests ctx (statements ctx blocks hasValue list)
      (literalsIn (listReferences isFunction inside list)) := by
  induction list with
  | nil => exact requests_pure _
  | cons e rest ih =>
    rw [statements, listReferences, literalsIn_append]
    refine (requests_expr hsections hblocks e).bind fun value => ?_
    cases rest with
    | nil =>
      cases value with
      | none => exact requests_pure _
      | some r =>
        exact requests_ite (requests_pure _) ((requests_release r).andThen fun _ => requests_pure _)
    | cons next rest =>
      cases value with
      | none => exact ih
      | some r => exact (requests_release r).andThen fun _ => ih

end

theorem requests_blocksWithin [HostAddresses]
    (hsections : ∀ entry ∈ ctx.sections, entry.2 ≠ ctx.poolSection)
    (isFunction : String → Bool) (depth : Nat) (id : BlockId) (hasValue : Bool) :
    Requests ctx (blocksWithin ctx depth id hasValue)
      (literalsIn (blockReferences isFunction ctx.function depth id)) := by
  induction depth generalizing id hasValue with
  | zero => exact requests_fail _
  | succ depth ih =>
    rw [blocksWithin, blockReferences]
    cases ctx.function.blocks[id]? with
    | none => exact requests_fail _
    | some block => exact requests_statements hsections ih hasValue block.statements

theorem requests_storeArguments (count index : Nat) :
    Requests ctx (storeArguments ctx count index) [] := by
  induction count generalizing index with
  | zero => exact requests_pure _
  | succ count ih =>
    rw [storeArguments]
    split
    · exact requests_fail _
    · split
      · exact requests_fail _
      · exact (requests_slotAddress _).andThen fun _ => (requests_emit _).andThen fun _ => ih (index + 1)

end

end Codegen

def Function.literals (f : Function) : List Double :=
  -- which names are functions does not matter to the literals
  let noFunction := fun _ => false
  Codegen.literalsIn (Codegen.references noFunction
    (Codegen.blockReferences noFunction f f.blocks.length) f.body)

namespace Codegen

section
variable {ctx : Context}

theorem requests_functionCode [HostAddresses]
    (hsections : ∀ entry ∈ ctx.sections, entry.2 ≠ ctx.poolSection) :
    Requests ctx (functionCode ctx) ctx.function.literals := by
  have hbody : Requests ctx (functionExpr ctx ctx.function.body) ctx.function.literals :=
    requests_expr hsections (requests_blocksWithin hsections _ _) _
  have hrest : Requests ctx (do
      storeArguments ctx ctx.function.signature.args.length 0
      let value ← functionExpr ctx ctx.function.body
      returnValue value
      epilogue
      let held ← live
      if held ≠ [] then internal (.registersHeld held.length) else pure ()) ctx.function.literals :=
    (requests_storeArguments _ _).andThen fun _ => hbody.then fun value =>
      (requests_returnValue value).andThen fun _ => requests_epilogue.andThen fun _ =>
        requests_live.andThen fun _ => requests_ite (requests_fail _) (requests_pure _)
  unfold functionCode
  refine (requests_emit _).andThen fun _ => (requests_emit _).andThen fun _ => ?_
  refine (requests_checked _).andThen fun _ => (requests_checked _).andThen fun _ => ?_
  exact requests_ite ((requests_asm _).andThen fun _ => hrest) hrest

end

/-- What functions ask for in turn, the first of them in the given section: where each literal is asked
for, and which it is. -/
def requestsFrom : SectionId → List (Named Function) → List (SectionId × Double)
  | _, [] => []
  | home, (_, f) :: rest => f.literals.map (fun x => (home, x)) ++ requestsFrom (home + 1) rest

/-- What is shared grew by the requests, and the links to the pool are one for each of them. -/
structure Shared.Served (poolSection : SectionId) (before : Shared) (requests : List (SectionId × Double))
    (after : Shared) : Prop where
  pool : after.pool = (before.pool.internAll (requests.map (·.2))).2
  places : (linksTo poolSection after.links.toList).map (·.1) =
    (linksTo poolSection before.links.toList).map (·.1) ++ requests.map (·.1)
  offsets : (linksTo poolSection after.links.toList).map (·.2) =
    (linksTo poolSection before.links.toList).map (·.2) ++
      (before.pool.internAll (requests.map (·.2))).1

theorem Shared.Served.trans {poolSection : SectionId} {a b c : Shared}
    {requests more : List (SectionId × Double)} (h : a.Served poolSection requests b)
    (h' : b.Served poolSection more c) : a.Served poolSection (requests ++ more) c := by
  refine ⟨?_, ?_, ?_⟩
  · rw [h'.pool, h.pool, List.map_append, Pool.internAll_append]
  · rw [h'.places, h.places, List.map_append, List.append_assoc]
  · rw [h'.offsets, h.offsets, h.pool, List.map_append, Pool.internAll_append, List.append_assoc]

section
variable {poolSection : SectionId} {sections : List (Named SectionId)}

theorem answers_generateFunction_served [HostAddresses]
    (hsections : ∀ entry ∈ sections, entry.2 ≠ poolSection)
    (f : Function) (home : SectionId) (shared : Shared) :
    Answers (generateFunction ⟨f, home, poolSection, sections⟩ shared)
      (fun r => shared.Served poolSection (f.literals.map fun x => (home, x)) r.2) fun _ => True := by
  have hcode := @requests_functionCode ⟨f, home, poolSection, sections⟩ _ hsections
    ⟨.empty X86.Assembler.defaultLimit, .empty, shared.links, shared.pool⟩
  rw [ends_iff] at hcode
  unfold generateFunction
  cases hrun : (functionCode ⟨f, home, poolSection, sections⟩).run
      ⟨.empty X86.Assembler.defaultLimit, .empty, shared.links, shared.pool⟩ with
  | error fault t => trivial
  | ok value t =>
    have hasks := hcode.1 value t hrun
    have hvalues : (f.literals.map fun x => (home, x)).map (·.2) = f.literals := by simp
    refine ⟨?_, ?_, ?_⟩
    · rw [hvalues]
      exact hasks.pool
    · show (linksTo poolSection t.links.toList).map (·.1) = _
      rw [hasks.links, List.map_append]
      simp [List.map_const', Pool.length_internAll, Function.comp_def]
    · show (linksTo poolSection t.links.toList).map (·.2) = _
      rw [hasks.links, List.map_append, hvalues]
      simp [Function.comp_def]

theorem answers_generateFunctions_served [HostAddresses]
    (hsections : ∀ entry ∈ sections, entry.2 ≠ poolSection)
    (functions : List (Named Function)) (home : SectionId) (shared : Shared) :
    Answers (generateFunctions poolSection sections home functions shared)
      (fun r => r.1.length = functions.length ∧
        shared.Served poolSection (requestsFrom home functions) r.2) fun _ => True := by
  induction functions generalizing home shared with
  | nil => exact ⟨rfl, rfl, by simp [requestsFrom], by simp [requestsFrom, Pool.internAll]⟩
  | cons entry rest ih =>
    obtain ⟨name, f⟩ := entry
    have hchecked : Answers (checkFunction name f) (fun _ => True) fun _ => True := by
      cases checkFunction name f <;> trivial
    rw [generateFunctions, answers_bind]
    apply hchecked.mono _ fun _ h => h
    intro _ _
    rw [answers_bind]
    apply (answers_generateFunction_served hsections f home shared).mono _ fun _ h => h
    intro first hfirst
    rw [answers_bind]
    apply (ih (home + 1) first.2).mono _ fun _ h => h
    intro others hothers
    exact ⟨congrArg (· + 1) hothers.1, hfirst.trans hothers.2⟩

theorem Shared.Served.keeps {requests : List (SectionId × Double)} {after : Shared}
    (h : Shared.Served poolSection ⟨#[], .empty⟩ requests after) :
    (linksTo poolSection after.links.toList).map (·.1) = requests.map (·.1) ∧
    Pool.Keeps after.pool.bytes.toList (requests.map (·.2))
      ((linksTo poolSection after.links.toList).map (·.2)) := by
  have hoffsets : (linksTo poolSection after.links.toList).map (·.2) =
      (Pool.empty.internAll (requests.map (·.2))).1 := h.offsets
  refine ⟨h.places, ?_⟩
  rw [h.pool, hoffsets]
  exact Pool.keeps_internAll _

theorem Shared.Served.isEmpty_iff {requests : List (SectionId × Double)} {after : Shared}
    (h : Shared.Served poolSection ⟨#[], .empty⟩ requests after) :
    after.pool.values.isEmpty ↔ requests = [] := by
  rw [h.pool, Array.isEmpty_iff, Array.eq_empty_iff_forall_not_mem]
  simp only [Pool.mem_internAll, Pool.empty, List.mem_map]
  constructor
  · intro hnone
    rw [List.eq_nil_iff_forall_not_mem]
    exact fun request hmem => hnone request.2 (.inr ⟨request, hmem, rfl⟩)
  · rintro rfl
    simp

theorem entries_ne_pool (functions : List (Named Function)) :
    ∀ entry ∈ functions.zipIdx.map (fun ((name, _), id) => (name, id)),
      (entry : Named SectionId).2 ≠ functions.length := by
  intro entry hentry
  obtain ⟨⟨⟨name, f⟩, id⟩, hmem, rfl⟩ := List.mem_map.1 hentry
  have hlt := (List.mem_zipIdx hmem).2.1
  simp only [Nat.zero_add] at hlt
  exact Nat.ne_of_lt hlt

theorem answers_compile_served [HostAddresses] (p : Program) :
    Answers p.compile (fun o => ∃ shared,
      Shared.Served p.functions.length ⟨#[], .empty⟩ (requestsFrom 0 (Named.sort p.functions)) shared ∧
      o.links = shared.links.toList ∧
      o.sections[p.functions.length]? =
        if requestsFrom 0 (Named.sort p.functions) = [] then none
        else some ⟨.readOnly, shared.pool.bytes⟩) fun _ => True := by
  have hlength : (Named.sort p.functions).length = p.functions.length :=
    (Named.sort_perm p.functions).length_eq
  unfold Program.compile
  dsimp only
  by_cases he : p.errorCount = 0
  · rw [if_neg (not_not_intro he), answers_bind]
    have hchecked : ∀ checked : Except Fault Unit, Answers checked (fun _ => True) fun _ => True :=
      fun checked => by cases checked <;> trivial
    apply (hchecked _).mono _ fun _ h => h
    intro _ _
    rw [answers_bind]
    apply (answers_generateFunctions_served (entries_ne_pool _) _ 0 _).mono _ fun _ h => h
    rintro ⟨sections, shared⟩ ⟨hsections, hserved⟩
    rw [hlength] at hserved hsections
    refine ⟨shared, hserved, rfl, ?_⟩
    show (sections ++ _)[p.functions.length]? = _
    rw [List.getElem?_append_right (Nat.le_of_eq hsections), hsections, Nat.sub_self]
    by_cases hnone : requestsFrom 0 (Named.sort p.functions) = []
    · rw [if_pos hnone, if_pos (hserved.isEmpty_iff.2 hnone)]
      rfl
    · rw [if_neg hnone, if_neg fun hempty => hnone (hserved.isEmpty_iff.1 hempty)]
      rfl
  · rw [if_pos he]
    trivial

end

/-- The pool over a whole run. Whatever is asked for, the pool has one word for each bit pattern, equal
patterns and no others share an offset, and what was handed out never changes, in the bytes or in a
table beside them. Functions that are generated in turn link each of their literals, in order, and in
the section that the pool becomes every link leads to its own literal. -/
theorem literals_pooled [HostAddresses] :
    (∀ requests later : List Double,
      let asked := Pool.empty.internAll requests
      let all := Pool.empty.internAll (requests ++ later)
      let table := Table.empty.internAll requests
      Pool.Keeps asked.2.bytes.toList requests asked.1 ∧
      table.1 = asked.1 ∧ table.2.bytes = asked.2.bytes ∧
      asked.1 <+: all.1 ∧ asked.2.bytes.toList <+: all.2.bytes.toList) ∧
    (∀ (poolSection : SectionId) (sections : List (Named SectionId)) (home : SectionId)
      (functions : List (Named Function)) (code : List Section) (shared : Shared),
      (∀ entry ∈ sections, entry.2 ≠ poolSection) →
      generateFunctions poolSection sections home functions ⟨#[], .empty⟩ = .ok (code, shared) →
      let requests := requestsFrom home functions
      let links := linksTo poolSection shared.links.toList
      links.map (·.1) = requests.map (·.1) ∧
      Pool.Keeps shared.pool.bytes.toList (requests.map (·.2)) (links.map (·.2))) ∧
    ∀ (p : Program) (o : Object), p.compile = .ok o →
      let requests := requestsFrom 0 (Named.sort p.functions)
      let links := linksTo p.functions.length o.links
      links.map (·.1) = requests.map (·.1) ∧
      ∃ data : Array UInt8, Pool.Keeps data.toList (requests.map (·.2)) (links.map (·.2)) ∧
        o.sections[p.functions.length]? =
          if requests = [] then none else some ⟨.readOnly, data⟩ := by
  refine ⟨?_, ?_, ?_⟩
  · intro requests later asked all table
    obtain ⟨hoffsets, hstep⟩ := Table.inStep_empty.internAll requests
    have hall : all = _ := Pool.internAll_append .empty requests later
    refine ⟨Pool.keeps_internAll requests, hoffsets, hstep.bytes, ?_, ?_⟩
    · rw [hall]
      exact List.prefix_append _ _
    · rw [hall, Pool.toList_bytes, Pool.toList_bytes]
      obtain ⟨added, hadded⟩ := Pool.extends_internAll asked.2 later
      exact ⟨_, by rw [← hadded, List.flatMap_append]⟩
  · intro poolSection sections home functions code shared hsections hrun
    have hserved := answers_generateFunctions_served hsections functions home ⟨#[], .empty⟩
    rw [hrun] at hserved
    exact hserved.2.keeps
  · intro p o hcompile
    have hserved := answers_compile_served p
    rw [hcompile] at hserved
    obtain ⟨shared, hserved, hlinks, hsection⟩ := hserved
    obtain ⟨hplaces, hkeeps⟩ := hserved.keeps
    rw [← hlinks] at hplaces hkeeps
    exact ⟨hplaces, shared.pool.bytes, hkeeps, hsection⟩

def signedZeros : List Char :=
  ("func f() -> Float64 \x7b\n return -0\n\x7d\n" ++
    "func g() -> Float64 \x7b\n return 0 < 1\n\x7d").toList

open scoped HostAddresses in
theorem literals_pooled_signedZeros : ∃ o data, (Program.parse signedZeros).compile = .ok o ∧
    linksTo 2 o.links = [(0, 0), (0, 8), (1, 0), (1, 16), (1, 16)] ∧
    o.sections[2]? = some ⟨.readOnly, data⟩ ∧
    Pool.Keeps data.toList [⟨0⟩, .negativeZero, ⟨0⟩, .one, .one] [0, 8, 0, 16, 16] := by
  have hlinks : ((Program.parse signedZeros).compile.toOption.any fun o =>
      linksTo 2 o.links == [(0, 0), (0, 8), (1, 0), (1, 16), (1, 16)]) = true := by decide +kernel
  have hcount : (Program.parse signedZeros).functions.length = 2 := by decide +kernel
  have hrequests : requestsFrom 0 (Named.sort (Program.parse signedZeros).functions) =
      [(0, ⟨0⟩), (0, .negativeZero), (1, ⟨0⟩), (1, .one), (1, .one)] := by decide +kernel
  obtain ⟨o, hcompile, hsame⟩ := exists_ok_of_any hlinks
  have htwo := beq_iff_eq.1 hsame
  obtain ⟨-, data, hkeeps, hsection⟩ := literals_pooled.2.2 _ o hcompile
  rw [hcount, hrequests] at hsection
  rw [hcount, hrequests, htwo] at hkeeps
  exact ⟨o, data, hcompile, htwo, hsection, hkeeps⟩

end Codegen
end ScalarJit
