import ScalarJit.Proofs.Machine.Functions

/-! # Code of programs

Once the sections of a program are in memory, a run from the entry of a function and the evaluation of
the function agree: the calls of functions are by their sections, whose order is that of the names. -/

namespace ScalarJit

/-! ### Entries -/

def numbered {α : Type} (entries : List (Named α)) (start : Nat) : List (Named SectionId) :=
  (entries.zipIdx start).map fun ((name, _), id) => (name, id)

theorem lookup_numbered {α : Type} {entries : List (Named α)} {start id : Nat} {name : String}
    (h : (numbered entries start).lookup name = some id) :
    ∃ i a, id = start + i ∧ entries[i]? = some (name, a) ∧ entries.lookup name = some a := by
  induction entries generalizing start with
  | nil => cases h
  | cons entry rest ih =>
    obtain ⟨key, a⟩ := entry
    have hcons : numbered ((key, a) :: rest) start = (key, start) :: numbered rest (start + 1) := rfl
    rw [hcons, List.lookup_cons] at h
    rw [List.lookup_cons]
    cases hk : name == key with
    | true =>
      rw [hk] at h
      cases h
      have hname : name = key := by simpa using hk
      exact ⟨0, a, rfl, by rw [hname]; rfl, rfl⟩
    | false =>
      rw [hk] at h
      obtain ⟨i, b, hid, hget, hlookup⟩ := ih h
      exact ⟨i + 1, b, by omega, hget, hlookup⟩

theorem lookup_numbered_none {α : Type} {entries : List (Named α)} {start : Nat} {name : String}
    (h : (numbered entries start).lookup name = none) : entries.lookup name = none := by
  induction entries generalizing start with
  | nil => rfl
  | cons entry rest ih =>
    obtain ⟨key, a⟩ := entry
    have hcons : numbered ((key, a) :: rest) start = (key, start) :: numbered rest (start + 1) := rfl
    rw [hcons, List.lookup_cons] at h
    rw [List.lookup_cons]
    cases hk : name == key with
    | true =>
      rw [hk] at h
      cases h
    | false =>
      rw [hk] at h
      exact ih h

theorem lookup_perm {α : Type} {entries others : List (Named α)} (h : entries.Perm others)
    (hnodup : (entries.map (·.1)).Nodup) (name : String) :
    entries.lookup name = others.lookup name := by
  induction h with
  | nil => rfl
  | cons entry _ ih =>
    rw [List.lookup_cons, List.lookup_cons, ih (List.nodup_cons.1 hnodup).2]
  | swap a b rest =>
    have hne : a.1 ≠ b.1 := by
      intro heq
      have hmem : b.1 ∉ (a :: rest).map (·.1) := (List.nodup_cons.1 hnodup).1
      exact hmem (by rw [← heq]; exact List.mem_cons_self)
    rw [List.lookup_cons, List.lookup_cons, List.lookup_cons, List.lookup_cons]
    cases hb : name == b.1 with
    | true =>
      have ha : (name == a.1) = false := by
        rw [beq_eq_false_iff_ne]
        intro heq
        exact hne (heq.symm.trans (by simpa using hb))
      rw [ha]
    | false => cases name == a.1 <;> rfl
  | trans h _ ih ih' =>
    rw [ih hnodup, ih' ((h.map _).nodup_iff.1 hnodup)]

theorem Codegen.LowersAll.getElem [HostAddresses] {poolSection : SectionId}
    {sections : List (Named SectionId)}
    {pool : Pool} {home : SectionId} {functions : List (Named Function)} {code : List (List Item)}
    (h : LowersAll poolSection sections pool home functions code) {i : Nat} {name : String}
    {f : Function} (hi : functions[i]? = some (name, f)) :
    ∃ items, code[i]? = some items ∧
      LowersFunction ⟨f, home + i, poolSection, sections⟩ pool items := by
  induction h generalizing i with
  | nil => cases hi
  | cons _ _ h _ ih =>
    cases i with
    | zero =>
      cases hi
      exact ⟨_, rfl, h⟩
    | succ i =>
      obtain ⟨items, hitems, hlower⟩ := ih hi
      refine ⟨items, hitems, ?_⟩
      rwa [Nat.add_assoc, Nat.add_comm 1 i] at hlower

theorem Program.Declares.signature_eq {p : Program} {name : String} {signature : Signature}
    {f : Function} (h : p.Declares name signature) (hf : p.function? name = some f) :
    signature = f.signature := by
  rw [Program.Declares, Program.signature?, hf] at h
  exact (Option.some.inj h).symm

namespace Program.Lowered

variable {p : Program} {o : Object} {pool : Codegen.Pool} {code : List (List Codegen.Item)}

theorem lookup_sort (hp : p.Ordered) (name : String) :
    (Named.sort p.functions).lookup name = p.function? name := by
  have hnames : (p.functions.map (·.1)).Nodup := (List.nodup_append.1 hp.names).1
  exact (lookup_perm (Named.sort_perm p.functions).symm hnames name).symm

variable [HostAddresses]

theorem function_of_entry (h : p.Lowered o pool code) (hp : p.Ordered)
    {name : String}
    {id : SectionId} (hid : o.entries.lookup name = some id) :
    ∃ f items, p.function? name = some f ∧ (name, f) ∈ p.functions ∧ code[id]? = some items ∧
      Codegen.LowersFunction ⟨f, id, p.functions.length, o.entries⟩ pool items := by
  have hentries : o.entries = numbered (Named.sort p.functions) 0 := h.entries
  rw [hentries] at hid
  obtain ⟨i, f, rfl, hget, hlookup⟩ := lookup_numbered hid
  obtain ⟨items, hitems, hlower⟩ := h.functions.getElem hget
  rw [Nat.zero_add] at hlower ⊢
  exact ⟨f, items, (lookup_sort hp name).symm.trans hlookup,
    Named.mem_sort.1 (List.mem_of_getElem? hget), hitems, hlower⟩

theorem function_of_no_entry (h : p.Lowered o pool code) (hp : p.Ordered)
    {name : String}
    (hid : o.entries.lookup name = none) : p.function? name = none := by
  have hentries : o.entries = numbered (Named.sort p.functions) 0 := h.entries
  rw [hentries] at hid
  rw [← lookup_sort hp]
  exact lookup_numbered_none hid

end Program.Lowered

/-! ### Calls by name -/

namespace Machine

open Codegen (Item Pool)

/-- The sections of a program are in memory, and sections have the given addresses. -/
structure Loaded [HostAddresses] (p : Program) (pool : Pool) (code : List (List Item))
    (image : Image)
    (address : SectionId → Nat → UInt64) : Prop where
  functions : ∀ (id : Nat) (items : List Item), code[id]? = some items →
    image.At (address id 0) (resolved address items)
  constants : ∀ offset x, pool.Holds offset x →
    image.loadDouble (address p.functions.length offset) = .ok x
  own : ∀ (id : Nat) (items : List Item), code[id]? = some items →
    HostFunction.ofAddress? (address id 0) = none

section
variable {σ : Type} {host : Host σ} {residue : σ → Residue} {image : Image}
  {address : SectionId → Nat → UInt64} {p : Program} {o : Object} {pool : Pool}
  {code : List (List Item)}

/-- The code of a function does what a call of it does, however deep calls nest. -/
theorem enters_callWithin [HostAddresses] (hp : p.Ordered) (hlowered : p.Lowered o pool code)
    (hloaded : Loaded p pool code image address) (n : Nat) :
    ∀ (name : String) (id : SectionId) (f : Function) (args : List Double),
      o.entries.lookup name = some id → p.function? name = some f →
      args.length = f.signature.args.length →
      Enters host residue image n (address id 0) args
        (Evaluation.callWithin host p n name args) := by
  -- By the depth of calls: the calls in a body go one less deep.
  induction n with
  | zero =>
    intro name id f args _ _ _ m s _ _ _
    exact ⟨0, m, .refl m s, Nat.le_refl 0⟩
  | succ n ih =>
    intro name id f args hid hf hargs
    obtain ⟨g, items, hg, hmem, hitems, hlower⟩ := hlowered.function_of_entry hp hid
    rw [hf, Option.some_inj] at hg
    subst hg
    have hcall : Evaluation.callWithin host p (n + 1) name args =
        Evaluation.applyFunction host (Evaluation.callWithin host p n) f args := by
      funext s
      rw [Evaluation.callWithin, hf]
    rw [hcall]
    let w : Setting σ := ⟨host, residue, image, address, ⟨f, id, p.functions.length, o.entries⟩,
      pool, n, Evaluation.callWithin host p n, ⟨#[], .exit⟩⟩
    refine @enters_function σ _ w p.Declares items args hlower (hloaded.functions id items hitems) hargs ?_
    intro act heven
    refine ⟨hlower.framed, apart_of_wellFormed (hp.functions _ hmem), hp.functions _ hmem, heven,
      hloaded.constants, ?_⟩
    intro callee target signature args ht hd hn hmax
    cases ht with
    | @code id' hlookup =>
      obtain ⟨g, items', hg, -, hitems', -⟩ := hlowered.function_of_entry hp hlookup
      refine serves_code (hloaded.own id' items' hitems') (ih callee id' g args hlookup hg ?_)
      rw [hn, hd.signature_eq hg]
    | @host i hlookup hi =>
      have hnone := hlowered.function_of_no_entry hp hlookup
      have harity : i.arity = args.length := by
        have hd : p.signature? callee = some signature := hd
        rw [Program.signature?, hnone] at hd
        obtain ⟨i', hi', harity⟩ := hlowered.externs _ (mem_of_lookup hd)
        rw [hi, Option.some_inj] at hi'
        rw [hi', harity, hn]
      rw [Codegen.maxArguments] at hmax
      cases n with
      | zero =>
        intro m s more _ _ _
        exact ⟨0, m, .refl m s, Nat.le_refl 0⟩
      | succ n =>
        have hcall : Evaluation.callWithin host p (n + 1) callee args =
            hostInvocation host (.intrinsic i) args := by
          funext s
          rw [Evaluation.callWithin, hnone]
          simp only [hi]
          rfl
        show Serves host residue image address (n + 1) (.host (.intrinsic i)) args
          (Evaluation.callWithin host p (n + 1) callee args)
        rw [hcall]
        exact serves_host harity (by omega)

end
end Machine
end ScalarJit
