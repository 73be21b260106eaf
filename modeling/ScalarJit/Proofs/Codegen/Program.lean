import ScalarJit.Proofs.Codegen.Function

/-! # Generating programs

How the sections, the links and the pool of a program are made up, and which faults end the generation
of one. -/

namespace ScalarJit
namespace Codegen

open X86 (Assembler)

def Answers {ε α : Type} (m : Except ε α) (ok : α → Prop) (err : ε → Prop) : Prop :=
  match m with
  | .ok a => ok a
  | .error e => err e

theorem answers_bind {ε α β : Type} {m : Except ε α} {f : α → Except ε β} {ok : β → Prop}
    {err : ε → Prop} : Answers (m >>= f) ok err ↔ Answers m (fun a => Answers (f a) ok err) err := by
  cases m <;> rfl

theorem Answers.mono {ε α : Type} {m : Except ε α} {ok ok' : α → Prop} {err err' : ε → Prop}
    (h : Answers m ok err) (hok : ∀ a, ok a → ok' a) (herr : ∀ e, err e → err' e) :
    Answers m ok' err' := by
  cases m with
  | ok a => exact hok a h
  | error e => exact herr e h

/-! ### Faults of a program -/

/-- Of the faults of the generator itself only two occur, and only on what cannot be lowered. -/
def Blames (lowerable : Prop) : Fault → Prop
  | .internal .missingValue => ¬lowerable
  | .internal (.argumentWithoutRegister _) => ¬lowerable
  | .internal _ => False
  | .hasDiagnostics _ => False
  | .panic _ => False
  | _ => True

theorem Blames.mono {p q : Prop} (hpq : q → p) {fault : Fault} (h : Blames p fault) :
    Blames q fault := by
  cases fault with
  | internal f =>
    cases f with
    | missingValue => exact fun hq => h (hpq hq)
    | argumentWithoutRegister index => exact fun hq => h (hpq hq)
    | _ => exact h
  | hasDiagnostics _ => exact h
  | panic _ => exact h
  | _ => trivial

/-- Where the frame has room, nothing else of a function is to blame. -/
theorem Demand.Blames.of_framed {D : Demand} (hD : D.framed) {fault : Fault} (h : D.Blames fault) :
    Codegen.Blames D.lowerable fault := by
  cases fault with
  | internal f =>
    cases f with
    | slotOutOfRange _ => exact absurd hD h
    | _ => exact h
  | hasDiagnostics _ => exact h
  | panic _ => exact absurd hD h
  | _ => trivial

/-! ### Checks -/

theorem answers_checkSignature (L : Prop) (name : String) (s : Signature) :
    Answers (checkSignature name s) (fun _ => s.args.length ≤ maxArguments ∧
      (∀ arg ∈ s.args, arg.2 = .float64) ∧ (s.result = .void ∨ s.result = .float64)) (Blames L) := by
  unfold checkSignature
  dsimp only
  split
  · trivial
  next hmany =>
  split
  · trivial
  next hfind =>
  split
  · trivial
  next hresult =>
  refine ⟨Nat.le_of_not_lt hmany, fun arg harg => ?_, ?_⟩
  · have h := List.find?_eq_none.1 hfind arg harg
    simpa using h
  · by_cases hvoid : s.result = .void
    · exact .inl hvoid
    · by_cases hfloat : s.result = .float64
      · exact .inr hfloat
      · exact absurd ⟨hvoid, hfloat⟩ hresult

theorem answers_checkFunction (L : Prop) (name : String) (f : Function) :
    Answers (checkFunction name f) (fun _ => f.signature.args.length ≤ maxArguments ∧
      (f.signature.result = .void ∨ f.signature.result = .float64) ∧
      ∀ var v, declaration? f.blocks var = some v → v.ty = .float64) (Blames L) := by
  unfold checkFunction
  refine answers_bind.2 ((answers_checkSignature L name f.signature).mono ?_ fun _ h => h)
  intro _ hsignature
  split
  · trivial
  next hfind =>
  refine ⟨hsignature.1, hsignature.2.2, fun var v hv => ?_⟩
  obtain ⟨b, hb, hlocal⟩ := Option.bind_eq_some_iff.1 hv
  have hmem : v ∈ f.blocks.flatMap (·.locals) :=
    List.mem_flatMap.2 ⟨b, List.mem_of_getElem? hb, List.mem_of_getElem? hlocal⟩
  simpa using List.find?_eq_none.1 hfind v hmem

theorem answers_checkExtern (L : Prop) (name : String) (s : Signature) :
    Answers (checkExtern name s) (fun _ => ∃ i, Intrinsic.ofName? name = some i ∧
      i.arity = s.args.length) (Blames L) := by
  unfold checkExtern
  refine answers_bind.2 ((answers_checkSignature L name s).mono ?_ fun _ h => h)
  intro _ _
  split
  · trivial
  next i hi =>
  split
  · trivial
  next harity => exact ⟨i, hi, Decidable.not_not.1 harity⟩

/-! ### What was generated could be lowered -/

def Phrase.Lowerable (blocks : List Block) : Phrase → Prop
  | .expr e => e.Lowerable blocks
  | .arguments args => ∀ arg ∈ args, arg.hasValue = true ∧ arg.Lowerable blocks
  | .statements _ list => ∀ e ∈ list, e.Lowerable blocks

variable [HostAddresses]

theorem Lowers.lowerable {ctx : Context} {pool : Pool} {d k : Nat} {phrase : Phrase}
    {is : List Item} (h : Lowers ctx pool d k phrase is) :
    phrase.Lowerable ctx.function.blocks := by
  have both : ∀ {lhs rhs : Expr}, (Phrase.arguments [lhs, rhs]).Lowerable ctx.function.blocks →
      lhs.Lowerable ctx.function.blocks ∧ rhs.Lowerable ctx.function.blocks := fun h =>
    ⟨(h _ List.mem_cons_self).2, (h _ (List.mem_cons_of_mem _ List.mem_cons_self)).2⟩
  induction h with
  | literal _ _ => exact .literal _
  | read _ _ => exact .read ..
  | write _ _ _ _ ih => exact .write ih
  | bind _ _ _ _ ih => exact .bind ih
  | arithmetic _ _ _ ih => exact .binary (both ih).1 (both ih).2
  | comparison _ _ _ _ ih => exact .binary (both ih).1 (both ih).2
  | power _ _ _ ih => exact .binary (both ih).1 (both ih).2
  | plus _ ih => exact .unary ih
  | minus _ _ _ _ ih => exact .unary ih
  | call _ hargs _ _ _ ih =>
    exact .call hargs (fun arg ha => Expr.hasValue_iff.1 (ih arg ha).1) fun arg ha => (ih arg ha).2
  | leave => exact .leave
  | leaveWith _ hv _ ih => exact .leaveWith (Expr.hasValue_iff.1 hv) ih
  | ifThen _ _ _ _ _ ihc iht => exact .ifThen ihc iht
  | ifThenElse _ _ _ _ _ _ _ _ ihc iht ihf => exact .ifThenElse ihc iht ihf
  | @block d k id ty b is hb _ ih =>
    refine .block fun c hc e he => ?_
    rw [hb, Option.some_inj] at hc
    exact ih e (hc ▸ he)
  | noArguments => exact fun _ h => (by cases h)
  | argument _ hv _ _ ih ihrest =>
    intro arg ha
    rcases List.mem_cons.1 ha with rfl | hrest
    · exact ⟨hv, ih⟩
    · exact ihrest arg hrest
  | noStatements => exact fun _ h => (by cases h)
  | lastStatement _ _ ih =>
    intro e he
    rw [List.mem_singleton.1 he]
    exact ih
  | statement _ _ ih ihrest =>
    intro e he
    rcases List.mem_cons.1 he with rfl | hrest
    · exact ih
    · exact ihrest e hrest

theorem LowersFunction.lowerable {ctx : Context} {pool : Pool} {items : List Item}
    (h : LowersFunction ctx pool items) : ctx.function.body.Lowerable ctx.function.blocks := by
  obtain ⟨is, hlower, -⟩ := h.body
  exact hlower.lowerable

/-! ### Functions in turn -/

theorem answers_generateFunction {ctx : Context} {declares : String → Signature → Prop}
    (h : Ready declares ctx.function) (shared : Shared) :
    Answers (generateFunction ctx shared) (fun r => ∃ items, r.1 = (bytesOf items).toArray ∧
      r.2.links.toList = shared.links.toList ++ linksOf ctx.home 0 items ∧
      shared.pool.Extends r.2.pool ∧ sizeOf items ≤ Assembler.defaultLimit ∧
      ∀ pool, r.2.pool.Extends pool → LowersFunction ctx pool items)
      (functionDemand ctx declares).Blames := by
  let s : State := ⟨.empty Assembler.defaultLimit, .empty, shared.links, shared.pool⟩
  have hlimit : Assembler.defaultLimit < 0x80000000 := by decide
  have hends := ends_iff.1 (generates_functionCode h (s := s) rfl)
  unfold generateFunction
  split
  · next t hrun =>
    obtain ⟨items, hemits, hlower⟩ := hends.1 _ t hrun
    have hcode : t.asm.code.toList = bytesOf items := hemits.code
    have hroom := hemits.room (Nat.zero_le _)
    have hshort : t.Short := ⟨hroom, hemits.limit ▸ hlimit⟩
    rw [hemits.limit] at hroom
    refine ⟨items, ?_, hemits.links, hemits.pool, ?_, hlower hshort⟩
    · rw [← hcode]
    · rw [sizeOf, ← hcode, Array.length_toList]
      exact hroom
  · next fault t hrun => exact hends.2 fault t hrun

def linksFrom : SectionId → List (List Item) → List Link
  | _, [] => []
  | home, items :: rest => linksOf home 0 items ++ linksFrom (home + 1) rest

def sectionOf (items : List Item) : Section := ⟨.executable, (bytesOf items).toArray⟩

inductive LowersAll (poolSection : SectionId) (sections : List (Named SectionId))
    (pool : Pool) :
    SectionId → List (Named Function) → List (List Item) → Prop
  | nil {home : SectionId} : LowersAll poolSection sections pool home [] []
  | cons {home : SectionId} {name : String} {f : Function} {rest : List (Named Function)}
      {items : List Item} {code : List (List Item)}
      (hsize : sizeOf items ≤ Assembler.defaultLimit)
      (hresult : f.signature.result = .void ∨ f.signature.result = .float64)
      (h : LowersFunction ⟨f, home, poolSection, sections⟩ pool items)
      (hrest : LowersAll poolSection sections pool (home + 1) rest code) :
      LowersAll poolSection sections pool home ((name, f) :: rest) (items :: code)

def AllLowerable (functions : List (Named Function)) : Prop :=
  ∀ entry ∈ functions, entry.2.body.Lowerable entry.2.blocks

theorem LowersAll.lowerable {poolSection : SectionId} {sections : List (Named SectionId)}
    {pool : Pool} {home : SectionId} {functions : List (Named Function)} {code : List (List Item)}
    (h : LowersAll poolSection sections pool home functions code) : AllLowerable functions := by
  induction h with
  | nil => exact fun _ h => (by cases h)
  | cons _ _ h _ ih =>
    intro entry hentry
    rcases List.mem_cons.1 hentry with rfl | hrest
    · exact h.lowerable
    · exact ih entry hrest

theorem answers_generateFunctions {poolSection : SectionId} {sections : List (Named SectionId)}
    {declares : String → Signature → Prop} (functions : List (Named Function))
    (hw : ∀ entry ∈ functions, entry.2.WellFormed declares)
    (hc : ∀ entry ∈ functions, entry.2.signature.args.length ≤ maxArguments →
      8 * entry.2.slots + 15 ≤ wordMax) (home : SectionId) (shared : Shared) :
    Answers (generateFunctions poolSection sections home functions shared)
      (fun r => ∃ code, r.1 = code.map sectionOf ∧
        r.2.links.toList = shared.links.toList ++ linksFrom home code ∧
        shared.pool.Extends r.2.pool ∧
        ∀ pool, r.2.pool.Extends pool → LowersAll poolSection sections pool home functions code)
      (Blames (AllLowerable functions)) := by
  induction functions generalizing home shared with
  | nil => exact ⟨[], rfl, by simp [linksFrom], .refl _, fun _ _ => .nil⟩
  | cons entry rest ih =>
    obtain ⟨name, f⟩ := entry
    have hmem : (name, f) ∈ (name, f) :: rest := List.mem_cons_self
    rw [generateFunctions]
    refine answers_bind.2 ((answers_checkFunction _ name f).mono ?_ fun _ h => h)
    rintro _ ⟨hargs, hresult, hdouble⟩
    have hready : Ready declares f := ⟨hw _ hmem, hargs, hdouble⟩
    have hfunction := @answers_generateFunction _ ⟨f, home, poolSection, sections⟩ _ hready shared
    refine answers_bind.2 (hfunction.mono ?_ fun _ h =>
      (h.of_framed (hc _ hmem hargs)).mono fun hall => hall _ hmem)
    rintro ⟨bytes, shared'⟩ ⟨items, rfl, hlinks, hpool, hsize, hlower⟩
    refine answers_bind.2 ((ih (fun e he => hw e (List.mem_cons_of_mem _ he))
      (fun e he => hc e (List.mem_cons_of_mem _ he)) (home + 1) shared').mono ?_ fun _ h =>
        h.mono fun hall e he => hall e (List.mem_cons_of_mem _ he))
    rintro ⟨others, shared''⟩ ⟨code, rfl, hlinks', hpool', hrest⟩
    refine ⟨items :: code, rfl, ?_, hpool.trans hpool', fun pool hp => ?_⟩
    · rw [hlinks', hlinks, linksFrom, List.append_assoc]
    · exact .cons hsize hresult (hlower pool (hpool'.trans hp)) (hrest pool hp)

end Codegen

/-! ### Whole programs -/

structure Program.Lowered [HostAddresses] (p : Program) (o : Object) (pool : Codegen.Pool)
    (code : List (List Codegen.Item)) : Prop where
  functions : Codegen.LowersAll p.functions.length o.entries pool 0 (Named.sort p.functions) code
  entries : o.entries = (Named.sort p.functions).zipIdx.map fun ((name, _), id) => (name, id)
  sections : o.sections = code.map Codegen.sectionOf ++
    (if pool.values.isEmpty then [] else [⟨.readOnly, pool.bytes⟩])
  links : o.links = Codegen.linksFrom 0 code
  externs : ∀ entry ∈ p.externs, ∃ i, Intrinsic.ofName? entry.1 = some i ∧
    i.arity = entry.2.args.length

/-- No function of a program returns or passes a value of type void, or passes too many. -/
def Program.Lowerable (p : Program) : Prop := Codegen.AllLowerable p.functions

theorem mem_of_lookup {α : Type} {entries : List (Named α)} {name : String} {a : α}
    (h : entries.lookup name = some a) : (name, a) ∈ entries := by
  obtain ⟨before, after, rfl, -⟩ := List.lookup_eq_some_iff.1 h
  exact List.mem_append_right before List.mem_cons_self

theorem Named.mem_sort {α : Type} {entries : List (Named α)} {entry : Named α} :
    entry ∈ Named.sort entries ↔ entry ∈ entries := (Named.sort_perm entries).mem_iff

namespace Codegen

theorem answers_forM {α : Type} {f : α → Except Fault Unit} {Q : α → Prop} {err : Fault → Prop}
    (list : List α) (h : ∀ a ∈ list, Answers (f a) (fun _ => Q a) err) :
    Answers (list.forM f) (fun _ => ∀ a ∈ list, Q a) err := by
  induction list with
  | nil => exact fun _ h => (by cases h)
  | cons a rest ih =>
    refine answers_bind.2 ((h a List.mem_cons_self).mono ?_ fun _ h => h)
    intro _ ha
    refine (ih fun b hb => h b (List.mem_cons_of_mem a hb)).mono ?_ fun _ h => h
    intro _ hrest b hb
    rcases List.mem_cons.1 hb with rfl | hb
    · exact ha
    · exact hrest b hb

variable [HostAddresses]

theorem answers_compile {p : Program} (hp : p.Ordered) (he : p.errorCount = 0)
    (hc : ∀ entry ∈ p.functions, entry.2.signature.args.length ≤ maxArguments →
      8 * entry.2.slots + 15 ≤ wordMax) :
    Answers p.compile (fun o => ∃ pool code, p.Lowered o pool code) (Blames p.Lowerable) := by
  have hlowerable : p.Lowerable ↔ AllLowerable (Named.sort p.functions) := by
    simp only [Program.Lowerable, AllLowerable, Named.mem_sort]
  unfold Program.compile
  dsimp only
  rw [if_neg (not_not_intro he)]
  have hexterns := answers_forM (Q := fun entry : Named Signature => ∃ i,
    Intrinsic.ofName? entry.1 = some i ∧ i.arity = entry.2.args.length) (Named.sort p.externs)
    fun entry _ => answers_checkExtern p.Lowerable entry.1 entry.2
  refine answers_bind.2 (hexterns.mono ?_ fun _ h => h)
  intro _ hexterns
  have hfunctions := @answers_generateFunctions _ (Named.sort p.functions).length
    ((Named.sort p.functions).zipIdx.map fun ((name, _), id) => (name, id)) _
    (Named.sort p.functions) (fun entry he => hp.functions entry (Named.mem_sort.1 he))
    (fun entry he => hc entry (Named.mem_sort.1 he)) 0 ⟨#[], .empty⟩
  refine answers_bind.2 (hfunctions.mono ?_ fun _ h => h.mono hlowerable.1)
  rintro ⟨sections, shared⟩ ⟨code, rfl, hlinks, -, hlower⟩
  refine ⟨shared.pool, code, ?_, rfl, rfl, hlinks, ?_⟩
  · have hlen : (Named.sort p.functions).length = p.functions.length :=
      (Named.sort_perm p.functions).length_eq
    have h := hlower shared.pool (.refl _)
    rwa [hlen] at h
  · intro entry he
    exact hexterns entry (Named.mem_sort.2 he)

/-! ### What was checked -/

theorem answers_generateFunctions_checked {poolSection : SectionId}
    {sections : List (Named SectionId)} {P : Named Function → Prop} {err : Fault → Prop}
    (functions : List (Named Function))
    (h : ∀ entry ∈ functions, Answers (checkFunction entry.1 entry.2) (fun _ => P entry ∧
      ∀ home shared, Answers (generateFunction ⟨entry.2, home, poolSection, sections⟩ shared)
        (fun _ => True) err) err) (home : SectionId) (shared : Shared) :
    Answers (generateFunctions poolSection sections home functions shared)
      (fun _ => ∀ entry ∈ functions, P entry) err := by
  induction functions generalizing home shared with
  | nil => exact fun _ h => (by cases h)
  | cons entry rest ih =>
    have hrest := ih fun e he => h e (.tail _ he)
    rw [generateFunctions, answers_bind]
    apply (h entry (.head _)).mono _ fun _ he => he
    intro _ hentry
    rw [answers_bind]
    apply (hentry.2 home shared).mono _ fun _ he => he
    intro code _
    rw [answers_bind]
    apply (hrest (home + 1) code.2).mono _ fun _ he => he
    intro _ hall
    exact List.forall_mem_cons.2 ⟨hentry.1, hall⟩

theorem answers_compile_checked {p : Program} {P : Named Function → Prop}
    {Q : Named Signature → Prop} {err : Fault → Prop}
    (hexterns : ∀ entry ∈ p.externs, Answers (checkExtern entry.1 entry.2) (fun _ => Q entry) err)
    (hfunctions : ∀ entry ∈ p.functions, Answers (checkFunction entry.1 entry.2) (fun _ => P entry ∧
      ∀ ctx : Context, ctx.function = entry.2 → ∀ shared,
        Answers (generateFunction ctx shared) (fun _ => True) err) err)
    (hcount : p.errorCount ≠ 0 → err (.hasDiagnostics p.errorCount)) :
    Answers p.compile (fun _ => p.errorCount = 0 ∧ (∀ entry ∈ p.externs, Q entry) ∧
      ∀ entry ∈ p.functions, P entry) err := by
  unfold Program.compile
  dsimp only
  by_cases he : p.errorCount = 0
  · rw [if_neg (not_not_intro he), answers_bind]
    have hchecked := answers_forM (Named.sort p.externs) fun entry hentry =>
      hexterns entry (Named.mem_sort.1 hentry)
    apply hchecked.mono _ fun _ hf => hf
    intro _ hexterns
    rw [answers_bind]
    refine (answers_generateFunctions_checked (P := P) (Named.sort p.functions) ?_ 0
      ⟨#[], .empty⟩).mono ?_ fun _ hf => hf
    · intro entry hentry
      apply (hfunctions entry (Named.mem_sort.1 hentry)).mono _ fun _ hf => hf
      intro _ hP
      exact ⟨hP.1, fun home shared => hP.2 _ rfl shared⟩
    · intro _ hall
      exact ⟨he, fun entry hentry => hexterns entry (Named.mem_sort.2 hentry),
        fun entry hentry => hall entry (Named.mem_sort.2 hentry)⟩
  · rw [if_pos he]
    exact hcount he

end Codegen

theorem Program.Lowered.lowerable [HostAddresses] {p : Program} {o : Object} {pool : Codegen.Pool}
    {code : List (List Codegen.Item)} (h : p.Lowered o pool code) : p.Lowerable := by
  intro entry he
  exact h.functions.lowerable entry (Named.mem_sort.2 he)

end ScalarJit
