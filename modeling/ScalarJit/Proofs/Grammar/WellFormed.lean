import ScalarJit.Proofs.Grammar.Arena

/-! # Every program that is read is well-formed

Whatever a source holds, each function that is kept from it has its blocks, variables and expressions
in order. Declarations are added under new names only, so a signature that a call was checked against
stays the one that its name stands for. -/

namespace ScalarJit
namespace Grammar

/-! ### Heads of declarations -/

def Passing {α : Type} (m : ParseM α) (s : State) (Q : α → State → Prop) : Prop :=
  Ends m s (fun a t => Untouched s t ∧ Q a t) (fun _ t => Untouched s t)

namespace Passing

variable {α β : Type} {m : ParseM α} {s : State} {Q : α → State → Prop}

theorem bind {f : α → ParseM β} {R : β → State → Prop} (h : Passing m s Q)
    (next : ∀ a t, Untouched s t → Q a t → Passing (f a) t R) : Passing (m >>= f) s R := by
  refine (ends_bind m f).2 (Ends.mono h ?_ fun _ _ he => he)
  rintro a t ⟨hst, hq⟩
  refine (next a t hst hq).mono ?_ ?_
  · rintro b u ⟨htu, hr⟩
    exact ⟨hst.trans htu, hr⟩
  · intro _ u htu
    exact hst.trans htu

theorem pure {a : α} (h : Q a s) : Passing (pure a : ParseM α) s Q := ⟨.refl s, h⟩

theorem failAt (t : Token) (c : Complaint) : Passing (failAt t c) s Q := Untouched.refl s

theorem failHere (c : Complaint) : Passing (failHere c) s Q := Untouched.refl s

theorem token : Passing token s fun _ _ => True := ⟨.refl s, trivial⟩

theorem kind : Passing kind s fun _ _ => True := ⟨.refl s, trivial⟩

theorem get : Passing (get : ParseM State) s fun a t => a = t := ⟨.refl s, rfl⟩

theorem bump : Passing bump s fun _ _ => True := ⟨.bump s, trivial⟩

theorem openBracket : Passing openBracket s fun _ _ => True := ⟨.bump_brackets s _, trivial⟩

theorem closeBracket : Passing closeBracket s fun _ _ => True := ⟨.bump_brackets s _, trivial⟩

theorem expectSymbol (symbol : Symbol) (c : Complaint) :
    Passing (expectSymbol symbol c) s fun _ _ => True :=
  (ends_expectSymbol symbol c).2 ⟨fun _ => ⟨.bump s, trivial⟩, fun _ => .refl s⟩

theorem identifier (c : Complaint) : Passing (identifier c) s fun _ _ => True :=
  (ends_identifier c).2 ⟨fun _ _ => ⟨.bump s, trivial⟩, fun _ => .refl s⟩

theorem typeName : Passing typeName s fun _ _ => True :=
  ends_typeName.2 ⟨fun _ _ _ _ => ⟨.bump s, trivial⟩, fun _ _ _ => .bump s, fun _ => .refl s⟩

end Passing

theorem passing_declaredArguments (bound : Nat) (args : List (String × Ty)) (s : State) :
    Passing (declaredArguments bound args) s fun _ _ => True := by
  induction bound generalizing args s with
  | zero =>
    rw [declaredArguments]
    exact .pure trivial
  | succ bound ih =>
    rw [declaredArguments]
    refine .bind .token fun start s _ _ => ?_
    refine .bind (.identifier _) fun name s _ _ => ?_
    refine .bind (.expectSymbol _ _) fun _ s _ _ => ?_
    refine .bind .typeName fun ty s _ _ => ?_
    dsimp only
    split
    · exact .bind (.failAt (Q := fun _ _ => False) _ _) fun _ _ _ h => h.elim
    · refine .bind .kind fun found s _ _ => ?_
      split
      · exact .bind .bump fun _ s _ _ => ih _ s
      · exact .pure trivial
      · exact .failHere _

theorem passing_signature (s : State) : Passing signature s fun _ _ => True := by
  unfold signature
  refine .bind (.identifier _) fun name s _ _ => ?_
  refine .bind .kind fun found s _ _ => ?_
  have result : ∀ (args : List (String × Ty)) (s : State), Passing (do
      closeBracket
      let result ←
        if (← kind) = .symbol .arrow then
          bump
          typeName
        else pure .void
      return (name, (⟨args, result⟩ : Signature))) s fun _ _ => True := by
    intro args s
    refine .bind .closeBracket fun _ s _ _ => ?_
    refine .bind .kind fun found s _ _ => ?_
    dsimp only
    split
    · refine .bind .bump fun _ s _ _ => ?_
      exact .bind .typeName fun ty s _ _ => .pure trivial
    · exact .bind (.pure (Q := fun _ _ => True) trivial) fun ty s _ _ => .pure trivial
  dsimp only
  split
  · exact .bind (.failHere (Q := fun _ _ => False) _) fun _ _ _ h => h.elim
  · refine .bind .openBracket fun _ s _ _ => ?_
    refine .bind .kind fun found s _ _ => ?_
    split
    · exact .bind (.pure (Q := fun _ _ => True) trivial) fun args s _ _ => result args s
    · refine .bind .get fun _ s _ _ => ?_
      exact .bind (passing_declaredArguments _ [] s) fun args s _ _ => result args s

theorem passing_functionHead (s : State) : Passing functionHead s fun head t =>
    t.functions.lookup head.1 = none ∧ t.externs.lookup head.1 = none := by
  unfold functionHead
  refine .bind .token fun start s _ _ => ?_
  refine .bind .bump fun _ s _ _ => ?_
  refine .bind (passing_signature s) fun head s _ _ => ?_
  refine .bind .get ?_
  rintro _ t - rfl
  dsimp only
  split
  · exact .bind (.failAt (Q := fun _ _ => False) _ _) fun _ _ _ h => h.elim
  next hhost =>
  refine .bind .get ?_
  rintro u _ htu rfl
  split
  · exact .bind (.failAt (Q := fun _ _ => False) _ _) fun _ _ _ h => h.elim
  next hfunction =>
  refine .bind (Q := fun _ t => Untouched u t) ⟨.skipNewlines _ u, .skipNewlines _ u⟩
    fun _ v _ huv => ?_
  refine .bind .kind fun found w hvw _ => ?_
  split
  · exact .bind (.failHere (Q := fun _ _ => False) _) fun _ _ _ h => h.elim
  · have huw := huv.trans hvw
    refine .pure ⟨?_, ?_⟩
    · rw [huw.functions]
      exact Option.not_isSome_iff_eq_none.1 hfunction
    · rw [huw.externs, htu.externs]
      exact Option.not_isSome_iff_eq_none.1 hhost

theorem Passing.ends_bind {α β : Type} {m : ParseM α} {f : α → ParseM β} {s t : State}
    {Q : α → State → Prop} {ok : β → State → Prop} (h : Passing m t Q) (hst : Untouched s t)
    (next : ∀ a u, Untouched s u → Q a u → Ends (f a) u ok fun _ v => Untouched s v) :
    Ends (m >>= f) t ok fun _ v => Untouched s v :=
  (ScalarJit.ends_bind m f).2 (Ends.mono h (fun a u hp => next a u (hst.trans hp.1) hp.2)
    fun _ _ hu => hst.trans hu)

theorem ends_useDeclaration (s : State) : Ends useDeclaration s
    (fun _ t => t.functions = s.functions ∧ t.scope = s.scope ∧ ∃ name signature,
      s.isDeclared name = false ∧ t.externs = s.externs ++ [(name, signature)])
    (fun _ t => Untouched s t) := by
  unfold useDeclaration
  refine Passing.token.ends_bind (.refl s) fun start t hst _ => ?_
  refine Passing.bump.ends_bind hst fun _ t hst _ => ?_
  refine (passing_signature t).ends_bind hst fun head t hst _ => ?_
  refine Passing.get.ends_bind hst ?_
  rintro t _ hst rfl
  dsimp only
  split
  · exact (Passing.failAt (Q := fun _ _ => False) _ _).ends_bind hst fun _ _ _ h => h.elim
  next hfree =>
  have hfree : s.isDeclared head.1 = false := by
    simpa only [State.isDeclared, hst.functions, hst.externs, Bool.not_eq_true] using hfree
  refine Passing.kind.ends_bind hst fun found u hsu _ => ?_
  have added : Ends (modify fun s => { s with externs := s.externs ++ [(head.1, head.2)] } :
      ParseM Unit) u
      (fun _ t => t.functions = s.functions ∧ t.scope = s.scope ∧ ∃ name signature,
        s.isDeclared name = false ∧ t.externs = s.externs ++ [(name, signature)])
      (fun _ t => Untouched s t) :=
    ⟨hsu.functions, hsu.scope, head.1, head.2, hfree, congrArg (· ++ _) hsu.externs⟩
  split
  · exact added
  · exact added
  · exact (Passing.failHere (Q := fun _ _ => False) _).ends_bind hsu fun _ _ _ h => h.elim

/-! ### Bodies of functions -/

theorem advance_declareArguments {id : BlockId} (args : List (String × Ty)) (s : State)
    (hs : s.Inside id) : Advance id s (declareArguments s args) := by
  induction args generalizing s with
  | nil => exact .refl id s
  | cons arg args ih =>
    have hdecl := advance_declare hs arg.1 arg.2 false
    exact hdecl.trans hs (ih _ (hdecl.inside hs))

theorem locals_declareArguments {id : BlockId} (args : List (String × Ty)) (s : State)
    (hs : s.Inside id) {b : Block} (hb : s.scope.blocks[id]? = some b) :
    ∃ b', (declareArguments s args).scope.blocks[id]? = some b' ∧ b'.parent = b.parent ∧
      b'.locals.map (fun v => (v.name, v.ty, v.mutable)) =
        b.locals.map (fun v => (v.name, v.ty, v.mutable)) ++
          args.map fun (name, ty) => (name, ty, false) := by
  induction args generalizing s b with
  | nil => exact ⟨b, hb, rfl, by simp⟩
  | cons arg args ih =>
    have hdecl := advance_declare hs arg.1 arg.2 false
    have hb₁ : (s.declare arg.1 arg.2 false).2.scope.blocks[id]? =
        some { b with locals := b.locals ++ [⟨arg.1, arg.2, false, s.scope.slots⟩] } := by
      simp [State.declare, hs.here_eq, hb]
    obtain ⟨b', hb', hp, hl⟩ := ih _ (hdecl.inside hs) hb₁
    refine ⟨b', hb', hp, ?_⟩
    rw [hl]
    simp

def enter (name : String) (signature : Signature) (s : State) : State :=
  { s with scope := { Scope.empty with name, signature } }

theorem functionBody_eq (name : String) (signature : Signature) (s : State) :
    ∃ f : Function, f.signature = signature ∧
      f.WellFormed (fun callee expected =>
        (enter name signature s).signature? callee = some expected) ∧
      (functionBody name signature s).functions = s.functions ++ [(name, f)] ∧
      (functionBody name signature s).externs = s.externs := by
  have hopen : (enter name signature s).openBlock.2.Inside rootBlock := inside_openBlock _
  have hargs := advance_declareArguments signature.args _ hopen
  obtain ⟨t, hbody, heq⟩ := blockBody_eq (reads_operandWithin nestingLimit) (hargs.inside hopen)
  have hall : Advance rootBlock (enter name signature s).openBlock.2 t := hargs.trans hopen hbody
  obtain ⟨b, hb, hp, hl⟩ := locals_declareArguments signature.args _ hopen
    (b := Block.empty none) rfl
  obtain ⟨b', hb', hp', hl', -⟩ := hbody.grows _ _ hb
  have hroot : t.Sound rootBlock := hall.sound (sound_openBlock _)
  have hfun : functionBody name signature s =
      (let read := blockBody (operandWithin nestingLimit) rootBlock
        (declareArguments (enter name signature s).openBlock.2 signature.args)
      { read.2 with
        functions := read.2.functions ++
          [(name, ⟨signature, read.1, read.2.scope.blocks, read.2.scope.slots⟩)]
        scope := .empty }) := rfl
  refine ⟨⟨signature, .block rootBlock b'.ty, t.scope.blocks, t.scope.slots⟩, rfl,
    ⟨?_, ?_, ?_, ?_⟩, ?_, ?_⟩
  · refine ⟨b', hb', hp'.trans hp, ?_, rfl⟩
    have hlen : b.locals.length = signature.args.length := by
      simpa [Block.empty] using congrArg List.length hl
    rw [declaredAs, ← hlen, ← List.prefix_iff_eq_take.1 hl', hl]
    rfl
  · intro id c hid hc
    exact (hall.fresh id c hid hc).1
  · exact hall.slots (List.Perm.refl [])
  · intro id c hc e he
    have hsound : t.Sound id := by
      rcases Nat.eq_zero_or_pos id with rfl | hid
      · exact hroot
      · exact (hall.fresh id c hid hc).2
    obtain ⟨hu, hw⟩ := hsound c hc e he
    exact ⟨hu, hw.grows (Nat.le_refl id) (.refl id _)
      (fun callee expected h => (hall.signature?_eq callee).symm.trans h)
      (congrArg Signature.result hall.signature).symm⟩
  · rw [hfun, heq]
    show t.functions ++ [(name, ⟨signature, .block rootBlock _, t.scope.blocks, t.scope.slots⟩)] = _
    rw [hall.functions, hb']
    rfl
  · rw [hfun, heq]
    exact hall.externs

/-! ### Programs -/

def State.declared (s : State) : Program := ⟨s.functions, s.externs, []⟩

theorem Untouched.declared {s t : State} (h : Untouched s t) : t.declared = s.declared := by
  rw [State.declared, h.functions, h.externs, State.declared]

theorem declares_of_enter {s : State} {name callee : String} {signature expected : Signature}
    (h : (enter name signature s).signature? callee = some expected) :
    s.declared.Declares callee expected ∨ callee = name ∧ expected = signature := by
  simp only [Program.Declares, Program.signature?, Program.function?, State.declared]
  simp only [State.signature?, enter] at h
  cases hf : s.functions.lookup callee with
  | some f => exact .inl (by simpa [hf] using h)
  | none =>
    cases he : s.externs.lookup callee with
    | some found => exact .inl (by simpa [hf, he] using h)
    | none =>
      simp only [hf, he] at h
      obtain ⟨hname, hsignature⟩ := Option.ite_none_right_eq_some.1 h
      exact .inr ⟨hname.symm, (Option.some.inj hsignature).symm⟩

/-- A declaration adds one name, or nothing. -/
theorem adds_declaration (s : State) :
    (declaration s).declared = s.declared ∨ s.declared.Adds (declaration s).declared := by
  have skip {t : State} (p : Problem) (hst : Untouched s t) :
      (t.endDeclaration.report p).declared = s.declared :=
    (hst.trans ((Untouched.endDeclaration t).trans (.report _ p))).declared
  unfold declaration
  split
  · have hhead := ends_iff.1 (passing_functionHead s)
    split
    · next name signature t hrun =>
      obtain ⟨hst, hfunction, hhost⟩ := hhead.1 _ _ hrun
      obtain ⟨f, rfl, hf, hfs, hes⟩ := functionBody_eq name signature t
      have hnew : t.declared.signature? name = none :=
        Program.signature?_eq_none.2 ⟨hfunction, hhost⟩
      have hadds := Program.Adds.function hnew (hf.mono fun _ _ h => declares_of_enter h)
      have hafter : (functionBody name f.signature t).declared =
          { t.declared with functions := t.declared.functions ++ [(name, f)] } := by
        simp only [State.declared, hfs, hes]
      rw [hafter, ← hst.declared]
      exact .inr hadds
    · next problem t hrun => exact .inl (skip problem (hhead.2 _ _ hrun))
  · have huse := ends_iff.1 (ends_useDeclaration s)
    split
    · next t hrun =>
      obtain ⟨hfs, -, name, signature, hfree, hes⟩ := huse.1 _ _ hrun
      have hnew : s.declared.signature? name = none := by
        apply Program.signature?_eq_none.2
        simpa [State.isDeclared, State.declared] using hfree
      have hafter : t.declared =
          { s.declared with externs := s.declared.externs ++ [(name, signature)] } := by
        simp only [State.declared, hfs, hes]
      rw [hafter]
      exact .inr (.outside hnew)
    · next problem t hrun => exact .inl (skip problem (huse.2 _ _ hrun))
  · exact .inl (Untouched.bump s).declared
  · exact .inl (skip _ (.refl s))

theorem built_declarations (bound : Nat) {s : State} (h : s.declared.Built) :
    (declarations bound s).declared.Built := by
  induction bound generalizing s with
  | zero => exact h
  | succ bound ih =>
    rw [declarations]
    split
    · exact h
    · apply ih
      rcases adds_declaration s with hsame | hadds
      · rwa [hsame]
      · exact h.add hadds

end Grammar

theorem Program.built_parse (source : List Char) :
    Built ⟨(Program.parse source).functions, (Program.parse source).externs, []⟩ :=
  Grammar.built_declarations (Grammar.State.ofSource source).remaining .nothing

theorem Program.ordered_parse (source : List Char) : (Program.parse source).Ordered :=
  have h := (Program.built_parse source).ordered
  ⟨h.functions, h.names⟩

/-- Every function of a program that was read is well-formed, whatever is wrong in its source. -/
theorem Program.wellFormed_parse (source : List Char) :
    ∀ entry ∈ (Program.parse source).functions,
      entry.2.WellFormed (Program.parse source).Declares :=
  (Program.ordered_parse source).functions

def misread : List Char := 
  "func f(x: Float64) \x7b\n let a = \x7b\n var b = x + c\n x\n\x7d\n a\n\x7d".toList

theorem Program.wellFormed_parse_misread : 0 < (Program.parse misread).errorCount ∧
    ∃ entry, (Program.parse misread).functions = [entry] ∧
      entry.2.WellFormed (Program.parse misread).Declares := by
  obtain ⟨entry, hentry⟩ : ∃ entry, (Program.parse misread).functions = [entry] :=
    List.length_eq_one_iff.1 (by decide +kernel)
  refine ⟨by decide +kernel, entry, hentry, ?_⟩
  exact Program.wellFormed_parse misread entry (by rw [hentry]; exact List.mem_singleton_self _)

end ScalarJit
