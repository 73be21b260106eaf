import ScalarJit.Proofs.Language.Sound

/-! # What is declared is in the language

Heads of declarations are read without blocks, so that nothing in them is reported and read on. A
source that is read to its end without complaint is a program. -/

namespace ScalarJit.Grammar

variable {w : World} {m : Mode} {s : State} {σ : Scope} {toks : List TokenKind}

/-! ### Heads -/

theorem ends_declaredArguments (bound : Nat) (args : List (String × Ty)) (toks : List TokenKind)
    (s : State) (hs : Stands w m σ toks s) (hbound : toks.length ≤ bound) :
    Ends (declaredArguments bound args) s (fun all t => ∃ more rest, all = args ++ more ∧
      Stands w m σ (.symbol .closedBracket :: rest) t ∧
      Parameters (args.map (·.1)) more toks (.symbol .closedBracket :: rest)) fun _ _ => True := by
  induction bound generalizing args toks s with
  | zero =>
    obtain ⟨rest, rfl⟩ := hs.cons
    exact absurd hbound (Nat.not_succ_le_zero _)
  | succ bound ih =>
    rw [declaredArguments]
    obtain ⟨input, rfl⟩ := hs.cons
    refine (ends_bind _ _).2 (ends_token.2 ((ends_bind _ _).2 ?_))
    refine (ends_identifier _).2 ⟨fun name hname => ?_, fun _ => trivial⟩
    rw [hname] at hs ⊢
    have hone := hs.bump (by simp) rfl
    obtain ⟨input, rfl⟩ := hone.cons
    refine (ends_bind _ _).2 ((ends_expectSymbol _ _).2 ⟨fun hcolon => ?_, fun _ => trivial⟩)
    rw [hcolon] at hone ⊢
    have htwo := hone.bump (by simp) rfl
    obtain ⟨input, rfl⟩ := htwo.cons
    refine (ends_bind _ _).2
      (ends_typeName.2 ⟨fun tyName htyName ty hty => ?_, fun _ _ _ => trivial, fun _ => trivial⟩)
    rw [htyName] at htwo ⊢
    have hthree := htwo.bump (by simp) rfl
    obtain ⟨input, rfl⟩ := hthree.cons
    dsimp only
    split
    · trivial
    next hfresh =>
    have hname : name ∉ args.map (·.1) := by
      intro hmem
      obtain ⟨arg, harg, rfl⟩ := List.mem_map.1 hmem
      exact hfresh (List.any_eq_true.2 ⟨arg, harg, by simp⟩)
    refine (ends_bind _ _).2 (ends_kind.2 ?_)
    split
    · next hk =>
      rw [hk] at hthree ⊢
      have hnext := hthree.bump (by simp) rfl
      simp only [List.length_cons] at hbound
      refine (ends_bind _ _).2 (ends_bump.2 ?_)
      refine (ih (args ++ [(name, ty)]) input _ hnext (by omega)).mono ?_ fun _ _ _ => trivial
      rintro all t ⟨more, rest, rfl, ht, hparameters⟩
      refine ⟨(name, ty) :: more, rest, List.append_assoc .., ht, ?_⟩
      rw [List.map_append] at hparameters
      cases more with
      | nil => cases hparameters
      | cons next more => exact .more hty hname hparameters
    · next hk =>
      rw [hk] at hthree ⊢
      exact ⟨[(name, ty)], input, rfl, hthree, .last hty hname⟩
    · trivial

theorem ends_result (name : String) (args : List (String × Ty)) {rest : List TokenKind}
    (hs : Stands w (m.after (.symbol .openBracket)) σ (.symbol .closedBracket :: rest) s) :
    Ends (do
      closeBracket
      let result ←
        if (← kind) = .symbol .arrow then
          bump
          typeName
        else pure .void
      return (name, ⟨args, result⟩) : ParseM (Named Signature)) s
        (fun head t => ∃ result last, head = (name, ⟨args, result⟩) ∧ Result result rest last ∧
          Stands w m σ last t) fun _ _ => True := by
  have hout : Stands w m σ rest { s with brackets := s.brackets - 1 }.bump :=
    hs.bump_brackets (by simp) (s.brackets - 1) (by rw [hs.brackets]; rfl)
  refine (ends_bind _ _).2 (ends_closeBracket.2 ((ends_bind _ _).2 (ends_kind.2 ?_)))
  dsimp only
  split
  · next harrow =>
    obtain ⟨rest, rfl⟩ := hout.cons
    rw [harrow] at hout ⊢
    have hnext := hout.bump (by simp) rfl
    refine (ends_bind _ _).2 (ends_bump.2 ((ends_bind _ _).2 ?_))
    refine ends_typeName.2 ⟨fun tyName htyName ty hty => ?_, fun _ _ _ => trivial, fun _ => trivial⟩
    obtain ⟨rest, rfl⟩ := hnext.cons
    rw [htyName] at hnext ⊢
    exact ⟨ty, rest, rfl, .arrow hty, hnext.bump (by simp) rfl⟩
  · exact (ends_bind _ _).2 ((ends_pure _).2 ⟨.void, rest, rfl, .void, hout⟩)

theorem ends_signature (hs : Stands w m σ toks s) :
    Ends signature s (fun head t => ∃ rest, Stands w m σ rest t ∧ Head head toks rest)
      fun _ _ => True := by
  unfold signature
  obtain ⟨input, rfl⟩ := hs.cons
  refine (ends_bind _ _).2 ((ends_identifier _).2 ⟨fun name hname => ?_, fun _ => trivial⟩)
  rw [hname] at hs ⊢
  have hone := hs.bump (by simp) rfl
  obtain ⟨input, rfl⟩ := hone.cons
  refine (ends_bind _ _).2 (ends_kind.2 ?_)
  dsimp only
  split
  · trivial
  next hopen =>
  rw [Decidable.not_not.1 hopen] at hone ⊢
  have htwo := hone.bump_brackets (by simp) (s.bump.brackets + 1) (by rw [hone.brackets]; rfl)
  refine (ends_bind _ _).2 (ends_openBracket.2 ((ends_bind _ _).2 (ends_kind.2 ?_)))
  split
  · next hclosed =>
    obtain ⟨rest, rfl⟩ := htwo.cons
    rw [hclosed] at htwo ⊢
    refine (ends_bind _ _).2 ((ends_pure _).2 ((ends_result name [] htwo).mono ?_ fun _ _ _ => trivial))
    rintro _ t ⟨result, last, rfl, hresult, ht⟩
    exact ⟨last, ht, .noArguments hresult⟩
  · refine (ends_bind _ _).2 (ends_get.2 ((ends_bind _ _).2 ?_))
    refine (ends_declaredArguments _ [] input _ htwo htwo.length_le).mono ?_ fun _ _ _ => trivial
    rintro args t ⟨more, rest, hargs, ht, hparameters⟩
    rw [List.nil_append] at hargs
    subst hargs
    refine (ends_result name args ht).mono ?_ fun _ _ _ => trivial
    rintro _ u ⟨result, last, rfl, hresult, hu⟩
    exact ⟨last, hu, .arguments hparameters hresult⟩

theorem read_useDeclaration {input : List TokenKind}
    (hs : Stands w m σ (.keyword .uses :: input) s) :
    Ends useDeclaration s (fun _ t => ∃ name signature rest, Head (name, signature) input rest ∧
      (rest.head? = some .newline ∨ rest.head? = some .endOfFile) ∧
      w.functions.lookup name = none ∧ w.externs.lookup name = none ∧
      Stands { w with externs := w.externs ++ [(name, signature)] } m σ rest t) fun _ _ => True := by
  unfold useDeclaration
  have hone := hs.bump (by simp) rfl
  refine (ends_bind _ _).2 (ends_token.2 ((ends_bind _ _).2 (ends_bump.2 ((ends_bind _ _).2 ?_))))
  refine (ends_signature hone).mono ?_ fun _ _ _ => trivial
  rintro ⟨name, signature⟩ t ⟨rest, ht, hhead⟩
  refine (ends_bind _ _).2 (ends_get.2 ?_)
  dsimp only
  split
  · trivial
  next hfresh =>
  have hnone : w.functions.lookup name = none ∧ w.externs.lookup name = none := by
    rw [State.isDeclared, ht.functions, ht.externs, Bool.or_eq_true, not_or] at hfresh
    exact ⟨Option.not_isSome_iff_eq_none.1 hfresh.1, Option.not_isSome_iff_eq_none.1 hfresh.2⟩
  have hused : Stands { w with externs := w.externs ++ [(name, signature)] } m σ rest
      { t with externs := t.externs ++ [(name, signature)] } :=
    ⟨ht.clean, ht.functions, by rw [ht.externs], ht.errors, ht.brackets, ht.nesting,
      ht.scope, ht.tokens⟩
  obtain ⟨more, rfl⟩ := ht.cons
  refine (ends_bind _ _).2 (ends_kind.2 ?_)
  split
  · next hk => exact ⟨name, signature, _, hhead, .inl (congrArg some hk), hnone.1, hnone.2, hused⟩
  · next hk => exact ⟨name, signature, _, hhead, .inr (congrArg some hk), hnone.1, hnone.2, hused⟩
  · trivial

theorem Stands.skipNewlines (bound : Nat) (toks : List TokenKind) (s : State)
    (hs : Stands w m σ toks s) : ∃ lines mid, toks = List.replicate lines .newline ++ mid ∧
      Stands w m σ mid (skipNewlines bound s) := by
  induction bound generalizing toks s with
  | zero => exact ⟨0, toks, rfl, hs⟩
  | succ bound ih =>
    rw [Grammar.skipNewlines]
    split
    · next hk =>
      obtain ⟨rest, rfl⟩ := hs.cons
      rw [hk] at hs ⊢
      obtain ⟨lines, mid, rfl, hmid⟩ := ih rest s.bump (hs.bump (by simp) rfl)
      exact ⟨lines + 1, mid, rfl, hmid⟩
    · exact ⟨0, toks, rfl, hs⟩

theorem ends_functionHead {input : List TokenKind}
    (hs : Stands w m σ (.keyword .function :: input) s) :
    Ends functionHead s (fun head t => ∃ lines mid,
      Head head input (List.replicate lines .newline ++ .symbol .openCurly :: mid) ∧
      w.functions.lookup head.1 = none ∧ w.externs.lookup head.1 = none ∧
      Stands w m σ (.symbol .openCurly :: mid) t) fun _ _ => True := by
  unfold functionHead
  have hone := hs.bump (by simp) rfl
  refine (ends_bind _ _).2 (ends_token.2 ((ends_bind _ _).2 (ends_bump.2 ((ends_bind _ _).2 ?_))))
  refine (ends_signature hone).mono ?_ fun _ _ _ => trivial
  rintro ⟨name, signature⟩ t ⟨rest, ht, hhead⟩
  refine (ends_bind _ _).2 (ends_get.2 ?_)
  dsimp only
  split
  · trivial
  next hextern =>
  refine (ends_bind _ _).2 (ends_get.2 ?_)
  split
  · trivial
  next hfunction =>
  obtain ⟨lines, mid, rfl, hmid⟩ := Stands.skipNewlines t.remaining rest t ht
  refine (ends_bind _ _).2 ((ends_modify _).2 ((ends_bind _ _).2 (ends_kind.2 ?_)))
  split
  · trivial
  next hcurly =>
  obtain ⟨more, rfl⟩ := hmid.cons
  rw [Decidable.not_not.1 hcurly] at hmid hhead
  rw [ht.externs] at hextern
  rw [ht.functions] at hfunction
  exact ⟨lines, more, hhead, Option.not_isSome_iff_eq_none.1 hfunction,
    Option.not_isSome_iff_eq_none.1 hextern, hmid⟩

/-! ### Functions -/

theorem Stands.declareArguments (args : List (String × Ty)) (σ : Scope) (s : State)
    (hs : Stands w m σ toks s) :
    Stands w m (args.foldl (fun σ arg => σ.declare arg.1 arg.2 false) σ) toks
      (declareArguments s args) := by
  induction args generalizing σ s with
  | nil => exact hs
  | cons arg args ih => exact ih _ _ (hs.declare arg.1 arg.2 false).2

def atBody (name : String) (signature : Signature) (s : State) : State :=
  declareArguments ({ s with scope := { Scope.empty with name, signature } } : State).openBlock.2
    signature.args

def behindBody (name : String) (signature : Signature) (body : Expr) (s : State) : State :=
  { s with
    functions := s.functions ++ [(name, ⟨signature, body, s.scope.blocks, s.scope.slots⟩)]
    scope := .empty }

theorem functionBody_eq_behindBody (name : String) (signature : Signature) (s : State) :
    functionBody name signature s = behindBody name signature
      (blockBody (operandWithin nestingLimit) rootBlock (atBody name signature s)).1
      (blockBody (operandWithin nestingLimit) rootBlock (atBody name signature s)).2 := rfl

theorem Stands.atBody (hs : Stands w m σ toks s) (name : String) (signature : Signature) :
    Stands w m (.ofHead name signature) toks (atBody name signature s) :=
  Stands.declareArguments signature.args _ _ (hs.withScope _).openBlock.2

theorem Stands.behindBody (hs : Stands w m σ toks s) (name : String) (signature : Signature)
    (body : Expr) :
    Stands { w with functions := w.functions ++ [(name, ⟨signature, body, σ.blocks, σ.slots⟩)] } m
      .empty toks (behindBody name signature body s) :=
  ⟨hs.clean, by rw [← hs.functions, ← hs.scope]; rfl, hs.externs, hs.errors, hs.brackets,
    hs.nesting, rfl, hs.tokens⟩

theorem atBody_eq (name : String) (signature : Signature) (s : State) :
    ∃ scope, atBody name signature s = { s with scope := scope } := by
  have hargs : ∀ (args : List (String × Ty)) (t : State),
      ∃ scope, declareArguments t args = { t with scope := scope } := by
    intro args
    induction args with
    | nil => exact fun t => ⟨t.scope, rfl⟩
    | cons arg args ih => exact fun t => ih (t.declare arg.1 arg.2 false).2
  exact hargs _ _

/-! ### Programs -/

section
variable {R : State → State → Prop} (hR : Motion R)
  (hscope : ∀ (s : State) (functions : List (Named Function)) (scope : Scope),
    R s { s with functions := functions, scope := scope })
include hR hscope

theorem Motion.functionBody (name : String) (signature : Signature) (s : State) :
    R s (functionBody name signature s) := by
  obtain ⟨scope, heq⟩ := atBody_eq name signature s
  have hat : R s (atBody name signature s) := heq ▸ hscope s s.functions scope
  have hread := hR.blockBody (hR.keeps_operandWithin nestingLimit) rootBlock (atBody name signature s)
  rw [functionBody_eq_behindBody]
  exact hR.trans (hR.trans hat hread) (hscope _ _ _)

theorem Motion.declaration (s : State) : R s (declaration s) := by
  have recovered : ∀ (p : Problem) {t : State}, R s t → R s (t.endDeclaration.report p) :=
    fun p t hst => hR.trans hst (hR.trans (hR.endDeclaration t) (hR.report _ p))
  have hhead := ends_iff.1 (hR.keeps_functionHead s)
  have huse := ends_iff.1 (hR.keeps_useDeclaration s)
  unfold Grammar.declaration
  split
  · split
    · next name signature t hrun =>
      exact hR.trans (hhead.1 _ _ hrun) (Motion.functionBody hR hscope name signature t)
    · next p t hrun => exact recovered p (hhead.2 _ _ hrun)
  · split
    · next t hrun => exact huse.1 _ _ hrun
    · next p t hrun => exact recovered p (huse.2 _ _ hrun)
  · exact hR.bump s
  · exact recovered _ (hR.refl s)

theorem Motion.declarations (bound : Nat) (s : State) : R s (declarations bound s) := by
  induction bound generalizing s with
  | zero => exact hR.refl s
  | succ bound ih =>
    rw [Grammar.declarations]
    split
    · exact hR.refl s
    · exact hR.trans (Motion.declaration hR hscope s) (ih _)

end

theorem errors_declaration (s : State) : s.errors ≤ (declaration s).errors :=
  motion_louder.declaration (fun s _ _ => Nat.le_refl s.errors) s

theorem errors_declarations (bound : Nat) (s : State) :
    s.errors ≤ (declarations bound s).errors :=
  motion_louder.declarations (fun s _ _ => Nat.le_refl s.errors) bound s

theorem Parameters.length_lt {seen : List String} {args : List (String × Ty)}
    {input rest : List TokenKind} (h : Parameters seen args input rest) : rest.length < input.length := by
  induction h with
  | last _ _ =>
    simp only [List.length_cons]
    omega
  | more _ _ _ ih =>
    simp only [List.length_cons]
    omega

theorem Result.length_le {result : Ty} {input rest : List TokenKind} (h : Result result input rest) :
    rest.length ≤ input.length := by
  cases h with
  | void => exact Nat.le_refl _
  | arrow _ =>
    simp only [List.length_cons]
    omega

theorem Head.length_lt {head : Named Signature} {input rest : List TokenKind}
    (h : Head head input rest) : rest.length < input.length := by
  cases h with
  | noArguments hresult =>
    have hle := hresult.length_le
    simp only [List.length_cons]
    omega
  | arguments hargs hresult =>
    have hlt := hargs.length_lt
    have hle := hresult.length_le
    simp only [List.length_cons] at hlt ⊢
    omega

theorem lt_errors_endDeclaration {n : Nat} (h : n ≤ s.errors) (p : Problem) :
    n < (s.endDeclaration.report p).errors := by
  have hend : s.errors ≤ s.endDeclaration.errors := motion_louder.endDeclaration s
  have hreport := s.endDeclaration.errors_report p
  omega

theorem read_declarations (bound : Nat) (w : World) (toks : List TokenKind) (s : State)
    (hs : Stands w ⟨0, []⟩ .empty toks s) (hbound : toks.length ≤ bound)
    (hquiet : (declarations bound s).errors = w.errors) :
    Declares w.functions w.externs toks (declarations bound s).functions
      (declarations bound s).externs := by
  induction bound generalizing w toks s with
  | zero =>
    obtain ⟨rest, rfl⟩ := hs.cons
    exact absurd hbound (Nat.not_succ_le_zero _)
  | succ bound ih =>
    rw [declarations] at hquiet ⊢
    by_cases heof : s.token.kind = .endOfFile
    · have htokens := hs.tokens
      rw [if_pos heof] at htokens
      rw [if_pos heof, htokens, hs.functions, hs.externs]
      exact .done
    rw [if_neg heof] at hquiet ⊢
    have hlater := errors_declarations bound (declaration s)
    have hnow := errors_declaration s
    have hcalm : (declaration s).errors = w.errors := by
      have herrors := hs.errors
      omega
    have hrecovered : ∀ (p : Problem) (t : State), s.errors ≤ t.errors →
        (t.endDeclaration.report p).errors ≠ w.errors := fun p t hle =>
      Nat.ne_of_gt (lt_errors_endDeclaration (hs.errors ▸ hle) p)
    obtain ⟨input, rfl⟩ := hs.cons
    generalize hnext : declaration s = next at hquiet hcalm hlater hnow ⊢
    unfold declaration at hnext
    -- Where a declaration fails something is reported, so this one was read to its end.
    split at hnext
    · next hk =>
      rw [hk] at hs hbound ⊢
      have hhead := ends_iff.1 (ends_functionHead hs)
      split at hnext
      · next name signature t hrun =>
        obtain ⟨lines, mid, hhead, hf, he, ht⟩ := hhead.1 _ _ hrun
        have hat := ht.atBody name signature
        subst hnext
        rw [functionBody_eq_behindBody] at hcalm hquiet ⊢
        obtain ⟨σ', rest, hbehind, hbody⟩ := read_blockBody (soundOperand_operandWithin w nestingLimit)
          rootBlock hat hcalm
        have hdone := hbehind.behindBody name signature
          (blockBody (operandWithin nestingLimit) rootBlock (atBody name signature t)).1
        have hlt := hhead.length_lt
        have hle := hbody.length_le
        simp only [List.length_append, List.length_cons, List.length_replicate, Form.least]
          at hlt hle hbound
        exact .function hhead hf he hbody (ih _ rest _ hdone (by omega) hquiet)
      · next p t hrun =>
        have hle := (ends_iff.1 (motion_louder.keeps_functionHead s)).2 _ _ hrun
        exact absurd (hnext ▸ hcalm) (hrecovered p t hle)
    · next hk =>
      rw [hk] at hs hbound ⊢
      have huse := ends_iff.1 (read_useDeclaration hs)
      split at hnext
      · next t hrun =>
        obtain ⟨name, signature, rest, hhead, hend, hf, he, ht⟩ := huse.1 _ _ hrun
        subst hnext
        have hlt := hhead.length_lt
        simp only [List.length_cons] at hbound
        exact .used hhead hend hf he (ih _ rest _ ht (by omega) hquiet)
      · next p t hrun =>
        have hle := (ends_iff.1 (motion_louder.keeps_useDeclaration s)).2 _ _ hrun
        exact absurd (hnext ▸ hcalm) (hrecovered p t hle)
    · next hk =>
      rw [hk] at hs hbound ⊢
      subst hnext
      exact .newline (ih w input s.bump (hs.bump (by simp) rfl) (Nat.le_of_succ_le_succ hbound) hquiet)
    · exact absurd (hnext ▸ hcalm) (hrecovered _ s (Nat.le_refl _))

end ScalarJit.Grammar
