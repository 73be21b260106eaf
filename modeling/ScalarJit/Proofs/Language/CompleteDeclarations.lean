import ScalarJit.Proofs.Language.Complete
import ScalarJit.Proofs.Language.SoundDeclarations

/-! # Programs are read

A source without lexical faults is read without complaint if, and only if, it is in the language, and
then it is read as the program that it spells. -/

namespace ScalarJit
namespace Grammar

section
variable {w : World} {m : Mode} {s : State} {σ : Scope} {input rest : List TokenKind}

/-! ### Heads -/

theorem succeeds_declaredArguments {bound : Nat} {args : List (String × Ty)} {name typeName : String}
    {ty : Ty} {Q : List (String × Ty) → State → Prop} (hty : Ty.ofName? typeName = some ty)
    (hname : name ∉ args.map (·.1))
    (hs : Stands w m σ (.identifier name :: .symbol .colon :: .identifier typeName :: rest) s)
    (next : ∀ t, Stands w m σ rest t → Succeeds (match t.token.kind with
      | .symbol .comma => do
        bump
        declaredArguments bound (args ++ [(name, ty)])
      | .symbol .closedBracket => return args ++ [(name, ty)]
      | _ => failHere .unfinishedArgumentList) t Q) :
    Succeeds (declaredArguments (bound + 1) args) s Q := by
  have hfresh : ¬args.any (·.1 == name) = true := by
    intro hany
    obtain ⟨arg, harg, heq⟩ := List.any_eq_true.1 hany
    exact hname (List.mem_map.2 ⟨arg, harg, beq_iff_eq.1 heq⟩)
  rw [declaredArguments]
  refine (ends_bind _ _).2 (ends_token.2 ?_)
  refine reads_identifier.bind hs fun t ht => ?_
  refine (reads_expectSymbol fun _ => rfl).bind ht fun t ht => ?_
  refine (reads_typeName hty).bind ht fun t ht => ?_
  dsimp only
  rw [if_neg hfresh]
  exact (ends_bind _ _).2 (ends_kind.2 (next t ht))

theorem Parameters.reads {seen : List String} {more : List (String × Ty)} {last : List TokenKind}
    (h : Parameters seen more input last) (args : List (String × Ty)) (bound : Nat)
    (hseen : seen = args.map (·.1)) (hlast : last = .symbol .closedBracket :: rest)
    (hbound : input.length ≤ bound) :
    ReadsAs w (declaredArguments bound args) (args ++ more) σ input σ last := by
  induction h generalizing args bound with
  | last hty hname =>
    subst hlast hseen
    simp only [List.length_cons] at hbound
    obtain ⟨bound, rfl⟩ : ∃ b, bound = b + 1 := ⟨bound - 1, by omega⟩
    intro m s hs
    refine succeeds_declaredArguments hty hname hs fun t ht => ?_
    rw [ht.kind_eq]
    exact ⟨rfl, ht⟩
  | @more _ name _ ty _ _ _ _ hty hname _ ih =>
    subst hlast hseen
    simp only [List.length_cons] at hbound
    obtain ⟨bound, rfl⟩ : ∃ b, bound = b + 1 := ⟨bound - 1, by omega⟩
    intro m s hs
    refine succeeds_declaredArguments hty hname hs fun t ht => ?_
    rw [ht.kind_eq]
    have hrest := ih (args ++ [(name, ty)]) bound (by rw [List.map_append]; rfl) rfl (by omega)
      m t.bump (ht.bump (by simp) rfl)
    rw [List.append_assoc] at hrest
    exact (ends_bind _ _).2 (ends_bump.2 hrest)

theorem Parameters.starts {seen : List String} {args : List (String × Ty)}
    (h : Parameters seen args input rest) : ∃ name more, input = .identifier name :: more := by
  cases h with
  | last _ _ => exact ⟨_, _, rfl⟩
  | more _ _ _ => exact ⟨_, _, rfl⟩

theorem succeeds_result {name : String} {args : List (String × Ty)} {result : Ty}
    (hresult : Result result input rest) (harrow : ∀ more, rest ≠ .symbol .arrow :: more)
    (hs : Stands w (m.after (.symbol .openBracket)) σ (.symbol .closedBracket :: input) s) :
    Succeeds (do
      closeBracket
      let result ←
        if (← kind) = .symbol .arrow then
          bump
          typeName
        else pure .void
      return (name, ⟨args, result⟩) : ParseM (Named Signature)) s fun head t =>
        head = (name, ⟨args, result⟩) ∧ Stands w m σ rest t := by
  have hout : Stands w m σ input { s with brackets := s.brackets - 1 }.bump :=
    hs.bump_brackets (by simp) (s.brackets - 1) (by rw [hs.brackets]; rfl)
  refine (ends_bind _ _).2 (ends_closeBracket.2 ((ends_bind _ _).2 (ends_kind.2 ?_)))
  dsimp only
  cases hresult with
  | void =>
    obtain ⟨more, hcons⟩ := hout.cons
    rw [if_neg (fun hk => harrow more (by rw [hcons, hk]))]
    exact (ends_bind _ _).2 ((ends_pure _).2 ⟨rfl, hout⟩)
  | arrow hty =>
    rw [if_pos hout.kind_eq]
    refine (ends_bind _ _).2 (ends_bump.2 ?_)
    exact (reads_typeName hty).bind (hout.bump (by simp) rfl) fun t ht => ⟨rfl, ht⟩

theorem Head.reads {head : Named Signature} (h : Head head input rest)
    (harrow : ∀ more, rest ≠ .symbol .arrow :: more) : ReadsAs w signature head σ input σ rest := by
  intro m s hs
  unfold signature
  cases h with
  | noArguments hresult =>
    refine reads_identifier.bind hs fun t ht => (ends_bind _ _).2 (ends_kind.2 ?_)
    dsimp only
    rw [if_neg (fun hne => hne ht.kind_eq)]
    have hone := ht.bump_brackets (by simp) (t.brackets + 1) (by rw [ht.brackets]; rfl)
    refine (ends_bind _ _).2 (ends_openBracket.2 ((ends_bind _ _).2 (ends_kind.2 ?_)))
    rw [if_pos hone.kind_eq]
    exact (ends_bind _ _).2 ((ends_pure _).2 (succeeds_result hresult harrow hone))
  | arguments hargs hresult =>
    obtain ⟨name, more, rfl⟩ := hargs.starts
    refine reads_identifier.bind hs fun t ht => (ends_bind _ _).2 (ends_kind.2 ?_)
    dsimp only
    rw [if_neg (fun hne => hne ht.kind_eq)]
    have hone := ht.bump_brackets (by simp) (t.brackets + 1) (by rw [ht.brackets]; rfl)
    refine (ends_bind _ _).2 (ends_openBracket.2 ((ends_bind _ _).2 (ends_kind.2 ?_)))
    rw [if_neg (by rw [hone.kind_eq]; simp)]
    refine (ends_bind _ _).2 (ends_get.2 ?_)
    refine (hargs.reads [] _ rfl rfl hone.length_le).bind hone fun u hu => ?_
    exact succeeds_result hresult harrow hu

/-! ### Declarations -/

theorem succeeds_useDeclaration {name : String} {signature : Signature}
    (hs : Stands w m σ (.keyword .uses :: input) s) (hhead : Head (name, signature) input rest)
    (hend : rest.head? = some .newline ∨ rest.head? = some .endOfFile)
    (hf : w.functions.lookup name = none) (he : w.externs.lookup name = none) :
    Succeeds useDeclaration s fun _ t =>
      Stands { w with externs := w.externs ++ [(name, signature)] } m σ rest t := by
  have harrow : ∀ more, rest ≠ .symbol .arrow :: more := by
    rintro more rfl
    rcases hend with h | h <;> cases h
  unfold useDeclaration
  refine (ends_bind _ _).2 (ends_token.2 ((ends_bind _ _).2 (ends_bump.2 ?_)))
  refine (hhead.reads harrow).bind (hs.bump (by simp) rfl) fun t ht => ?_
  refine (ends_bind _ _).2 (ends_get.2 ?_)
  dsimp only
  rw [State.isDeclared, ht.functions, ht.externs, hf, he]
  rw [if_neg (by simp)]
  have hused : Stands { w with externs := w.externs ++ [(name, signature)] } m σ rest
      { t with externs := t.externs ++ [(name, signature)] } :=
    ⟨ht.clean, ht.functions, by rw [ht.externs], ht.errors, ht.brackets, ht.nesting,
      ht.scope, ht.tokens⟩
  obtain ⟨more, rfl⟩ := ht.cons
  refine (ends_bind _ _).2 (ends_kind.2 ?_)
  rcases hend with h | h
  · rw [Option.some_inj.1 h] at hused ⊢
    exact hused
  · rw [Option.some_inj.1 h] at hused ⊢
    exact hused

theorem skipNewlines_replicate {lines : Nat} {k : TokenKind} (hk : k ≠ .newline) (bound : Nat)
    (hs : Stands w m σ (List.replicate lines .newline ++ k :: rest) s) (hbound : lines ≤ bound) :
    Stands w m σ (k :: rest) (skipNewlines bound s) := by
  induction lines generalizing s bound with
  | zero =>
    have hs : Stands w m σ (k :: rest) s := hs
    cases bound with
    | zero => exact hs
    | succ bound =>
      rw [skipNewlines, if_neg (by rw [hs.kind_eq]; exact hk)]
      exact hs
  | succ lines ih =>
    obtain ⟨bound, rfl⟩ : ∃ b, bound = b + 1 := ⟨bound - 1, by omega⟩
    have hs : Stands w m σ (.newline :: (List.replicate lines .newline ++ k :: rest)) s := hs
    rw [skipNewlines, if_pos hs.kind_eq]
    exact ih bound (hs.bump (by simp) rfl) (by omega)

theorem succeeds_functionHead {head : Named Signature} {lines : Nat}
    (hs : Stands w m σ (.keyword .function :: input) s)
    (hhead : Head head input (List.replicate lines .newline ++ .symbol .openCurly :: rest))
    (hf : w.functions.lookup head.1 = none) (he : w.externs.lookup head.1 = none) :
    Succeeds functionHead s fun head' t =>
      head' = head ∧ Stands w m σ (.symbol .openCurly :: rest) t := by
  have harrow : ∀ more,
      List.replicate lines .newline ++ .symbol .openCurly :: rest ≠ .symbol .arrow :: more := by
    intro more heq
    cases lines <;> cases heq
  unfold functionHead
  refine (ends_bind _ _).2 (ends_token.2 ((ends_bind _ _).2 (ends_bump.2 ?_)))
  refine (hhead.reads harrow).bind (hs.bump (by simp) rfl) fun t ht => ?_
  refine (ends_bind _ _).2 (ends_get.2 ?_)
  dsimp only
  rw [ht.externs, he, if_neg (by simp)]
  refine (ends_bind _ _).2 (ends_get.2 ?_)
  rw [ht.functions, hf, if_neg (by simp)]
  have hlen := ht.length_le
  rw [List.length_append, List.length_replicate] at hlen
  have hbody := skipNewlines_replicate (by simp) t.remaining ht (by omega)
  refine (ends_bind _ _).2 ((ends_modify _).2 ((ends_bind _ _).2 (ends_kind.2 ?_)))
  rw [if_neg (fun hne => hne hbody.kind_eq)]
  exact ⟨rfl, hbody⟩

/-! ### Steps of a program -/

theorem Stands.declaration_newline (hs : Stands w m σ (.newline :: rest) s) :
    Stands w m σ rest (declaration s) := by
  rw [declaration, hs.kind_eq]
  exact hs.bump (by simp) rfl

theorem Stands.declaration_used {name : String} {signature : Signature}
    (hs : Stands w m σ (.keyword .uses :: input) s) (hhead : Head (name, signature) input rest)
    (hend : rest.head? = some .newline ∨ rest.head? = some .endOfFile)
    (hf : w.functions.lookup name = none) (he : w.externs.lookup name = none) :
    Stands { w with externs := w.externs ++ [(name, signature)] } m σ rest (declaration s) := by
  obtain ⟨_, t, hrun, ht⟩ := (succeeds_useDeclaration hs hhead hend hf he).run
  have hrun : useDeclaration.run s = .ok _ t := hrun
  rw [declaration, hs.kind_eq]
  dsimp only
  rw [hrun]
  exact ht

theorem Stands.declaration_function {name : String} {signature : Signature} {body : Expr} {σ' : Scope}
    {lines : Nat} {mid : List TokenKind} (hs : Stands w m σ (.keyword .function :: input) s)
    (houter : w.nesting = 0) (hhead : Head (name, signature) input (List.replicate lines .newline ++ mid))
    (hf : w.functions.lookup name = none) (he : w.externs.lookup name = none)
    (hbody : Derives w.functions w.externs nestingLimit (.body rootBlock body)
      (.ofHead name signature) mid σ' rest) :
    Stands { w with functions := w.functions ++ [(name, ⟨signature, body, σ'.blocks, σ'.slots⟩)] } m
      .empty rest (declaration s) := by
  obtain ⟨more, rfl⟩ := hbody.starts
  obtain ⟨_, t, hrun, rfl, ht⟩ := (succeeds_functionHead hs hhead hf he).run
  have hrun : functionHead.run s = .ok (name, signature) t := hrun
  obtain ⟨htree, hbehind⟩ := hbody.complete (by omega) _ _ (ht.atBody name signature)
  have hnext := hbehind.behindBody name signature body
  rw [declaration, hs.kind_eq]
  dsimp only
  rw [hrun]
  dsimp only
  rw [functionBody_eq_behindBody, htree]
  exact hnext

theorem Stands.declarations_succ {k : TokenKind} (hs : Stands w m σ (k :: rest) s)
    (hk : k ≠ .endOfFile) (bound : Nat) :
    declarations (bound + 1) s = declarations bound (declaration s) := by
  rw [declarations, if_neg]
  rwa [hs.kind_eq]

end

theorem Declares.complete {functions functions' : List (Named Function)}
    {externs externs' : List (Named Signature)} {input : List TokenKind}
    (h : Declares functions externs input functions' externs') (errors bound : Nat) (s : State)
    (hs : Stands ⟨functions, externs, errors, 0⟩ ⟨0, []⟩ .empty input s) (hbound : input.length ≤ bound) :
    (declarations bound s).errors = errors ∧ (declarations bound s).functions = functions' ∧
      (declarations bound s).externs = externs' := by
  induction h generalizing bound s with
  | done =>
    simp only [List.length_cons] at hbound
    obtain ⟨bound, rfl⟩ : ∃ b, bound = b + 1 := ⟨bound - 1, by omega⟩
    rw [declarations, if_pos hs.kind_eq]
    exact ⟨hs.errors, hs.functions, hs.externs⟩
  | newline _ ih =>
    simp only [List.length_cons] at hbound
    obtain ⟨bound, rfl⟩ : ∃ b, bound = b + 1 := ⟨bound - 1, by omega⟩
    rw [hs.declarations_succ (by simp)]
    exact ih bound _ hs.declaration_newline (by omega)
  | used hhead hend hf he _ ih =>
    have hlen := hhead.length_lt
    simp only [List.length_cons] at hbound
    obtain ⟨bound, rfl⟩ : ∃ b, bound = b + 1 := ⟨bound - 1, by omega⟩
    rw [hs.declarations_succ (by simp)]
    exact ih bound _ (hs.declaration_used hhead hend hf he) (by omega)
  | function hhead hf he hbody _ ih =>
    have hlen := hhead.length_lt
    have hlen' := hbody.length_le
    simp only [List.length_append, Form.least, List.length_cons] at hlen hlen' hbound
    obtain ⟨bound, rfl⟩ : ∃ b, bound = b + 1 := ⟨bound - 1, by omega⟩
    rw [hs.declarations_succ (by simp)]
    exact ih bound _ (hs.declaration_function rfl hhead hf he hbody) (by omega)

end Grammar

theorem Program.errorCount_parse (source : List Char) : (Program.parse source).errorCount =
    (Grammar.declarations (Grammar.State.ofSource source).remaining (.ofSource source)).errors := rfl

/-- A source is accepted if and only if its tokens are those of a program, and read as that program. -/
theorem Program.parse_iff_declares (source : List Char) (h : (tokenize source true).2 = []) :
    ((Program.parse source).errorCount = 0 ↔
      ∃ functions externs, Grammar.Declares [] [] (Grammar.tokens source) functions externs) ∧
    ∀ functions externs, Grammar.Declares [] [] (Grammar.tokens source) functions externs →
      (Program.parse source).functions = functions ∧ (Program.parse source).externs = externs := by
  have hstart := Grammar.stands_ofSource h
  have hbound := hstart.length_le
  refine ⟨⟨fun herrors => ?_, ?_⟩, fun functions externs hdeclares => ?_⟩
  · rw [Program.errorCount_parse] at herrors
    exact ⟨_, _, Grammar.read_declarations _ _ _ _ hstart hbound herrors⟩
  · rintro ⟨functions, externs, hdeclares⟩
    exact (hdeclares.complete 0 _ _ hstart hbound).1
  · exact (hdeclares.complete 0 _ _ hstart hbound).2

def spelled : List Char :=
  ("use show(x: Float64)\nfunc f(n: Float64) -> Float64\n\x7b\n show(\n \x7b\n var k = -n\n" ++
    " k += 1 * 2\n f(k)\n \x7d)\n if n \x7b\n return f(\n n - 1 - 2)\n \x7d\n return n\n\x7d").toList

theorem Program.parse_iff_declares_spelled : ∃ functions externs,
    Grammar.Declares [] [] (Grammar.tokens spelled) functions externs ∧
      (Program.parse spelled).functions = functions ∧ functions.length = 1 := by
  obtain ⟨hiff, htree⟩ := Program.parse_iff_declares spelled (by decide +kernel)
  obtain ⟨functions, externs, hdeclares⟩ := hiff.1 (by decide +kernel)
  have hfunctions := (htree functions externs hdeclares).1
  refine ⟨functions, externs, hdeclares, hfunctions, ?_⟩
  rw [← hfunctions]
  decide +kernel

end ScalarJit
