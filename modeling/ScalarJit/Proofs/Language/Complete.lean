import ScalarJit.Proofs.Language.Folding

/-! # What is in the language is read

Everything that can be derived is read without complaint, and as the tree that is derived. -/

namespace ScalarJit.Grammar

section
variable {w : World} {m : Mode} {d : Nat} {operand : ParseM Expr} {s : State} {σ σ' : Scope}
  {input rest : List TokenKind}

/-! ### Statements -/

theorem reads_typeName {name : String} {ty : Ty} (h : Ty.ofName? name = some ty) :
    ReadsAs w typeName ty σ (.identifier name :: rest) σ rest := by
  intro m s hs
  refine ends_typeName.2 ⟨fun name' hname ty' hty => ?_, fun name' hname hnone => ?_, fun hnone => ?_⟩
  · rw [hs.kind_eq] at hname
    cases hname
    rw [h, Option.some_inj] at hty
    exact ⟨hty.symm, hs.bump (by simp) rfl⟩
  · rw [hs.kind_eq] at hname
    cases hname
    rw [h] at hnone
    cases hnone
  · exact hnone name hs.kind_eq

theorem reads_identifier {name : String} {c : Complaint} :
    ReadsAs w (identifier c) name σ (.identifier name :: rest) σ rest := by
  intro m s hs
  refine (ends_identifier c).2 ⟨fun name' hname => ?_, fun hnone => hnone name hs.kind_eq⟩
  rw [hs.kind_eq] at hname
  cases hname
  exact ⟨rfl, hs.bump (by simp) rfl⟩

theorem reads_expectSymbol {symbol : Symbol} {c : Complaint} (h : ∀ m : Mode, m.after (.symbol symbol) = m) :
    ReadsAs w (expectSymbol symbol c) () σ (.symbol symbol :: rest) σ rest := by
  intro m s hs
  exact (ends_expectSymbol symbol c).2
    ⟨fun _ => ⟨rfl, hs.bump (by simp) (h m)⟩, fun hne => hne hs.kind_eq⟩

theorem succeeds_declared {name : String} {value : Expr} {mutable : Bool}
    (hs : Stands w m σ' rest s) :
    Succeeds ((do
      let var ← modifyGet fun s => s.declare name value.ty mutable
      return .bind name var value) : ParseM Expr) s fun e t =>
        e = .bind name σ'.nextVar value ∧ Stands w m (σ'.declare name value.ty mutable) rest t := by
  obtain ⟨hvar, hstands⟩ := hs.declare name value.ty mutable
  refine (ends_bind _ _).2 ((ends_modifyGet _).2 ?_)
  exact ⟨by rw [hvar], hstands⟩

theorem reads_bindValue {mutable : Bool} (start : Token) {name : String} {given : Option Ty}
    {value : Expr} {mid : List TokenKind}
    (h : ReadsAs w (expression operand) value σ mid σ' rest) (hvalue : value.ty ≠ .void)
    (hty : ∀ ty, given = some ty → ty = value.ty) :
    ReadsAs w (bindValue operand mutable start name given) (.bind name σ'.nextVar value) σ
      (.symbol .assign :: mid) (σ'.declare name value.ty mutable) rest := by
  intro m s hs
  unfold bindValue
  refine (reads_expectSymbol fun _ => rfl).bind hs fun t ht => h.bind ht fun u hu => ?_
  dsimp only
  rw [if_neg hvalue]
  cases given with
  | none => exact succeeds_declared hu
  | some ty =>
    dsimp only
    rw [if_neg (fun hne => hne (hty ty rfl))]
    exact succeeds_declared hu

theorem reads_binding {word : Keyword} {mutable : Bool} {name : String}
    {given : Option Ty} {value : Expr} {mid : List TokenKind}
    (hgiven : Annotation given input (.symbol .assign :: mid))
    (h : ReadsAs w (expression operand) value σ mid σ' rest) (hvalue : value.ty ≠ .void)
    (hty : ∀ ty, given = some ty → ty = value.ty) :
    ReadsAs w (binding operand mutable) (.bind name σ'.nextVar value) σ
      (.keyword word :: .identifier name :: input) (σ'.declare name value.ty mutable) rest := by
  intro m s hs
  unfold binding
  have hone := hs.bump (by simp) rfl
  refine (ends_bind _ _).2 (ends_bump.2 ((ends_bind _ _).2 (ends_token.2 ?_)))
  refine reads_identifier.bind hone fun t ht => (ends_bind _ _).2 (ends_kind.2 ?_)
  dsimp only
  cases hgiven with
  | absent =>
    rw [if_neg (by rw [ht.kind_eq]; simp)]
    exact (ends_bind _ _).2 ((ends_pure _).2 (reads_bindValue _ h hvalue hty m t ht))
  | present hknown =>
    rw [if_pos ht.kind_eq]
    refine (ends_bind _ _).2 (ends_bump.2 ((ends_bind _ _).2 ((ends_map _ _).2 ?_)))
    refine (reads_typeName hknown m t.bump (ht.bump (by simp) rfl)).mono ?_
    rintro _ u ⟨rfl, hu⟩
    exact reads_bindValue _ h hvalue hty m u hu

theorem StatementEnd.kind (h : StatementEnd rest) (hs : Stands w m σ rest s) :
    endsStatement s.token.kind = true := by
  obtain ⟨more, rfl⟩ := hs.cons
  rcases h with hk | hk
  · rw [Option.some_inj.1 hk]
    rfl
  · rw [Option.some_inj.1 hk]
    rfl

theorem endsStatement_of_starts {k : TokenKind} (h : startsOperand k = true) :
    endsStatement k = false := by
  cases k with
  | symbol sign => cases sign <;> first | rfl | cases h
  | newline => cases h
  | endOfFile => cases h
  | _ => rfl

theorem reads_returnStatement_none (hresult : σ.signature.result = .void) (hend : StatementEnd rest) :
    ReadsAs w (returnStatement operand) .leave σ (.keyword .returns :: rest) σ rest := by
  intro m s hs
  unfold returnStatement
  have hone := hs.bump (by simp) rfl
  refine (ends_bind _ _).2 (ends_token.2 ((ends_bind _ _).2 (ends_bump.2 ?_)))
  refine (ends_bind _ _).2 (ends_kind.2 ?_)
  dsimp only
  rw [if_pos (hend.kind hone)]
  refine (ends_bind _ _).2 ((ends_pure _).2 ((ends_bind _ _).2 (ends_get.2 ?_)))
  refine succeeds_typed (Typing.leave_none_eq_ok_iff.2 ⟨?_, rfl⟩) ⟨rfl, hone⟩
  rw [hone.scope]
  exact hresult

theorem reads_returnStatement_some {value : Expr} (hstarts : (Form.level 1 value).Starts input)
    (h : ReadsAs w (expression operand) value σ input σ' rest)
    (hresult : value.ty = σ'.signature.result) :
    ReadsAs w (returnStatement operand) (.leaveWith value) σ (.keyword .returns :: input) σ' rest := by
  intro m s hs
  unfold returnStatement
  have hone := hs.bump (by simp) rfl
  obtain ⟨k, more, rfl, hk⟩ := hstarts
  refine (ends_bind _ _).2 (ends_token.2 ((ends_bind _ _).2 (ends_bump.2 ?_)))
  refine (ends_bind _ _).2 (ends_kind.2 ?_)
  dsimp only
  rw [if_neg (by rw [hone.kind_eq, endsStatement_of_starts hk]; simp)]
  refine (ends_bind _ _).2 ((ends_map _ _).2 ((h m s.bump hone).mono ?_))
  rintro _ t ⟨rfl, ht⟩
  refine (ends_bind _ _).2 (ends_get.2 (succeeds_typed (Typing.leave_some_eq_ok_iff.2 ⟨?_, rfl⟩) ⟨rfl, ht⟩))
  rw [ht.scope]
  exact hresult

theorem reads_statement_expression {e : Expr} (hstarts : (Form.level 1 e).Starts input)
    (h : ReadsAs w (expression operand) e σ input σ' rest) :
    ReadsAs w (statement operand) e σ input σ' rest := by
  intro m s hs
  obtain ⟨k, more, rfl, hk⟩ := hstarts
  unfold statement
  refine (ends_bind _ _).2 (ends_kind.2 ?_)
  have hkind := hs.kind_eq
  split
  · next hk' =>
    rw [← hkind, hk'] at hk
    cases hk
  · next hk' =>
    rw [← hkind, hk'] at hk
    cases hk
  · next hk' =>
    rw [← hkind, hk'] at hk
    cases hk
  · next hk' =>
    rw [← hkind, hk'] at hk
    cases hk
  · next hk' =>
    rw [← hkind, hk'] at hk
    cases hk
  · exact h m s hs

/-! ### Blocks -/

/-- The reader of a block is at its opening brace and reads it as one tree. -/
def BodyRead (w : World) (operand : ParseM Expr) (id : BlockId) (e : Expr) (σ : Scope)
    (input : List TokenKind) (σ' : Scope) (rest : List TokenKind) : Prop :=
  ∀ m s, Stands w m σ input s →
    (blockBody operand id s).1 = e ∧ Stands w m σ' rest (blockBody operand id s).2

def StatementsRead (w : World) (operand : ParseM Expr) (id : BlockId) (σ : Scope)
    (input : List TokenKind) (σ' : Scope) (rest : List TokenKind) : Prop :=
  ∀ m s bound, Stands w m σ input s → input.length ≤ bound →
    Stands w m σ' rest (statements operand id bound s)

theorem statementsRead_nil {id : BlockId} :
    StatementsRead w operand id σ (.symbol .closedCurly :: rest) σ (.symbol .closedCurly :: rest) := by
  intro m s bound hs hbound
  obtain ⟨bound, rfl⟩ : ∃ b, bound = b + 1 := ⟨bound - 1, by simp only [List.length_cons] at hbound; omega⟩
  rw [statements, hs.kind_eq]
  exact hs

theorem StatementsRead.emptyLine {id : BlockId} (h : StatementsRead w operand id σ input σ' rest) :
    StatementsRead w operand id σ (.newline :: input) σ' rest := by
  intro m s bound hs hbound
  simp only [List.length_cons] at hbound
  obtain ⟨bound, rfl⟩ : ∃ b, bound = b + 1 := ⟨bound - 1, by omega⟩
  rw [statements, hs.kind_eq]
  exact h m s.bump bound (hs.bump (by simp) rfl) (by omega)

theorem StatementsRead.cons {id : BlockId} {e : Expr} {σ₁ : Scope} {mid : List TokenKind}
    (hstarts : (Form.statement e).Starts input) (hlen : mid.length < input.length)
    (hfirst : ReadsAs w (statement operand) e σ input σ₁ mid) (hend : StatementEnd mid)
    (huseful : e.useful = true)
    (h : StatementsRead w operand id (σ₁.addStatement id e) mid σ' rest) :
    StatementsRead w operand id σ input σ' rest := by
  intro m s bound hs hbound
  obtain ⟨bound, rfl⟩ : ∃ b, bound = b + 1 := ⟨bound - 1, by omega⟩
  obtain ⟨e', after, hrun, rfl, hafter⟩ := (hfirst m s hs).run
  have hrun : (statement operand).run s = .ok e' after := hrun
  obtain ⟨k, more, rfl, hk⟩ := hstarts
  have hkind := hs.kind_eq
  rw [statements]
  split
  · next hk' =>
    rw [← hkind, hk'] at hk
    cases hk
  · next hk' =>
    rw [← hkind, hk'] at hk
    cases hk
  · next hk' =>
    rw [← hkind, hk'] at hk
    cases hk
  · rw [hrun]
    dsimp only
    rw [if_neg (by rw [hend.kind hafter]; simp), if_neg (by rw [huseful]; simp)]
    exact h m _ bound (hafter.addStatement id e') (by omega)

theorem StatementsRead.body {id : BlockId}
    (h : StatementsRead w operand id σ input σ' (.symbol .closedCurly :: rest)) :
    BodyRead w operand id (σ'.blockExpr id) σ (.symbol .openCurly :: input) (σ'.closeBlock id) rest := by
  intro m s hs
  have hinside := hs.bump_brackets (by simp) 0 rfl
  rw [blockBody_eq_leaveBlock, hs.brackets]
  exact (h _ _ _ hinside hinside.length_le).leaveBlock id

theorem BodyRead.reads_block {e : Expr}
    (h : BodyRead w operand σ.blocks.length e σ.openBlock input σ' rest) :
    ReadsAs w (block operand) e σ input σ' rest := by
  intro m s hs
  obtain ⟨hid, hopen⟩ := hs.openBlock
  refine ends_block.2 ?_
  rw [hid]
  exact h m _ hopen

/-! ### Calls -/

def ArgumentsRead (w : World) (operand : ParseM Expr) (more : List Expr) (σ : Scope)
    (input : List TokenKind) (σ' : Scope) (rest : List TokenKind) : Prop :=
  ∀ callee bound args, input.length ≤ bound →
    ReadsAs w (callArguments operand callee bound args) (args ++ more) σ input σ' rest

theorem argumentsRead_last {e : Expr} (hstarts : (Form.level 1 e).Starts input)
    (h : ReadsAs w (expression operand) e σ input σ' (.symbol .closedBracket :: rest)) :
    ArgumentsRead w operand [e] σ input σ' (.symbol .closedBracket :: rest) := by
  intro callee bound args hbound m s hs
  obtain ⟨k, more, rfl, -⟩ := hstarts
  obtain ⟨bound, rfl⟩ : ∃ b, bound = b + 1 := ⟨bound - 1, by simp only [List.length_cons] at hbound; omega⟩
  rw [callArguments]
  refine h.bind hs fun t ht => (ends_bind _ _).2 (ends_kind.2 ?_)
  rw [ht.kind_eq]
  exact ⟨rfl, ht⟩

theorem ArgumentsRead.cons {e : Expr} {more : List Expr} {σ₁ : Scope} {mid : List TokenKind}
    (hlen : (TokenKind.symbol .comma :: mid).length < input.length)
    (hfirst : ReadsAs w (expression operand) e σ input σ₁ (.symbol .comma :: mid))
    (h : ArgumentsRead w operand more σ₁ mid σ' rest) :
    ArgumentsRead w operand (e :: more) σ input σ' rest := by
  intro callee bound args hbound m s hs
  simp only [List.length_cons] at hlen
  obtain ⟨bound, rfl⟩ : ∃ b, bound = b + 1 := ⟨bound - 1, by omega⟩
  rw [callArguments]
  refine hfirst.bind hs fun t ht => (ends_bind _ _).2 (ends_kind.2 ?_)
  rw [ht.kind_eq]
  refine (ends_bind _ _).2 (ends_bump.2 ?_)
  have hrest := h callee bound (args ++ [e]) (by omega) m t.bump (ht.bump (by simp) rfl)
  rw [List.append_assoc] at hrest
  exact hrest

theorem succeeds_finishCall {name : String} {args : List Expr} {signature : Signature} {start : Token}
    (hs : Stands w (m.after (.symbol .openBracket)) σ (.symbol .closedBracket :: rest) s)
    (hcallee : Callable w.functions w.externs σ name signature)
    (htypes : signature.args.map (·.2) = args.map (·.ty)) :
    Succeeds (finishCall name start args) s fun e t =>
      e = .call name args signature.result ∧ Stands w m σ rest t := by
  unfold finishCall
  have hout := hs.bump_brackets (by simp) (s.brackets - 1) (by rw [hs.brackets]; rfl)
  refine (ends_bind _ _).2 (ends_closeBracket.2 ((ends_bind _ _).2 (ends_get.2 ?_)))
  have hsignature : ({ s with brackets := s.brackets - 1 }.bump).signature? name = some signature := by
    rw [callable_iff, hout.functions, hout.externs, hout.scope]
    exact hcallee
  rw [hsignature]
  exact succeeds_typed (Typing.call_eq_ok_iff.2 ⟨htypes, rfl⟩) ⟨rfl, hout⟩

theorem succeeds_call_nil {name : String} {signature : Signature} {start : Token}
    (hs : Stands w m σ (.symbol .openBracket :: .symbol .closedBracket :: rest) s)
    (hcallee : Callable w.functions w.externs σ name signature)
    (htypes : signature.args.map (·.2) = []) :
    Succeeds (call operand name start) s fun e t =>
      e = .call name [] signature.result ∧ Stands w m σ rest t := by
  unfold call
  have hone := hs.bump_brackets (by simp) (s.brackets + 1) (by rw [hs.brackets]; rfl)
  refine (ends_bind _ _).2 (ends_openBracket.2 ((ends_bind _ _).2 (ends_kind.2 ?_)))
  dsimp only
  rw [if_pos hone.kind_eq]
  exact (ends_bind _ _).2 ((ends_pure _).2 (succeeds_finishCall hone hcallee htypes))

theorem succeeds_call_cons {name : String} {arg : Expr} {args : List Expr} {signature : Signature}
    {start : Token} (hstarts : (Form.arguments (arg :: args)).Starts input)
    (h : ArgumentsRead w operand (arg :: args) σ input σ' (.symbol .closedBracket :: rest))
    (hs : Stands w m σ (.symbol .openBracket :: input) s)
    (hcallee : Callable w.functions w.externs σ' name signature)
    (htypes : signature.args.map (·.2) = (arg :: args).map (·.ty)) :
    Succeeds (call operand name start) s fun e t =>
      e = .call name (arg :: args) signature.result ∧ Stands w m σ' rest t := by
  unfold call
  have hone := hs.bump_brackets (by simp) (s.brackets + 1) (by rw [hs.brackets]; rfl)
  obtain ⟨k, more, rfl, hk⟩ := hstarts
  refine (ends_bind _ _).2 (ends_openBracket.2 ((ends_bind _ _).2 (ends_kind.2 ?_)))
  dsimp only
  rw [if_neg (by rw [hone.kind_eq]; rintro rfl; cases hk)]
  refine (ends_bind _ _).2 (ends_get.2 ?_)
  refine (h name _ [] hone.length_le).bind hone fun t ht => ?_
  exact succeeds_finishCall ht hcallee htypes

/-! ### Conditionals -/

theorem succeeds_branch {word : Keyword} {condition onTrue : Expr} {σ₁ : Scope} {body : List TokenKind}
    (hs : Stands w m σ (.keyword word :: input) s)
    (hc : ReadsAs w (expression operand) condition σ input σ₁ (.symbol .openCurly :: body))
    (ht : ReadsAs w (block operand) onTrue σ₁ (.symbol .openCurly :: body) σ' rest) :
    Succeeds (branch operand word) s fun b t =>
      b.condition = condition ∧ b.body = onTrue ∧ Stands w m σ' rest t := by
  unfold branch
  have hone := hs.bump (by simp) rfl
  refine (ends_bind _ _).2 (ends_token.2 ((ends_bind _ _).2 (ends_bump.2 ?_)))
  refine hc.bind hone fun t hbody => (ends_bind _ _).2 (ends_kind.2 ?_)
  dsimp only
  rw [if_neg (fun hne => hne hbody.kind_eq)]
  exact ht.bind hbody fun u hu => ⟨rfl, rfl, hu⟩

inductive LastRead (w : World) (operand : ParseM Expr) :
    Option Expr → Scope → List TokenKind → Scope → List TokenKind → Prop
  | absent {σ : Scope} {rest : List TokenKind} (h : Followed rest) : LastRead w operand none σ rest σ rest
  | present {e : Expr} {σ σ' : Scope} {input rest : List TokenKind}
      (h : ReadsAs w (block operand) e σ (.symbol .openCurly :: input) σ' rest) :
      LastRead w operand (some e) σ (.keyword .elseBranch :: .symbol .openCurly :: input) σ' rest

def AlternativeRead (w : World) (operand : ParseM Expr) (onFalse : Option Expr) (σ : Scope)
    (input : List TokenKind) (σ' : Scope) (rest : List TokenKind) : Prop :=
  ∀ m s bound branches, Stands w m σ input s → input.length ≤ bound →
    Succeeds (furtherBranches operand bound branches) s fun all t => ∃ more otherwise σ₁ mid,
      all = branches ++ more ∧ Nested otherwise more onFalse ∧ Stands w m σ₁ mid t ∧
        LastRead w operand otherwise σ₁ mid σ' rest

theorem LastRead.alternative {otherwise : Option Expr}
    (h : LastRead w operand otherwise σ input σ' rest) :
    AlternativeRead w operand otherwise σ input σ' rest := by
  intro m s bound branches hs hbound
  have hkind : s.token.kind ≠ .keyword .elifBranch := by
    obtain ⟨more, hcons⟩ := hs.cons
    cases h with
    | absent hfollowed => exact (hfollowed _ more hcons).2.1
    | present _ =>
      rw [← (List.cons.inj hcons).1]
      simp
  have hstop : branches = branches ++ [] := (List.append_nil _).symm
  cases bound with
  | zero => exact ⟨[], otherwise, σ, input, hstop, .nil, hs, h⟩
  | succ bound =>
    rw [furtherBranches]
    refine (ends_bind _ _).2 (ends_kind.2 ?_)
    rw [if_neg hkind]
    exact ⟨[], otherwise, σ, input, hstop, .nil, hs, h⟩

theorem AlternativeRead.further {condition onTrue e : Expr} {onFalse : Option Expr} {σ₁ σ₂ : Scope}
    {body more : List TokenKind} (hlen : more.length ≤ input.length)
    (hc : ReadsAs w (expression operand) condition σ input σ₁ (.symbol .openCurly :: body))
    (ht : ReadsAs w (block operand) onTrue σ₁ (.symbol .openCurly :: body) σ₂ more)
    (h : AlternativeRead w operand onFalse σ₂ more σ' rest) (he : Chosen condition onTrue onFalse e) :
    AlternativeRead w operand (some e) σ (.keyword .elifBranch :: input) σ' rest := by
  intro m s bound branches hs hbound
  simp only [List.length_cons] at hbound
  obtain ⟨bound, rfl⟩ : ∃ b, bound = b + 1 := ⟨bound - 1, by omega⟩
  rw [furtherBranches]
  refine (ends_bind _ _).2 (ends_kind.2 ?_)
  rw [if_pos hs.kind_eq]
  refine Succeeds.bind (succeeds_branch hs hc ht) ?_
  rintro b t ⟨rfl, rfl, hmore⟩
  refine (h m t bound (branches ++ [b]) hmore (by omega)).mono ?_
  rintro all u ⟨others, otherwise, σ₃, mid, rfl, hnested, hu, hlast⟩
  exact ⟨b :: others, otherwise, σ₃, mid, List.append_assoc .., .cons hnested he, hu, hlast⟩

theorem Nested.succeeds {otherwise onFalse : Option Expr} {branches : List Branch}
    (h : Nested otherwise branches onFalse) (s : State) :
    Succeeds (joinBranches otherwise branches) s fun e t => e = onFalse ∧ t = s := by
  induction h with
  | nil => exact ⟨rfl, rfl⟩
  | cons _ he ih =>
    rw [joinBranches]
    refine Succeeds.bind ih ?_
    rintro _ t ⟨rfl, rfl⟩
    exact (ends_map _ _).2 (succeeds_typed (chosen_iff.2 he) ⟨rfl, rfl⟩)

theorem reads_conditional {condition onTrue e : Expr} {onFalse : Option Expr} {σ₁ σ₂ : Scope}
    {body more : List TokenKind}
    (hc : ReadsAs w (expression operand) condition σ input σ₁ (.symbol .openCurly :: body))
    (ht : ReadsAs w (block operand) onTrue σ₁ (.symbol .openCurly :: body) σ₂ more)
    (hf : AlternativeRead w operand onFalse σ₂ more σ' rest) (he : Chosen condition onTrue onFalse e) :
    ReadsAs w (conditional operand) e σ (.keyword .ifBranch :: input) σ' rest := by
  intro m s hs
  unfold conditional
  refine Succeeds.bind (succeeds_branch hs hc ht) ?_
  rintro head t ⟨rfl, rfl, hmore⟩
  refine (ends_bind _ _).2 (ends_get.2 ?_)
  refine Succeeds.bind (hf m t _ [] hmore hmore.length_le) ?_
  rintro further u ⟨_, otherwise, σ₃, mid, rfl, hnested, hu, hlast⟩
  have hjoin : ∀ v, Stands w m σ' rest v → Succeeds (do
      let alternative ← joinBranches otherwise further
      typed head.start (Typing.conditional head.condition head.body alternative)) v fun e' t =>
        e' = e ∧ Stands w m σ' rest t := by
    intro v hv
    refine Succeeds.bind (hnested.succeeds v) ?_
    rintro _ _ ⟨rfl, rfl⟩
    exact succeeds_typed (chosen_iff.2 he) ⟨rfl, hv⟩
  refine (ends_bind _ _).2 (ends_kind.2 ?_)
  dsimp only
  cases hlast with
  | absent hfollowed =>
    obtain ⟨rest, rfl⟩ := hu.cons
    rw [if_neg (hfollowed _ rest rfl).2.2]
    exact (ends_bind _ _).2 ((ends_pure _).2 (hjoin u hu))
  | present hblock =>
    rw [if_pos hu.kind_eq]
    have hnext := hu.bump (by simp) rfl
    refine (ends_bind _ _).2 (ends_bump.2 ((ends_bind _ _).2 (ends_kind.2 ?_)))
    rw [if_neg (fun hne => hne hnext.kind_eq)]
    refine (ends_bind _ _).2 ((ends_map _ _).2 ((hblock m _ hnext).mono ?_))
    rintro _ v ⟨rfl, hv⟩
    exact hjoin v hv

/-! ### Operands -/

theorem reads_signed {sign : Symbol} {op : UnaryOp} {e : Expr} (hsign : Sign sign op)
    (h : ReadsAs w operand e σ input σ' rest) (hvalue : e.ty ≠ .void) :
    ReadsAs w (operandWith operand) (.unary op e) σ (.symbol sign :: input) σ' rest := by
  intro m s hs
  unfold operandWith
  refine (ends_bind _ _).2 (ends_token.2 ?_)
  have hone := hs.bump (by simp) (by cases hsign <;> rfl)
  have hsigned : Succeeds (signed operand op) s fun e' t => e' = .unary op e ∧ Stands w m σ' rest t := by
    unfold signed
    refine (ends_bind _ _).2 (ends_token.2 ((ends_bind _ _).2 (ends_bump.2 ?_)))
    refine h.bind hone fun t ht => ?_
    exact succeeds_typed (Typing.unary_eq_ok_iff.2 ⟨hvalue, rfl⟩) ⟨rfl, ht⟩
  rw [hs.kind_eq]
  cases hsign with
  | minus => exact hsigned
  | plus => exact hsigned

theorem reads_bracketed {e : Expr} (hstarts : (Form.level 1 e).Starts input)
    (h : ReadsAs w (expression operand) e σ input σ' (.symbol .closedBracket :: rest)) :
    ReadsAs w (operandWith operand) e σ (.symbol .openBracket :: input) σ' rest := by
  intro m s hs
  unfold operandWith
  refine (ends_bind _ _).2 (ends_token.2 ?_)
  rw [hs.kind_eq]
  have hone := hs.bump_brackets (by simp) (s.brackets + 1) (by rw [hs.brackets]; rfl)
  obtain ⟨k, more, rfl, hk⟩ := hstarts
  dsimp only
  unfold bracketed
  refine (ends_bind _ _).2 (ends_token.2 ((ends_bind _ _).2 (ends_openBracket.2 ?_)))
  refine (ends_bind _ _).2 (ends_kind.2 ?_)
  dsimp only
  rw [if_neg (by rw [hone.kind_eq]; rintro rfl; cases hk)]
  refine h.bind hone fun t ht => (ends_bind _ _).2 (ends_kind.2 ?_)
  rw [if_neg (fun hne => hne ht.kind_eq)]
  have hout := ht.bump_brackets (by simp) (t.brackets - 1) (by rw [ht.brackets]; rfl)
  exact (ends_bind _ _).2 (ends_closeBracket.2 ⟨rfl, hout⟩)

theorem reads_named {name : String} {var : VarRef} {v : Variable}
    (hvar : resolve σ.blocks σ.here name = some var) (hv : declaration? σ.blocks var = some v)
    (hfollowed : Followed rest) :
    ReadsAs w (operandWith operand) (.read name var v.ty v.mutable) σ (.identifier name :: rest) σ
      rest := by
  intro m s hs
  unfold operandWith
  refine (ends_bind _ _).2 (ends_token.2 ?_)
  rw [hs.kind_eq]
  have hone := hs.bump (by simp) rfl
  obtain ⟨more, hcons⟩ := hone.cons
  refine (ends_bind _ _).2 (ends_bump.2 ((ends_bind _ _).2 (ends_kind.2 ?_)))
  rw [if_neg (hfollowed _ more hcons).1]
  unfold readVariable
  refine (ends_bind _ _).2 (ends_get.2 ?_)
  have hhere : s.bump.here = s.bump.scope.here := rfl
  dsimp only
  rw [hhere, hone.scope, hvar, Option.bind_some, hv, Option.map_some]
  exact ⟨rfl, hone⟩

theorem reads_call {name : String} {e : Expr}
    (h : ∀ m start s, Stands w m σ (.symbol .openBracket :: input) s →
      Succeeds (call operand name start) s fun e' t => e' = e ∧ Stands w m σ' rest t) :
    ReadsAs w (operandWith operand) e σ (.identifier name :: .symbol .openBracket :: input) σ' rest := by
  intro m s hs
  unfold operandWith
  refine (ends_bind _ _).2 (ends_token.2 ?_)
  rw [hs.kind_eq]
  have hone := hs.bump (by simp) rfl
  refine (ends_bind _ _).2 (ends_bump.2 ((ends_bind _ _).2 (ends_kind.2 ?_)))
  rw [if_pos hone.kind_eq]
  exact h m _ _ hone

theorem ReadsAs.nested {reader : ParseM Expr} {e : Expr} {n : Nat} (hroom : n < nestingLimit)
    (h : ReadsAs (w.inside (n + 1)) reader e σ input σ' rest) :
    ReadsAs (w.inside n) (nested reader) e σ input σ' rest := by
  intro m s hs
  refine ends_nested.2 ⟨fun hfull => ?_, fun _ => ?_⟩
  · rw [hs.nesting] at hfull
    exact Nat.not_lt.2 hfull hroom
  · exact (h m s.descend hs.descend).mono fun e' t ht => ⟨ht.1, ht.2.ascend⟩

/-! ### All parts -/

/-- A part is read as its tree, before what may follow it. -/
def Form.Complete (w : World) (d : Nat) :
    Form → Scope → List TokenKind → Scope → List TokenKind → Prop
  | .operand e, σ, input, σ', rest => Followed rest → ReadsAs w (operandWithin d) e σ input σ' rest
  | .level n e, σ, input, σ', rest => Stopped n rest → ∃ first σ₁ rest₁,
      Folds w d n e σ input σ' rest first σ₁ rest₁
  | .arguments [], _, _, _, _ => True
  | .arguments (e :: more), σ, input, σ', rest =>
      ArgumentsRead w (operandWithin d) (e :: more) σ input σ' rest
  | .alternative onFalse, σ, input, σ', rest => Followed rest →
      AlternativeRead w (operandWithin d) onFalse σ input σ' rest
  | .statement e, σ, input, σ', rest => StatementEnd rest →
      ReadsAs w (Grammar.statement (operandWithin d)) e σ input σ' rest
  | .statements id, σ, input, σ', rest => StatementsRead w (operandWithin d) id σ input σ' rest
  | .body id e, σ, input, σ', rest => BodyRead w (operandWithin d) id e σ input σ' rest

theorem Form.Complete.expression {e : Expr} (h : (Form.level 1 e).Complete w d σ input σ' rest)
    (hfinished : Finished rest) :
    ReadsAs w (Grammar.expression (operandWithin d)) e σ input σ' rest := by
  obtain ⟨first, σ₁, rest₁, hfolds⟩ := h (hfinished.stopped 1)
  exact hfolds.reads_expression hfinished

theorem finished_closedBracket : Finished (.symbol .closedBracket :: rest) :=
  finished_cons ⟨by simp, by simp, by simp⟩ rfl

theorem finished_comma : Finished (.symbol .comma :: rest) :=
  finished_cons ⟨by simp, by simp, by simp⟩ rfl

theorem finished_openCurly : Finished (.symbol .openCurly :: rest) :=
  finished_cons ⟨by simp, by simp, by simp⟩ rfl

theorem Derives.complete_inside {form : Form} (h : Derives w.functions w.externs d form σ input σ' rest) :
    ∀ n, n + d ≤ nestingLimit → form.Complete (w.inside n) d σ input σ' rest := by
  -- The next token decides where each reader stops, hence the conditions on what follows.
  induction h with
  | signed hsign _ hvalue ih =>
    intro n hroom hfollowed
    exact ReadsAs.nested (by omega) (reads_signed hsign (ih (n + 1) (by omega) hfollowed) hvalue)
  | bracketed h ih =>
    intro n hroom _
    have hread := (ih (n + 1) (by omega)).expression finished_closedBracket
    exact ReadsAs.nested (by omega) (reads_bracketed h.starts hread)
  | block h ih =>
    obtain ⟨more, rfl⟩ := h.starts
    intro n hroom _
    refine ReadsAs.nested (by omega) fun m s hs => ?_
    unfold operandWith
    refine (ends_bind _ _).2 (ends_token.2 ?_)
    rw [hs.kind_eq]
    exact BodyRead.reads_block (ih (n + 1) (by omega)) m s hs
  | number =>
    intro n hroom _
    refine ReadsAs.nested (by omega) fun m s hs => ?_
    unfold operandWith
    refine (ends_bind _ _).2 (ends_token.2 ?_)
    rw [hs.kind_eq]
    exact (ends_bind _ _).2 (ends_bump.2 ⟨rfl, hs.bump (by simp) rfl⟩)
  | named hvar hv =>
    intro n hroom hfollowed
    exact ReadsAs.nested (by omega) (reads_named hvar hv hfollowed)
  | @call d name args signature σ σ' input rest h hcallee htypes ih =>
    intro n hroom _
    refine ReadsAs.nested (by omega) (reads_call fun m start s hs => ?_)
    cases args with
    | nil =>
      cases h
      exact succeeds_call_nil hs hcallee htypes
    | cons arg args => exact succeeds_call_cons h.starts (ih (n + 1) (by omega)) hs hcallee htypes
  | conditional _ ht _ he ihc iht ihf =>
    obtain ⟨more, rfl⟩ := ht.starts
    intro n hroom hfollowed
    have hcondition := (ihc (n + 1) (by omega)).expression finished_openCurly
    have hbody := BodyRead.reads_block (iht (n + 1) (by omega))
    have halternative := ihf (n + 1) (by omega) hfollowed
    refine ReadsAs.nested (by omega) fun m s hs => ?_
    unfold operandWith
    refine (ends_bind _ _).2 (ends_token.2 ?_)
    rw [hs.kind_eq]
    exact reads_conditional hcondition hbody halternative he m s hs
  | tightest h ih =>
    intro n hroom hstop
    exact ⟨_, _, _, folds_tightest h.length_le (ih n hroom hstop.followed)⟩
  | looser _ ih =>
    intro n hroom hstop
    obtain ⟨first, σ₁, rest₁, hfolds⟩ := ih n hroom (hstop.weaken (Nat.le_succ _))
    exact ⟨first, σ₁, rest₁, hfolds.looser⟩
  | joinLeft hop hleft _ hr he ihl ihr =>
    intro n hroom hstop
    obtain ⟨first, σ₂, rest₁, hl'⟩ := ihl n hroom (stopped_operator hop (.inr ⟨rfl, hleft⟩))
    obtain ⟨second, σ₃, rest₂, hr'⟩ := ihr n hroom (hstop.weaken (Nat.le_succ _))
    exact ⟨first, σ₂, rest₁, hl'.joinLeft hop hleft hr' he hr.length_le hstop⟩
  | joinRight hop hright _ hr he ihl ihr =>
    intro n hroom hstop
    obtain ⟨first, σ₂, rest₁, hl'⟩ := ihl n hroom (stopped_operator hop (.inl (Nat.lt_succ_self _)))
    obtain ⟨second, σ₃, rest₂, hr'⟩ := ihr n hroom hstop
    exact ⟨first, σ₂, rest₁, hl'.joinRight hop hright hr' he hr.length_le hstop⟩
  | noArguments => exact fun _ _ => trivial
  | lastArgument h ih =>
    exact fun n hroom => argumentsRead_last h.starts ((ih n hroom).expression finished_closedBracket)
  | argument h _ ih ihrest =>
    intro n hroom
    exact (ihrest n hroom).cons h.length_le ((ih n hroom).expression finished_comma)
  | noAlternative => exact fun n _ hfollowed => (LastRead.absent hfollowed).alternative
  | otherwise h ih =>
    obtain ⟨more, rfl⟩ := h.starts
    exact fun n hroom _ => (LastRead.present (BodyRead.reads_block (ih n hroom))).alternative
  | further hc ht _ he ihc iht ihf =>
    obtain ⟨more, rfl⟩ := ht.starts
    intro n hroom hfollowed
    have hlen := hc.length_le
    have hlen' := ht.length_le
    simp only [Form.least] at hlen hlen'
    exact (ihf n hroom hfollowed).further (by omega) ((ihc n hroom).expression finished_openCurly)
      (BodyRead.reads_block (iht n hroom)) he
  | binding hword hgiven _ hvalue hty ih =>
    intro n hroom hend m s hs
    have hread := (ih n hroom).expression hend.finished
    unfold Grammar.statement
    refine (ends_bind _ _).2 (ends_kind.2 ?_)
    rw [hs.kind_eq]
    cases hword with
    | fixed => exact reads_binding hgiven hread hvalue hty m s hs
    | mutable => exact reads_binding hgiven hread hvalue hty m s hs
  | leave hresult =>
    intro n hroom hend m s hs
    unfold Grammar.statement
    refine (ends_bind _ _).2 (ends_kind.2 ?_)
    rw [hs.kind_eq]
    exact reads_returnStatement_none hresult hend m s hs
  | leaveWith h hresult ih =>
    intro n hroom hend m s hs
    unfold Grammar.statement
    refine (ends_bind _ _).2 (ends_kind.2 ?_)
    rw [hs.kind_eq]
    exact reads_returnStatement_some h.starts ((ih n hroom).expression hend.finished) hresult m s hs
  | expression h ih =>
    exact fun n hroom hend =>
      reads_statement_expression h.starts ((ih n hroom).expression hend.finished)
  | noStatements => exact fun _ _ => statementsRead_nil
  | emptyLine _ ih => exact fun n hroom => StatementsRead.emptyLine (ih n hroom)
  | statement h hend huseful _ ih ihrest =>
    intro n hroom
    exact StatementsRead.cons h.starts h.length_le (ih n hroom hend) hend huseful (ihrest n hroom)
  | body _ ih => exact fun n hroom => StatementsRead.body (ih n hroom)

theorem Derives.complete {form : Form} (h : Derives w.functions w.externs d form σ input σ' rest)
    (hroom : w.nesting + d ≤ nestingLimit) : form.Complete w d σ input σ' rest :=
  h.complete_inside w.nesting hroom

end
end ScalarJit.Grammar
