import ScalarJit.Proofs.Isolation.Bodies
import ScalarJit.Proofs.Isolation.Coverage

/-! # Blocks are closed where they end, and leave all else as it was

Whatever goes wrong in a block, and however deep, its body is read to the brace that closes it or to the
end of the source, which is then complained about. What belongs to the code around it is restored: the
block that is open, the brackets that are open, how line feeds count, the count of operands, and every
block that there was. -/

namespace ScalarJit.Grammar

def tokensOf (segments : List Segment) : List TokenKind := segments.filterMap (Lexer.tokenOf true)

/-- A reader came from an opening brace to the brace that closes it, at `u`, and then looked for the
next token with line feeds counted as around the block. -/
structure ClosedAt (u s t : State) : Prop where
  passes : Passes s u
  brace : u.token.kind = .symbol .closedCurly
  pairs : ∃ inside last, s.lexer.rest = inside ++ last :: u.lexer.rest ∧
    last.kind = .symbol .closedCurly ∧ level 0 (tokensOf inside) = some 0
  token : t.token = (u.lexer.next (s.brackets == 0)).token
  lexer : t.lexer = (u.lexer.next (s.brackets == 0)).lexer

/-- No brace closes the one that a reader started at. It came to the end, and complained last. -/
structure Unclosed (s t : State) : Prop where
  ended : t.token.kind = .endOfFile
  pairs : ∃ n, level 0 (tokensOf s.lexer.rest) = some n
  complaint : ∃ between, t.diagnostics.toList = s.diagnostics.toList ++ between ++
    Problem.diagnostics s.source ⟨.unclosedBlock, t.token.position⟩

/-- What the body of a block leads to. -/
structure Restores (id : BlockId) (s t : State) : Prop where
  opening : s.token.kind = .symbol .openCurly
  inside : s.Inside id
  braces : (∃ u, ClosedAt u s t) ∨ Unclosed s t
  current : t.scope.current = s.scope.blocks[id]?.bind (·.parent)
  brackets : t.brackets = s.brackets
  nesting : t.nesting = s.nesting
  blocks : Grows id s.scope.blocks t.scope.blocks

theorem level_tokensOf (depth : Nat) (segments : List Segment) :
    level depth (tokensOf segments) = level depth (segments.map Segment.kind) := by
  have hend : ∀ n, level n [.endOfFile] = some n := fun n => level_cons_plain rfl n []
  rw [← level_kindsOf, Lexer.kindsOf, level_append, tokensOf]
  cases level depth (segments.filterMap (Lexer.tokenOf true)) with
  | none => rfl
  | some n => exact (hend n).symm

section
variable {operand : ParseM Expr} {id : BlockId} {s t u : State} {x : List TokenKind}

theorem Passes.split (h : Passes s u) (hs : s.token.kind ≠ .endOfFile)
    (hu : u.token.kind = .symbol .closedCurly) (hahead : s.ahead = s.token.kind :: (x ++ u.ahead)) :
    ∃ inside brace, s.lexer.rest = inside ++ brace :: u.lexer.rest ∧ inside.map Segment.kind = x ∧
      brace.kind = .symbol .closedCurly := by
  obtain ⟨passed, hrest⟩ := h.rest
  rw [State.ahead_of_ne hs, State.ahead_of_ne (by simp [hu]), ← hrest, hu] at hahead
  have hkinds : passed.map Segment.kind = x ++ [.symbol .closedCurly] := by
    have hall : passed.map Segment.kind ++ (u.lexer.rest.map Segment.kind ++ [.endOfFile]) =
        x ++ [.symbol .closedCurly] ++ (u.lexer.rest.map Segment.kind ++ [.endOfFile]) := by
      simpa using hahead
    exact List.append_cancel_right hall
  obtain ⟨inside, last, rfl, hinside, hlast⟩ := List.map_eq_append_iff.1 hkinds
  obtain ⟨brace, rfl, hbrace⟩ := List.map_eq_singleton_iff.1 hlast
  exact ⟨inside, brace, by rw [← hrest, List.append_assoc]; rfl, hinside, hbrace⟩

/-- Statements end at the brace that closes their block, or at the end with a complaint. -/
theorem statements_stop (ho : Onward operand) (hpairs : Pairs operand) (id : BlockId) (h : s.Placed) :
    ∃ u, Balances s u ∧
      ((u.token.kind = .symbol .closedCurly ∧ statements operand id s.remaining s = u) ∨
        (u.token.kind = .endOfFile ∧
          statements operand id s.remaining s = u.report ⟨.unclosedBlock, u.token.position⟩)) := by
  have hstop : ∀ {result : EStateM.Result Problem State Unit} {a : Unit} {s : State},
      Loops (statementTurn operand id) a s result → s.Placed → ∀ t, result = .ok () t →
      ∃ u, Balances s u ∧ ((u.token.kind = .symbol .closedCurly ∧ t = u) ∨
        (u.token.kind = .endOfFile ∧ t = u.report ⟨.unclosedBlock, u.token.position⟩)) := by
    intro result a s hloops
    -- A turn reads a line feed or a statement; only a closing brace or the end stops the loop.
    induction hloops with
    | @ends _ _ s _ hrun _ =>
      intro h t hresult
      cases hresult
      rcases statementTurn_cases operand id s with ⟨-, hturn⟩ | ⟨hk, hturn⟩ | ⟨hk, hturn⟩ | ⟨-, hturn⟩
      · cases hrun.symm.trans hturn
      · cases hrun.symm.trans hturn
        exact ⟨_, .refl h, .inl ⟨hk, rfl⟩⟩
      · cases hrun.symm.trans hturn
        exact ⟨_, .refl h, .inr ⟨hk, rfl⟩⟩
      · cases hrun.symm.trans hturn
    | fails _ _ =>
      intro _ t hresult
      cases hresult
    | @turns _ _ s v _ hrun _ _ ih =>
      intro h t hresult
      have hread : Balances s v := by
        rcases statementTurn_cases operand id s with ⟨hk, hturn⟩ | ⟨-, hturn⟩ | ⟨-, hturn⟩ | ⟨-, hturn⟩
        · cases hrun.symm.trans hturn
          exact balances_bump h (by rw [hk]; rfl)
        · cases hrun.symm.trans hturn
        · cases hrun.symm.trans hturn
        · cases hrun.symm.trans hturn
          exact hpairs.behindStatement id h
      obtain ⟨u, hu, hends⟩ := ih hread.placed t hresult
      exact ⟨u, hread.trans hu, hends⟩
  exact hstop (ho.loops_statements id h) h _ rfl

theorem brackets_blockBody (operand : ParseM Expr) (id : BlockId) (s : State) :
    (blockBody operand id s).2.brackets = s.brackets := by
  unfold blockBody
  dsimp only
  split <;> rfl

theorem blockBody_of_statements {operand : ParseM Expr} {id : BlockId} {s u : State}
    (h : statements operand id { s with brackets := 0 }.bump.remaining
      { s with brackets := 0 }.bump = u) :
    (blockBody operand id s).2 =
      (if u.token.kind = TokenKind.symbol .closedCurly then { u with brackets := s.brackets }.bump
        else { u with brackets := s.brackets }).closeBlock id := by
  rw [← h]
  rfl

theorem braces_blockBody (ho : Onward operand) (hpairs : Pairs operand) (id : BlockId) (h : s.Placed)
    (hk : s.token.kind = .symbol .openCurly) :
    (∃ u, ClosedAt u s (blockBody operand id s).2) ∨ Unclosed s (blockBody operand id s).2 := by
  have hstill : Travels [] s { s with brackets := 0 } := .still h rfl rfl rfl rfl
  obtain ⟨skipped, hbump, hskipped⟩ := travels_bump hstill.passes.placed (by simp [hk])
  have hopen := hstill.trans hbump
  obtain ⟨u, ⟨x, n, hx, hn, hlast⟩, hstop⟩ := statements_stop ho hpairs id hopen.passes.placed
  have hread := hopen.trans hx
  have hahead : s.ahead = s.token.kind :: (skipped ++ x ++ u.ahead) := by
    rw [hread.ahead]
    simp
  have hlevel : level 0 (skipped ++ x) = some n := by rw [level_newlines hskipped, hn]
  rcases hstop with ⟨hclosed, hstatements⟩ | ⟨hend, hstatements⟩
  · left
    obtain ⟨inside, brace, hrest, hinside, hbrace⟩ := hread.passes.split (by simp [hk]) hclosed hahead
    have hn : n = 0 := hlast.resolve_right (by simp [hclosed])
    rw [blockBody_of_statements hstatements, if_pos hclosed]
    refine ⟨u, hread.passes, hclosed, ⟨inside, brace, hrest, hbrace, ?_⟩, rfl, rfl⟩
    rw [level_tokensOf, hinside, hlevel, hn]
  · right
    have hne : (u.report ⟨.unclosedBlock, u.token.position⟩).token.kind ≠ .symbol .closedCurly := by
      show u.token.kind ≠ _
      simp [hend]
    obtain ⟨between, hbetween, -⟩ := hread.diagnostics
    rw [blockBody_of_statements hstatements, if_neg hne]
    refine ⟨hend, ⟨n, ?_⟩, between, ?_⟩
    · rw [State.ahead_of_ne (by simp [hk]), State.ahead_of_end hend] at hahead
      have hkinds := List.append_cancel_right (List.cons.inj hahead).2
      rw [level_tokensOf, hkinds, hlevel]
    · show (u.diagnostics ++ _).toList = _
      rw [Array.toList_append, hbetween, hread.passes.source]
      rfl

theorem restores_blockBody (d : Nat) (h : Sits id (.body id) s) :
    Restores id s (blockBody (operandWithin d) id s).2 := by
  obtain ⟨t, hadvance, heq⟩ := blockBody_eq (reads_operandWithin d) h.inside
  have hcount := motion_nesting.blockBody (motion_nesting.keeps_operandWithin d) id s
  refine ⟨h.fits.2, h.inside, ?_, ?_, brackets_blockBody _ id s, hcount, ?_⟩
  · exact braces_blockBody (onward_operandWithin d) (pairs_operandWithin d) id h.placed h.fits.2
  · obtain ⟨b, hb, hparent, -⟩ := hadvance.grows id _ (List.getElem?_eq_getElem h.inside.2)
    rw [heq]
    show t.scope.blocks[id]?.bind (·.parent) = _
    rw [hb, List.getElem?_eq_getElem h.inside.2, Option.bind_some, Option.bind_some, hparent]
  · rw [heq]
    exact hadvance.grows

end

/-- Whatever a source holds, each block of each function is read as a body that is reached. Every body
that is reached is read from its brace to the one that closes it, or to the end of the source, which is
then complained about, and everything around it is restored. The state counts the operands that are being
read, and these are never more than may nest: the levels that are left are what the count leaves. -/
theorem restores_reached (source : List Char) :
    (∀ name f, (name, f) ∈ (Program.parse source).functions → ∀ id < f.blocks.length,
      Covered source name id) ∧
    (∀ callers d task s, Reached source callers d task s →
      s.nesting = callers.countP Task.isOperand ∧ s.nesting + d = nestingLimit ∧
        s.nesting ≤ nestingLimit) ∧
    ∀ callers d id s, Reached source callers d (.body id) s →
      Restores id s (blockBody (operandWithin d) id s).2 := by
  refine ⟨fun name f hf id hid => covered_declarations source _ hf hid, ?_, ?_⟩
  · intro callers d task s h
    have hcount := h.nesting
    have hlevels := h.levels
    exact ⟨hcount, by omega, by omega⟩
  · exact fun callers d id s h => restores_blockBody d h.sits_body

def strayBracket : List Char := "func f() \x7b\n(1 + \x7b\n) \x7d\n\x7d".toList

theorem restores_reached_stray : ∃ callers d s, Reached strayBracket callers d (.body 1) s ∧
    s.scope.name = "f" ∧ s.nesting = callers.countP Task.isOperand ∧ s.nesting ≤ nestingLimit ∧
    Restores 1 s (blockBody (operandWithin d) 1 s).2 := by
  obtain ⟨hcovered, hlevels, hrestores⟩ := restores_reached strayBracket
  have hblocks : ((Program.parse strayBracket).functions.any fun (name, f) =>
      name == "f" && decide (1 < f.blocks.length)) = true := by decide +kernel
  obtain ⟨⟨name, f⟩, hf, htwo⟩ := List.any_eq_true.1 hblocks
  simp only [Bool.and_eq_true, beq_iff_eq, decide_eq_true_eq] at htwo
  obtain ⟨callers, d, s, hreached, hname⟩ := hcovered name f hf 1 htwo.2
  obtain ⟨hcount, -, hle⟩ := hlevels _ _ _ _ hreached
  exact ⟨callers, d, s, hreached, hname.trans htwo.1, hcount, hle, hrestores _ _ _ _ hreached⟩

end ScalarJit.Grammar
