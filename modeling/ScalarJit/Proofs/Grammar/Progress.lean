import ScalarJit.Proofs.Isolation.Ahead
import ScalarJit.Proofs.Language.SoundDeclarations

/-! # Declarations make progress

Every declaration passes a token, also where it is given up, so that the bound on their number is never
used up and may as well be larger. -/

namespace ScalarJit.Grammar

section
variable {s t : State}

theorem passes_atBody (h : s.Placed) (name : String) (signature : Signature) :
    Passes s (atBody name signature s) := by
  obtain ⟨scope, heq⟩ := atBody_eq name signature s
  rw [heq]
  exact .still h rfl rfl rfl

theorem passes_functionBody (h : s.Placed) (name : String) (signature : Signature) :
    Passes s (functionBody name signature s) :=
  motion_passes.functionBody (fun _ _ _ h => .still h rfl rfl rfl) name signature s h

theorem length_ahead_endDeclaration (h : s.Placed) (hline : s.token.kind ≠ .newline)
    (hend : s.token.kind ≠ .endOfFile) : s.endDeclaration.ahead.length < s.ahead.length := by
  have hstill : Passes s { s with brackets := 0 } := .still h rfl rfl rfl
  have hbump : ({ s with brackets := 0 }.bump).ahead.length < s.ahead.length :=
    hstill.placed.length_ahead_bump hend
  have next : ∀ bound depth,
      (({ s with brackets := 0 }.bump).skipDeclaration bound depth).ahead.length < s.ahead.length := by
    intro bound depth
    exact Nat.lt_of_le_of_lt
      (motion_passes.skipDeclaration bound depth _ hstill.placed.bump).length_le hbump
  show (({ s with brackets := 0 } : State).skipDeclaration (s.lexer.rest.length + 1 + 1) 0).ahead.length <
    s.ahead.length
  rw [State.skipDeclaration]
  split
  · next hk => exact absurd hk hend
  · next hk => exact absurd hk hline
  · split
    · exact hbump
    · exact next _ _
  · exact next _ _
  · exact next _ _

theorem ends_functionHead_kind (s : State) :
    Ends functionHead s (fun _ t => t.token.kind = .symbol .openCurly) fun _ _ => True := by
  unfold functionHead
  refine (ends_bind _ _).2 (ends_token.2 ((ends_bind _ _).2 (ends_bump.2 ?_)))
  refine (ends_bind _ _).2 (ends_iff.2 ⟨fun head t _ => ?_, fun _ _ _ => trivial⟩)
  refine (ends_bind _ _).2 (ends_get.2 ?_)
  dsimp only
  split
  · trivial
  refine (ends_bind _ _).2 (ends_get.2 ?_)
  split
  · trivial
  refine (ends_bind _ _).2 ((ends_modify _).2 ((ends_bind _ _).2 (ends_kind.2 ?_)))
  split
  · trivial
  · next hopen => exact (ends_pure _).2 (Decidable.of_not_not hopen)

theorem ends_useDeclaration_kind (s : State) :
    Ends useDeclaration s (fun _ t => t.token.kind = .newline ∨ t.token.kind = .endOfFile)
      fun _ _ => True := by
  unfold useDeclaration
  refine (ends_bind _ _).2 (ends_token.2 ((ends_bind _ _).2 (ends_bump.2 ?_)))
  refine (ends_bind _ _).2 (ends_iff.2 ⟨fun head t _ => ?_, fun _ _ _ => trivial⟩)
  refine (ends_bind _ _).2 (ends_get.2 ?_)
  dsimp only
  split
  · trivial
  refine (ends_bind _ _).2 (ends_kind.2 ?_)
  split
  · next hline => exact .inl hline
  · next hend => exact .inr hend
  · trivial

theorem length_ahead_declaration (h : s.Placed) (hne : s.token.kind ≠ .endOfFile) :
    (declaration s).ahead.length < s.ahead.length := by
  have recovered : ∀ {t : State}, Passes s t → s.token.kind ≠ .newline →
      t.endDeclaration.ahead.length < s.ahead.length := by
    intro t hst hline
    by_cases hsame : t.ahead.length = s.ahead.length
    · have hkind := hst.kind_eq hsame
      rw [← hsame]
      exact length_ahead_endDeclaration hst.placed (by rwa [hkind]) (by rwa [hkind])
    · have hle := hst.length_le
      have hle' := (motion_passes.endDeclaration t hst.placed).length_le
      omega
  have moved : ∀ {t : State}, Passes s t → t.token.kind ≠ s.token.kind →
      t.ahead.length < s.ahead.length := by
    intro t hst hkind
    exact Nat.lt_of_le_of_ne hst.length_le fun hsame => hkind (hst.kind_eq hsame)
  unfold declaration
  split
  · next hk =>
    have hhead := ends_iff.1 (Ends.and (motion_passes.keeps_functionHead s) (ends_functionHead_kind s))
    split
    · next name signature t hrun =>
      obtain ⟨hst, hopen⟩ := hhead.1 _ _ hrun
      have hlt := moved (hst h) (by rw [hopen, hk]; simp)
      exact Nat.lt_of_le_of_lt (passes_functionBody (hst h).placed name signature).length_le hlt
    · next problem t hrun => exact recovered ((hhead.2 _ _ hrun).1 h) (by rw [hk]; simp)
  · next hk =>
    have huse := ends_iff.1 (Ends.and (motion_passes.keeps_useDeclaration s) (ends_useDeclaration_kind s))
    split
    · next t hrun =>
      obtain ⟨hst, hended⟩ := huse.1 _ _ hrun
      exact moved (hst h) (by rw [hk]; rcases hended with hended | hended <;> simp [hended])
    · next problem t hrun => exact recovered ((huse.2 _ _ hrun).1 h) (by rw [hk]; simp)
  · exact h.length_ahead_bump hne
  · next hfunction huse hline => exact recovered (.refl h) hline

theorem passes_declaration (h : s.Placed) : Passes s (declaration s) :=
  motion_passes.declaration (fun _ _ _ h => .still h rfl rfl rfl) s h

theorem passes_declarations (bound : Nat) (h : s.Placed) : Passes s (declarations bound s) :=
  motion_passes.declarations (fun _ _ _ h => .still h rfl rfl rfl) bound s h

theorem declarations_add (m n : Nat) (s : State) :
    declarations (m + n) s = declarations n (declarations m s) := by
  induction m generalizing s with
  | zero => rw [Nat.zero_add, declarations]
  | succ m ih =>
    rw [Nat.succ_add, declarations, declarations]
    by_cases hend : s.token.kind = .endOfFile
    · rw [if_pos hend, if_pos hend]
      cases n with
      | zero => rfl
      | succ n => rw [declarations, if_pos hend]
    · rw [if_neg hend, if_neg hend, ih]

theorem end_declarations {bound : Nat} (h : s.Placed) (hbound : s.ahead.length ≤ bound) :
    (declarations bound s).token.kind = .endOfFile := by
  induction bound generalizing s with
  | zero =>
    have hpos := s.length_ahead_pos
    omega
  | succ bound ih =>
    rw [declarations]
    split
    · assumption
    · next hne =>
      have hlt := length_ahead_declaration h hne
      exact ih (passes_declaration h).placed (by omega)

theorem declarations_of_le {bound bound' : Nat} (h : s.Placed) (hbound : s.ahead.length ≤ bound)
    (hle : bound ≤ bound') : declarations bound' s = declarations bound s := by
  induction bound generalizing bound' s with
  | zero =>
    have hpos := s.length_ahead_pos
    omega
  | succ bound ih =>
    obtain ⟨bound', rfl⟩ : ∃ n, bound' = n + 1 := ⟨bound' - 1, by omega⟩
    rw [declarations, declarations]
    split
    · rfl
    · next hne =>
      have hlt := length_ahead_declaration h hne
      exact ih (passes_declaration h).placed (by omega) (by omega)

end

end ScalarJit.Grammar
