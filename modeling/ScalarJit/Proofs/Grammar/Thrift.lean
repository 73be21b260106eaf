import ScalarJit.Proofs.Grammar.Motion
import ScalarJit.Proofs.Grammar.WellFormed

/-! # Slots are paid for by the source

A binding is spelled with a keyword of three letters, a name and a sign, so each slot beyond those of
the arguments takes five characters. The potential of a state is five for each slot given out and the
weight of all tokens that are still to be read; no motion raises it. -/

namespace ScalarJit

/-- How many characters of a binding a token is known to take. -/
def TokenKind.weight : TokenKind → Nat
  | .keyword .letBinding | .keyword .varBinding => 3
  | .identifier _ => 1
  | .symbol .assign => 1
  | _ => 0

namespace Segment

def weight : Segment → Nat
  | .lexeme kind _ => kind.weight
  | _ => 0

def totalWeight : List Segment → Nat
  | [] => 0
  | segment :: rest => segment.weight + totalWeight rest

theorem weight_wordKind_le {word : List Char} (h : word ≠ []) :
    (wordKind word).weight ≤ word.length := by
  have hpos := List.length_pos_iff.2 h
  unfold wordKind
  split
  · next keyword hk =>
    have hspelled : keyword.spelling = String.ofList word := by
      simpa using List.find?_some hk
    have hlen : word.length = keyword.spelling.length := by
      rw [hspelled, String.length_ofList]
    have hspelling : (TokenKind.keyword keyword).weight ≤ keyword.spelling.length := by
      cases keyword <;> decide
    rwa [hlen]
  · exact hpos

theorem weight_first_le (c : Char) (rest : List Char) :
    (first c rest).1.weight ≤ (first c rest).1.text.length := by
  unfold first
  split
  · exact Nat.zero_le _
  split
  · exact Nat.zero_le _
  split
  · exact Nat.zero_le _
  split
  · exact Nat.zero_le _
  split
  · exact Nat.zero_le _
  split
  · exact weight_wordKind_le (List.cons_ne_nil _ _)
  split
  · next symbol spelling after hs =>
    have hpos := List.length_pos_iff.2 (leadingSymbol?_spelling_ne_nil hs)
    have hone : (TokenKind.symbol symbol).weight ≤ 1 := by cases symbol <;> decide
    exact Nat.le_trans hone hpos
  · exact Nat.zero_le _

theorem totalWeight_all_le (source : List Char) : totalWeight (all source) ≤ source.length := by
  fun_induction all source with
  | case1 => exact Nat.le_refl 0
  | case2 c rest ih =>
    have hfirst := weight_first_le c rest
    have hwhole := congrArg List.length (text_first_append c rest)
    simp only [totalWeight, List.length_append] at *
    omega

end Segment

theorem Lexer.weight_scan_le (keepNewlines : Bool) (segments : List Segment) (position : Position)
    (lineStarted : Bool) :
    (scan keepNewlines segments position lineStarted).token.kind.weight +
        Segment.totalWeight (scan keepNewlines segments position lineStarted).lexer.rest ≤
      Segment.totalWeight segments := by
  induction segments generalizing position lineStarted with
  | nil => exact Nat.le_refl 0
  | cons segment rest ih =>
    have hcons : Segment.totalWeight (segment :: rest) = segment.weight + Segment.totalWeight rest :=
      rfl
    simp only [scan]
    split
    · next kind hkind =>
      cases segment with
      | lexeme kind text =>
        cases hkind
        exact Nat.le_of_eq hcons.symm
      | lineFeed =>
        cases keepNewlines
        · cases hkind
        · cases hkind
          exact Nat.le_of_eq hcons.symm
      | blank _ => cases hkind
      | tab => cases hkind
      | comment _ => cases hkind
      | invalid _ => cases hkind
    · have hrest := ih (position.afterAll segment.text) (startedAfter lineStarted segment)
      dsimp only
      omega

namespace Grammar

def State.weight (s : State) : Nat := s.token.kind.weight + Segment.totalWeight s.lexer.rest

def State.potential (s : State) : Nat := 5 * s.scope.slots + s.weight

theorem weight_bump_add_le (s : State) : s.bump.weight + s.token.kind.weight ≤ s.weight := by
  have hscan := Lexer.weight_scan_le (s.brackets == 0) s.lexer.rest s.lexer.position
    s.lexer.lineStarted
  rw [State.weight, State.weight, Nat.add_comm]
  exact Nat.add_le_add_left hscan _

theorem potential_bump_add_le (s : State) :
    s.bump.potential + s.token.kind.weight ≤ s.potential := by
  have hw := weight_bump_add_le s
  have hs : s.bump.scope.slots = s.scope.slots := rfl
  rw [State.potential, State.potential, hs]
  omega

/-- The tokens of a binding pay for its slot. -/
theorem potential_declare_le {s u v : State} {bound name : String} {ty : Ty} {mutable : Bool}
    (hs : s.token.kind = .keyword .letBinding ∨ s.token.kind = .keyword .varBinding)
    (hname : s.bump.token.kind = .identifier bound)
    (hu : u.potential ≤ s.bump.bump.potential) (hassign : u.token.kind = .symbol .assign)
    (hv : v.potential ≤ u.bump.potential) : (v.declare name ty mutable).2.potential ≤ s.potential := by
  have hkeyword := potential_bump_add_le s
  have hidentifier := potential_bump_add_le s.bump
  have hsign := potential_bump_add_le u
  have hthree : s.token.kind.weight = 3 := by rcases hs with h | h <;> rw [h] <;> rfl
  have hone : s.bump.token.kind.weight = 1 := by rw [hname]; rfl
  have hlast : u.token.kind.weight = 1 := by rw [hassign]; rfl
  have hdeclared : (v.declare name ty mutable).2.potential = v.potential + 5 := by
    show 5 * (v.scope.slots + 1) + v.weight = 5 * v.scope.slots + v.weight + 5
    omega
  omega

/-- Slots are given out, never taken back, and are paid for. -/
structure Frugal (s t : State) : Prop where
  potential : t.potential ≤ s.potential
  slots : s.scope.slots ≤ t.scope.slots

theorem Frugal.weight_le {s t : State} (h : Frugal s t) : t.weight ≤ s.weight := by
  have hp := h.potential
  have hs := h.slots
  rw [State.potential, State.potential] at hp
  omega

theorem motion_frugal : Motion Frugal where
  refl _ := ⟨Nat.le_refl _, Nat.le_refl _⟩
  trans hst htu := ⟨Nat.le_trans htu.1 hst.1, Nat.le_trans hst.2 htu.2⟩
  bump s := ⟨Nat.le_trans (Nat.le_add_right _ _) (potential_bump_add_le s), Nat.le_refl _⟩
  brackets _ _ := ⟨Nat.le_refl _, Nat.le_refl _⟩
  inside h := ⟨h.1, h.2⟩
  report _ _ := ⟨Nat.le_refl _, Nat.le_refl _⟩
  openBlock _ := ⟨Nat.le_refl _, Nat.le_refl _⟩
  addStatement _ _ _ := ⟨Nat.le_refl _, Nat.le_refl _⟩
  closeBlock _ _ := ⟨Nat.le_refl _, Nat.le_refl _⟩
  use _ _ := ⟨Nat.le_refl _, Nat.le_refl _⟩
  declare hs hname hu hassign hv :=
    ⟨potential_declare_le hs hname hu.1 hassign hv.1,
      Nat.le_succ_of_le (Nat.le_trans hu.2 hv.2)⟩

theorem weight_declareArguments (s : State) (args : List (String × Ty)) :
    (declareArguments s args).weight = s.weight := by
  induction args generalizing s with
  | nil => rfl
  | cons arg args ih => exact ih _

theorem potential_declareArguments (s : State) (args : List (String × Ty)) :
    (declareArguments s args).potential = s.potential + 5 * args.length := by
  induction args generalizing s with
  | nil => rfl
  | cons arg args ih =>
    have hdeclared : (s.declare arg.1 arg.2 false).2.potential = s.potential + 5 := by
      show 5 * (s.scope.slots + 1) + s.weight = 5 * s.scope.slots + s.weight + 5
      omega
    have hrest : (declareArguments s (arg :: args)).potential =
        (s.declare arg.1 arg.2 false).2.potential + 5 * args.length := ih _
    rw [hrest, hdeclared, List.length_cons]
    omega

/-- No function has more slots than its arguments and a source of `n` characters pay for. -/
def State.Thrifty (n : Nat) (s : State) : Prop :=
  s.weight ≤ n ∧
    ∀ entry ∈ s.functions, 5 * entry.2.slots ≤ 5 * entry.2.signature.args.length + n

section
variable {n : Nat} {s t : State}

theorem State.Thrifty.frugal (h : s.Thrifty n) (hst : Frugal s t)
    (hfs : t.functions = s.functions) : t.Thrifty n := by
  refine ⟨Nat.le_trans hst.weight_le h.1, ?_⟩
  rw [hfs]
  exact h.2

theorem State.Thrifty.functionBody (h : s.Thrifty n) (name : String) (signature : Signature) :
    (functionBody name signature s).Thrifty n := by
  obtain ⟨f, hf, -, hfs, -⟩ := functionBody_eq name signature s
  generalize ha : declareArguments (enter name signature s).openBlock.2 signature.args = start
  generalize hr : blockBody (operandWithin nestingLimit) rootBlock start = read
  -- The potential starts with what the arguments pay for, and does not grow in the body.
  have hread : Frugal start read.2 := by
    rw [← hr]
    exact motion_frugal.blockBody (motion_frugal.keeps_operandWithin nestingLimit) rootBlock start
  have hstart : start.potential = s.weight + 5 * signature.args.length := by
    rw [← ha, potential_declareArguments]
    exact congrArg (· + _) (Nat.zero_add s.weight)
  have heq : Grammar.functionBody name signature s =
      { read.2 with
        functions := read.2.functions ++
          [(name, ⟨signature, read.1, read.2.scope.blocks, read.2.scope.slots⟩)]
        scope := .empty } := by
    rw [← hr, ← ha]
    rfl
  have hslots : f.slots = read.2.scope.slots := by
    rw [heq] at hfs
    cases (List.append_inj' hfs rfl).2
    rfl
  have hs := h.1
  constructor
  · have hweight : (Grammar.functionBody name signature s).weight = read.2.weight := by
      rw [heq]
      rfl
    have hargs : start.weight = s.weight := by
      rw [← ha]
      exact weight_declareArguments _ _
    have hle := hread.weight_le
    omega
  · rw [hfs]
    intro entry hentry
    rcases List.mem_append.1 hentry with hold | hnew
    · exact h.2 entry hold
    · have hp := hread.potential
      rw [List.mem_singleton.1 hnew, hf, hslots]
      rw [State.potential] at hp
      omega

theorem State.Thrifty.declaration (h : s.Thrifty n) : (declaration s).Thrifty n := by
  have skip {t : State} (p : Problem) (hst : Untouched s t) (hp : Frugal s t) :
      (t.endDeclaration.report p).Thrifty n :=
    h.frugal (motion_frugal.trans (motion_frugal.trans hp (motion_frugal.endDeclaration t))
      (motion_frugal.report _ p))
      ((Untouched.endDeclaration t).functions.trans hst.functions)
  unfold Grammar.declaration
  split
  · have hhead := ends_iff.1 (Ends.and (passing_functionHead s)
      (motion_frugal.keeps_functionHead s))
    split
    · next name signature t hrun =>
      obtain ⟨⟨hst, -⟩, hp⟩ := hhead.1 _ _ hrun
      exact (h.frugal hp hst.functions).functionBody name signature
    · next problem t hrun => exact skip problem (hhead.2 _ _ hrun).1 (hhead.2 _ _ hrun).2
  · have huse := ends_iff.1 (Ends.and (ends_useDeclaration s)
      (motion_frugal.keeps_useDeclaration s))
    split
    · next t hrun =>
      obtain ⟨⟨hfs, -⟩, hp⟩ := huse.1 _ _ hrun
      exact h.frugal hp hfs
    · next problem t hrun => exact skip problem (huse.2 _ _ hrun).1 (huse.2 _ _ hrun).2
  · exact h.frugal (motion_frugal.bump s) rfl
  · exact skip _ (.refl s) (motion_frugal.refl s)

theorem State.Thrifty.declarations (bound : Nat) (h : s.Thrifty n) :
    (declarations bound s).Thrifty n := by
  induction bound generalizing s with
  | zero => exact h
  | succ bound ih =>
    rw [Grammar.declarations]
    split
    · exact h
    · exact ih h.declaration

end
end Grammar

/-- Each slot of a function that is not an argument's takes five characters of the source. -/
theorem Program.slots_parse_le (source : List Char) :
    ∀ entry ∈ (Program.parse source).functions,
      5 * entry.2.slots ≤ 5 * entry.2.signature.args.length + source.length := by
  have hstart : (Grammar.State.ofSource source).Thrifty source.length := by
    have hlex : (Lexer.ofSource source).rest = Segment.all source := rfl
    have hbump := Grammar.weight_bump_add_le
      ⟨source, .ofSource source, ⟨.newline, .start⟩, 0, 0, [], [], #[], .empty⟩
    refine ⟨Nat.le_trans (Nat.le_trans (Nat.le_add_right _ _) hbump) ?_, fun _ h => (by cases h)⟩
    rw [Grammar.State.weight, hlex]
    exact Nat.le_trans (Nat.le_of_eq (Nat.zero_add _)) (Segment.totalWeight_all_le source)
  exact (hstart.declarations _).2

end ScalarJit
