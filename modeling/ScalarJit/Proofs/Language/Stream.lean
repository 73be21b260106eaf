import ScalarJit.Proofs.Grammar.Motion
import ScalarJit.Proofs.Language.Derivation

/-! # The tokens that are left

A reader looks at one token and fetches the next one when it moves on, with or without line feeds
after the brackets that are open then. `Stands` says which significant tokens it has before it. -/

namespace ScalarJit

def Segment.Proper : Segment → Prop
  | .lexeme kind _ => kind ≠ .newline ∧ kind ≠ .endOfFile
  | _ => True

theorem Segment.proper_all (source : List Char) : ∀ segment ∈ Segment.all source, segment.Proper := by
  have hfirst : ∀ (c : Char) (rest : List Char), (Segment.first c rest).1.Proper := by
    intro c rest
    unfold Segment.first
    split
    · trivial
    split
    · trivial
    split
    · trivial
    split
    · trivial
    split
    · simp [Segment.Proper]
    split
    · simp only [Segment.Proper, Segment.wordKind]
      split <;> simp
    split <;> simp [Segment.Proper]
  fun_induction Segment.all source with
  | case1 => exact fun _ h => (by cases h)
  | case2 c rest ih =>
    intro segment hmem
    rcases List.mem_cons.1 hmem with rfl | hmem
    · exact hfirst c rest
    · exact ih segment hmem

namespace Lexer

def faultsOf : List Segment → Position → Bool → List LocatedFault
  | [], _, _ => []
  | segment :: rest, position, lineStarted =>
    faultOf position lineStarted segment ++
      faultsOf rest (position.afterAll segment.text) (startedAfter lineStarted segment)

def kindsOf (segments : List Segment) : List TokenKind :=
  segments.filterMap (tokenOf true) ++ [.endOfFile]

structure Clean (l : Lexer) : Prop where
  faults : faultsOf l.rest l.position l.lineStarted = []
  proper : ∀ segment ∈ l.rest, segment.Proper

theorem faultsOf_scan (keepNewlines : Bool) (segments : List Segment) (position : Position)
    (lineStarted : Bool) :
    faultsOf segments position lineStarted =
      (scan keepNewlines segments position lineStarted).faults ++
        faultsOf (scan keepNewlines segments position lineStarted).lexer.rest
          (scan keepNewlines segments position lineStarted).lexer.position
          (scan keepNewlines segments position lineStarted).lexer.lineStarted := by
  induction segments generalizing position lineStarted with
  | nil => rfl
  | cons segment rest ih =>
    rw [faultsOf, scan]
    split
    · next kind hkind =>
      have hnone : faultOf position lineStarted segment = [] := by
        cases segment <;> first | rfl | cases hkind
      rw [hnone]
    · rw [ih, List.append_assoc]

theorem mem_of_mem_scan {keepNewlines : Bool} {segments : List Segment} {position : Position}
    {lineStarted : Bool} {segment : Segment}
    (h : segment ∈ (scan keepNewlines segments position lineStarted).lexer.rest) :
    segment ∈ segments := by
  induction segments generalizing position lineStarted with
  | nil => exact h
  | cons first rest ih =>
    rw [scan] at h
    split at h
    · exact List.mem_cons_of_mem _ h
    · exact List.mem_cons_of_mem _ (ih h)

theorem Clean.next {l : Lexer} (h : l.Clean) (keepNewlines : Bool) :
    (l.next keepNewlines).faults = [] ∧ (l.next keepNewlines).lexer.Clean := by
  have hfaults := faultsOf_scan keepNewlines l.rest l.position l.lineStarted
  rw [h.faults] at hfaults
  obtain ⟨hnow, hlater⟩ := List.append_eq_nil_iff.1 hfaults.symm
  exact ⟨hnow, hlater, fun segment hmem => h.proper segment (mem_of_mem_scan hmem)⟩

theorem significant_scan (m : Grammar.Mode) (segments : List Segment) (position : Position)
    (lineStarted : Bool) (hproper : ∀ segment ∈ segments, segment.Proper) :
    Grammar.significant m (kindsOf segments) =
      if (scan (m.depth == 0) segments position lineStarted).token.kind = .endOfFile then [.endOfFile]
      else (scan (m.depth == 0) segments position lineStarted).token.kind ::
        Grammar.significant (m.after (scan (m.depth == 0) segments position lineStarted).token.kind)
          (kindsOf (scan (m.depth == 0) segments position lineStarted).lexer.rest) := by
  induction segments generalizing position lineStarted with
  | nil =>
    have hkinds : kindsOf [] = [.endOfFile] := rfl
    rw [hkinds, Grammar.significant, if_neg (by simp), scan, if_pos rfl]
    rfl
  | cons segment rest ih =>
    have hrest := ih (position.afterAll segment.text) (startedAfter lineStarted segment)
      fun other hmem => hproper other (List.mem_cons_of_mem _ hmem)
    have hthis := hproper segment List.mem_cons_self
    rw [scan]
    cases segment with
    | lexeme kind text =>
      have hkinds : kindsOf (.lexeme kind text :: rest) = kind :: kindsOf rest := rfl
      rw [hkinds, Grammar.significant, if_neg fun h => hthis.1 h.1]
      exact (if_neg hthis.2).symm
    | lineFeed =>
      have hkinds : kindsOf (.lineFeed :: rest) = .newline :: kindsOf rest := rfl
      rw [hkinds, Grammar.significant]
      by_cases hdepth : m.depth = 0
      · rw [if_neg fun h => Nat.ne_of_gt h.2 hdepth]
        simp [tokenOf, hdepth]
      · rw [if_pos ⟨rfl, Nat.pos_of_ne_zero hdepth⟩]
        have hkeep : (m.depth == 0) = false := by simpa using hdepth
        rw [hkeep] at hrest ⊢
        exact hrest
    | blank c => exact hrest
    | tab => exact hrest
    | comment text => exact hrest
    | invalid c => exact hrest

theorem kinds_scan (segments : List Segment) (position : Position) (lineStarted : Bool)
    (hproper : ∀ segment ∈ segments, segment.Proper) :
    kindsOf segments = if (scan true segments position lineStarted).token.kind = .endOfFile
      then [.endOfFile]
      else (scan true segments position lineStarted).token.kind ::
        kindsOf (scan true segments position lineStarted).lexer.rest := by
  induction segments generalizing position lineStarted with
  | nil => rfl
  | cons segment rest ih =>
    have hrest := ih (position.afterAll segment.text) (startedAfter lineStarted segment)
      fun other hmem => hproper other (List.mem_cons_of_mem _ hmem)
    have hthis := hproper segment List.mem_cons_self
    rw [scan]
    cases segment with
    | lexeme kind text =>
      exact (if_neg hthis.2).symm
    | lineFeed => rfl
    | blank c => exact hrest
    | tab => exact hrest
    | comment text => exact hrest
    | invalid c => exact hrest

theorem rest_scan_of_end {keepNewlines : Bool} {segments : List Segment} {position : Position}
    {lineStarted : Bool} (hproper : ∀ segment ∈ segments, segment.Proper)
    (h : (scan keepNewlines segments position lineStarted).token.kind = .endOfFile) :
    (scan keepNewlines segments position lineStarted).lexer.rest = [] := by
  induction segments generalizing position lineStarted with
  | nil => rfl
  | cons segment rest ih =>
    have hrest : (scan keepNewlines rest (position.afterAll segment.text)
        (startedAfter lineStarted segment)).token.kind = .endOfFile → _ :=
      ih fun other hmem => hproper other (List.mem_cons_of_mem _ hmem)
    have hthis := hproper segment List.mem_cons_self
    rw [scan] at h ⊢
    cases segment with
    | lexeme kind text => exact absurd h hthis.2
    | lineFeed =>
      cases keepNewlines with
      | true => cases h
      | false => exact hrest h
    | blank c => exact hrest h
    | tab => exact hrest h
    | comment text => exact hrest h
    | invalid c => exact hrest h

theorem collect_eq {bound : Nat} {l : Lexer} (hbound : l.rest.length < bound)
    (hproper : ∀ segment ∈ l.rest, segment.Proper) :
    (l.collect true bound).1.map (·.kind) = kindsOf l.rest ∧
      (l.collect true bound).2 = faultsOf l.rest l.position l.lineStarted := by
  induction bound generalizing l with
  | zero => omega
  | succ bound ih =>
    have hkinds := kinds_scan l.rest l.position l.lineStarted hproper
    have hfaults := faultsOf_scan true l.rest l.position l.lineStarted
    rw [collect]
    by_cases hend : (l.next true).token.kind = .endOfFile
    · have hkinds := hkinds.trans (if_pos hend)
      rw [if_pos hend]
      refine ⟨?_, ?_⟩
      · rw [hkinds, List.map_singleton, hend]
      · rw [hfaults, rest_scan_of_end hproper hend, faultsOf, List.append_nil]
        rfl
    · have hlt := l.length_rest_next_lt true hend
      have hkinds := hkinds.trans (if_neg hend)
      rw [if_neg hend]
      obtain ⟨hrest, hlater⟩ := ih (l := (l.next true).lexer) (by omega)
        fun segment hmem => hproper segment (mem_of_mem_scan hmem)
      refine ⟨?_, ?_⟩
      · rw [hkinds, List.map_cons, hrest]
        rfl
      · rw [hfaults]
        exact congrArg ((l.next true).faults ++ ·) hlater

end Lexer

theorem tokenize_eq (source : List Char) :
    (tokenize source true).1.map (·.kind) = Lexer.kindsOf (Segment.all source) ∧
      (tokenize source true).2 = Lexer.faultsOf (Segment.all source) .start false :=
  Lexer.collect_eq (Nat.lt_succ_self _) (Segment.proper_all source)

namespace Grammar

theorem length_significant_le (m : Mode) (kinds : List TokenKind) :
    (significant m kinds).length ≤ kinds.length := by
  induction kinds generalizing m with
  | nil => exact Nat.le_refl 0
  | cons k rest ih =>
    rw [significant]
    split
    · exact Nat.le_succ_of_le (ih m)
    · exact Nat.succ_le_succ (ih _)

def State.errors (s : State) : Nat := Diagnostic.errorCount s.diagnostics.toList

/-- What stays the same from operand to operand. -/
structure World where
  functions : List (Named Function)
  externs : List (Named Signature)
  errors : Nat
  nesting : Nat

def World.inside (w : World) (nesting : Nat) : World := { w with nesting }

/-- A reader without faults before it has the given tokens left. -/
structure Stands (w : World) (m : Mode) (σ : Scope) (toks : List TokenKind) (s : State) : Prop where
  clean : s.lexer.Clean
  functions : s.functions = w.functions
  externs : s.externs = w.externs
  errors : s.errors = w.errors
  brackets : s.brackets = m.depth
  nesting : s.nesting = w.nesting
  scope : s.scope = σ
  tokens : toks = if s.token.kind = .endOfFile then [.endOfFile]
    else s.token.kind :: significant (m.after s.token.kind) (Lexer.kindsOf s.lexer.rest)

namespace Stands

variable {w : World} {m : Mode} {σ : Scope} {toks rest : List TokenKind} {k : TokenKind} {s : State}

theorem cons (h : Stands w m σ toks s) : ∃ rest, toks = s.token.kind :: rest := by
  rw [h.tokens]
  split
  · next hend =>
    rw [hend]
    exact ⟨_, rfl⟩
  · exact ⟨_, rfl⟩

theorem kind_eq (h : Stands w m σ (k :: rest) s) : s.token.kind = k := by
  obtain ⟨rest', heq⟩ := h.cons
  exact (List.cons.inj heq).1.symm

theorem length_le (h : Stands w m σ toks s) : toks.length ≤ s.remaining := by
  have hkinds : (Lexer.kindsOf s.lexer.rest).length ≤ s.lexer.rest.length + 1 := by
    have hle := List.length_filterMap_le (Lexer.tokenOf true) s.lexer.rest
    rw [Lexer.kindsOf, List.length_append, List.length_singleton]
    omega
  have hsignificant := length_significant_le (m.after s.token.kind) (Lexer.kindsOf s.lexer.rest)
  rw [h.tokens, State.remaining]
  split
  · rw [List.length_singleton]
    omega
  · rw [List.length_cons]
    omega

theorem bump_brackets (h : Stands w m σ (k :: rest) s) (hk : k ≠ .endOfFile) (count : Nat)
    (hcount : count = (m.after k).depth) :
    Stands w (m.after k) σ rest { s with brackets := count }.bump := by
  have hkind := h.kind_eq
  have htokens := h.tokens
  rw [hkind, if_neg hk, List.cons.injEq] at htokens
  obtain ⟨hfaults, hclean⟩ := h.clean.next ((m.after k).depth == 0)
  have hscan := Lexer.significant_scan (m.after k) s.lexer.rest s.lexer.position s.lexer.lineStarted
    h.clean.proper
  have herrors : ({ s with brackets := count }.bump).errors = s.errors := by
    have hnone : (s.lexer.next (count == 0)).faults = [] := by rw [hcount]; exact hfaults
    show Diagnostic.errorCount (s.diagnostics ++ ((s.lexer.next (count == 0)).faults.map
      (·.diagnostic s.source)).toArray).toList = s.errors
    rw [hnone, List.map_nil, Array.append_empty]
    rfl
  subst hcount
  exact ⟨hclean, h.functions, h.externs, herrors.trans h.errors, rfl, h.nesting, h.scope,
    htokens.2.trans hscan⟩

theorem bump (h : Stands w m σ (k :: rest) s) (hk : k ≠ .endOfFile) (hmode : m.after k = m) :
    Stands w m σ rest s.bump := by
  have hnext := h.bump_brackets hk s.brackets (by rw [hmode, h.brackets])
  rw [hmode] at hnext
  exact hnext

theorem withScope (h : Stands w m σ toks s) (σ' : Scope) :
    Stands w m σ' toks { s with scope := σ' } :=
  ⟨h.clean, h.functions, h.externs, h.errors, h.brackets, h.nesting, rfl, h.tokens⟩

theorem descend (h : Stands w m σ toks s) : Stands (w.inside (w.nesting + 1)) m σ toks s.descend :=
  ⟨h.clean, h.functions, h.externs, h.errors, h.brackets, congrArg (· + 1) h.nesting, h.scope, h.tokens⟩

theorem ascend (h : Stands (w.inside (w.nesting + 1)) m σ toks s) : Stands w m σ toks s.ascend :=
  ⟨h.clean, h.functions, h.externs, h.errors, h.brackets, congrArg (· - 1) h.nesting, h.scope, h.tokens⟩

end Stands

theorem stands_ofSource {source : List Char} (h : (tokenize source true).2 = []) :
    Stands ⟨[], [], 0, 0⟩ ⟨0, []⟩ .empty (tokens source) (.ofSource source) := by
  have hproper := Segment.proper_all source
  obtain ⟨hkinds, hfaults⟩ := tokenize_eq source
  have hclean : (Lexer.ofSource source).Clean := ⟨hfaults.symm.trans h, hproper⟩
  rw [tokens, hkinds]
  have hstart : Stands ⟨[], [], 0, 0⟩ ⟨0, []⟩ .empty
      (.newline :: significant ⟨0, []⟩ (Lexer.kindsOf (Segment.all source)))
      { source
        lexer := .ofSource source
        token := ⟨.newline, .start⟩
        brackets := 0
        nesting := 0
        functions := []
        externs := []
        diagnostics := #[]
        scope := .empty } :=
    ⟨hclean, rfl, rfl, rfl, rfl, rfl, rfl, rfl⟩
  exact hstart.bump (by simp) rfl

end Grammar
end ScalarJit
