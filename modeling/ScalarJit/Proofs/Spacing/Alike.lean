import ScalarJit.Proofs.Lockstep.Readers

/-! # Readers of the same tokens

Two texts without faults can differ in blanks and comments and still have the same tokens. Their
readers are `Alike` when they have the same tokens before them, know the same of the program and have
said the same. Where they stand in their texts does not matter. They go in step. -/

namespace ScalarJit

def Diagnostic.said (d : Diagnostic) : Severity × String := (d.severity, d.message)

theorem said_diagnostics (source source' : List Char) {p p' : Problem}
    (h : p'.complaint = p.complaint) :
    (p'.diagnostics source').map Diagnostic.said = (p.diagnostics source).map Diagnostic.said := by
  unfold Problem.diagnostics
  rw [h]
  cases p.complaint.note? <;> rfl

namespace Lexer

/-- Tokens from the next one on, for a reader that keeps line feeds or passes them. -/
def pending (keepNewlines : Bool) (kinds : List TokenKind) : List TokenKind :=
  if keepNewlines then kinds else kinds.dropWhile (· = .newline)

theorem pending_kindsOf (keepNewlines : Bool) (segments : List Segment) (position : Position)
    (lineStarted : Bool) (hproper : ∀ segment ∈ segments, segment.Proper) :
    pending keepNewlines (kindsOf segments) =
      if (scan keepNewlines segments position lineStarted).token.kind = .endOfFile then [.endOfFile]
      else (scan keepNewlines segments position lineStarted).token.kind ::
        kindsOf (scan keepNewlines segments position lineStarted).lexer.rest := by
  induction segments generalizing position lineStarted with
  | nil => cases keepNewlines <;> rfl
  | cons segment rest ih =>
    have hrest := ih (position.afterAll segment.text) (startedAfter lineStarted segment)
      fun other hmem => hproper other (.tail _ hmem)
    have hthis := hproper segment (.head _)
    rw [scan]
    cases segment with
    | lexeme kind text =>
      have hkinds : kindsOf (.lexeme kind text :: rest) = kind :: kindsOf rest := rfl
      have hpending : pending keepNewlines (kind :: kindsOf rest) = kind :: kindsOf rest := by
        cases keepNewlines with
        | true => rfl
        | false => simp [pending, hthis.1]
      rw [hkinds, hpending]
      exact (if_neg hthis.2).symm
    | lineFeed =>
      cases keepNewlines with
      | true => rfl
      | false => exact hrest
    | blank c => exact hrest
    | tab => exact hrest
    | comment text => exact hrest
    | invalid c => exact hrest

/-- A lexer without faults before it, behind a token. Behind the end there is nothing. -/
structure Tidy (l : Lexer) (kind : TokenKind) : Prop where
  clean : l.Clean
  ended : kind = .endOfFile → l.rest = []

end Lexer

namespace Grammar

def State.upcoming (s : State) : List TokenKind :=
  if s.token.kind = .endOfFile then [.endOfFile] else s.token.kind :: Lexer.kindsOf s.lexer.rest

namespace State

theorem upcoming_of_ne {s : State} (h : s.token.kind ≠ .endOfFile) :
    s.upcoming = s.token.kind :: Lexer.kindsOf s.lexer.rest := if_neg h

theorem head?_upcoming (s : State) : s.upcoming.head? = some s.token.kind := by
  unfold upcoming
  split
  · next hend => rw [hend]; rfl
  · rfl

theorem length_upcoming_pos (s : State) : 0 < s.upcoming.length := by
  unfold upcoming
  split <;> simp

theorem length_upcoming_le (s : State) : s.upcoming.length ≤ s.remaining := by
  have hle := List.length_filterMap_le (Lexer.tokenOf true) s.lexer.rest
  unfold upcoming remaining
  split
  · simp
  · rw [List.length_cons, Lexer.kindsOf, List.length_append, List.length_singleton]
    omega

variable {s : State} (h : s.lexer.Tidy s.token.kind)
include h

theorem kindsOf_rest : Lexer.kindsOf s.lexer.rest =
    if s.token.kind = .endOfFile then [.endOfFile] else s.upcoming.tail := by
  unfold upcoming
  split
  · next hend => rw [h.ended hend]; rfl
  · rfl

theorem tidy_bump : s.bump.lexer.Tidy s.bump.token.kind where
  clean := (h.clean.next _).2
  ended := Lexer.rest_scan_of_end h.clean.proper

theorem upcoming_bump :
    s.bump.upcoming = Lexer.pending (s.brackets == 0) (Lexer.kindsOf s.lexer.rest) :=
  (Lexer.pending_kindsOf _ _ _ _ h.clean.proper).symm

theorem diagnostics_bump : s.bump.diagnostics = s.diagnostics := by
  have hnone : (s.lexer.next (s.brackets == 0)).faults = [] := (h.clean.next _).1
  show s.diagnostics ++ ((s.lexer.next (s.brackets == 0)).faults.map _).toArray = s.diagnostics
  rw [hnone, List.map_nil, Array.append_empty]

theorem upcoming_bump_suffix : s.bump.upcoming <:+ s.upcoming := by
  have hdrop : ∀ kinds, Lexer.pending (s.brackets == 0) kinds <:+ kinds := by
    intro kinds
    unfold Lexer.pending
    split
    · exact List.suffix_rfl
    · exact List.dropWhile_suffix _
  rw [upcoming_bump h, kindsOf_rest h]
  split
  · next hend =>
    rw [upcoming, if_pos hend]
    exact hdrop _
  · exact (hdrop _).trans (List.tail_suffix _)

theorem length_upcoming_bump (hne : s.token.kind ≠ .endOfFile) :
    s.bump.upcoming.length < s.upcoming.length := by
  have hdrop : ∀ kinds, (Lexer.pending (s.brackets == 0) kinds).length ≤ kinds.length := by
    intro kinds
    unfold Lexer.pending
    split
    · exact Nat.le_refl _
    · exact (List.dropWhile_suffix _).length_le
  rw [upcoming_bump h, upcoming_of_ne hne, List.length_cons]
  exact Nat.lt_succ_of_le (hdrop _)

end State

namespace Spacing

/-- Two readers with the same tokens before them, that know and have said the same. -/
structure Alike (s s' : State) : Prop where
  tidy : s.lexer.Tidy s.token.kind
  tidy' : s'.lexer.Tidy s'.token.kind
  upcoming : s'.upcoming = s.upcoming
  brackets : s'.brackets = s.brackets
  nesting : s'.nesting = s.nesting
  scope : s'.scope = s.scope
  functions : s'.functions = s.functions
  externs : s'.externs = s.externs
  said : s'.diagnostics.toList.map Diagnostic.said = s.diagnostics.toList.map Diagnostic.said

variable {s s' : State}

theorem Alike.kind (h : Alike s s') : s'.token.kind = s.token.kind := by
  have hhead := congrArg List.head? h.upcoming
  rw [State.head?_upcoming, State.head?_upcoming] at hhead
  exact Option.some.inj hhead

theorem Alike.bump (h : Alike s s') : Alike s.bump s'.bump := by
  refine ⟨State.tidy_bump h.tidy, State.tidy_bump h.tidy', ?_, h.brackets, h.nesting,
    h.scope, h.functions, h.externs, ?_⟩
  · rw [State.upcoming_bump h.tidy', State.upcoming_bump h.tidy, State.kindsOf_rest h.tidy',
      State.kindsOf_rest h.tidy, h.brackets, h.kind, h.upcoming]
  · rw [State.diagnostics_bump h.tidy', State.diagnostics_bump h.tidy]
    exact h.said

theorem Alike.report (h : Alike s s') {p p' : Problem} (hp : p'.complaint = p.complaint) :
    Alike (s.report p) (s'.report p') := by
  refine { h with said := ?_ }
  show List.map _ (s'.diagnostics ++ _).toList = List.map _ (s.diagnostics ++ _).toList
  rw [Array.toList_append, Array.toList_append, List.map_append, List.map_append, h.said]
  exact congrArg (_ ++ ·) (said_diagnostics s.source s'.source hp)

theorem kind_of_suffix {t : State} (h : t.upcoming <:+ s.upcoming)
    (hlength : t.upcoming.length = s.upcoming.length) : t.token.kind = s.token.kind := by
  have hhead := congrArg List.head? (h.eq_of_length hlength)
  rw [State.head?_upcoming, State.head?_upcoming] at hhead
  exact Option.some.inj hhead

def lockstep : Lockstep where
  beside := Alike
  lost _ := False
  passes s t := t.upcoming <:+ s.upcoming
  left s := s.upcoming.length
  matched start start' := start'.kind = start.kind
  blamed p p' := p'.complaint = p.complaint
  lost_passes h _ := h
  trans hst htu := htu.trans hst
  left_pos := State.length_upcoming_pos
  left_le h := h.length_le
  kind_of_left := kind_of_suffix
  left_remaining h := ⟨State.length_upcoming_le _, h.upcoming ▸ State.length_upcoming_le _⟩
  left_bump h := State.length_upcoming_bump h.tidy
  still {s _ t} _ _ htoken hlexer := by
    have hsame : t.upcoming = s.upcoming := by
      rw [State.upcoming, State.upcoming, htoken, hlexer]
    exact hsame ▸ List.suffix_rfl
  kind_eq := Alike.kind
  brackets_eq := Alike.brackets
  nesting_eq := Alike.nesting
  scope_eq := Alike.scope
  externs_eq := Alike.externs
  headers_eq h := congrArg _ h.functions
  token_matched h := ⟨_, h.kind, .inr rfl⟩
  matched_kind h := h
  blame _ _ := rfl
  bump_beside h := ⟨State.upcoming_bump_suffix h.tidy, _, h.bump, .inr rfl⟩
  report h := h.report
  setBrackets h _ := { h with brackets := rfl }
  setNesting h _ := { h with nesting := rfl }
  setScope h _ := { h with scope := rfl }
  use h entry := { h with externs := congrArg (· ++ [entry]) h.externs }
  function h f := { h with functions := congrArg (· ++ [f]) h.functions }

theorem alike_declarations (bound : Nat) (h : Alike s s') :
    Alike (declarations bound s) (declarations bound s') := by
  have hbeside : lockstep.beside s s' := h
  obtain ⟨-, t', ht, hfound⟩ := Lockstep.meets_declarations bound hbeside
  have hsame : declarations bound s' = t' := hfound.resolve_left id
  rw [hsame]
  exact ht

end Spacing
end Grammar
end ScalarJit
