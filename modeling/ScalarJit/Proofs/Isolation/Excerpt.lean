import ScalarJit.Proofs.Lockstep.Readers

/-! # A text read alone and inside another

The reader of a text is followed by the reader of a longer one that holds it. They go in step, the
second further down by the lines above the text, until the first comes to its end while the second has
more to read. From there on nothing is said of the second. -/

namespace ScalarJit

open Segment (text)

def Token.down (count : Nat) (t : Token) : Token := { t with position := t.position.down count }

theorem Token.kind_down (count : Nat) (t : Token) : (t.down count).kind = t.kind := rfl

def LocatedFault.down (count : Nat) (f : LocatedFault) : LocatedFault :=
  { f with position := f.position.down count }

def Problem.down (count : Nat) (p : Problem) : Problem := { p with position := p.position.down count }

namespace Lexer

/-- A lexer that many lines further down, with more behind it. -/
def within (behind : List Segment) (count : Nat) (l : Lexer) : Lexer :=
  ⟨l.rest ++ behind, l.position.down count, l.lineStarted⟩

theorem scan_within (keepNewlines : Bool) (segments behind : List Segment) (position : Position)
    (lineStarted : Bool) (count : Nat)
    (h : (scan keepNewlines segments position lineStarted).token.kind ≠ .endOfFile ∨ behind = []) :
    scan keepNewlines (segments ++ behind) (position.down count) lineStarted =
      { token := (scan keepNewlines segments position lineStarted).token.down count
        faults := (scan keepNewlines segments position lineStarted).faults.map (·.down count)
        lexer := (scan keepNewlines segments position lineStarted).lexer.within behind count } := by
  induction segments generalizing position lineStarted with
  | nil =>
    have hnone : behind = [] := h.resolve_left fun hne => hne rfl
    subst hnone
    rfl
  | cons g rest ih =>
    rw [List.cons_append, scan, Position.afterAll_down]
    rw [scan] at h ⊢
    cases hkind : tokenOf keepNewlines g with
    | some kind => rfl
    | none =>
      rw [hkind] at h
      have hfault : faultOf (position.down count) lineStarted g =
          (faultOf position lineStarted g).map (·.down count) := by
        cases g with
        | tab => cases lineStarted <;> rfl
        | _ => rfl
      simp only [ih _ _ h, hfault, List.map_append]

end Lexer

namespace Grammar

/-- A text and a longer one that holds it. -/
structure Excerpt where
  text : List Char
  whole : List Char
  behind : List Segment
  above : Nat
  /-- What was reported before the text was come to. -/
  earlier : List Diagnostic
  /-- Names of functions that need not have the same body in both. -/
  changed : String → Bool
  lines : ∀ n ≤ text.count '\n', Text.lineAt whole (n + above) = Text.lineAt text n

namespace Excerpt

def Has (w : Excerpt) (p : Position) : Prop := 1 ≤ p.line ∧ p.line ≤ w.text.count '\n' + 1

/-- The reader of the text is at its end, and the other has more to read. -/
def Lost (w : Excerpt) (s : State) : Prop := s.token.kind = .endOfFile ∧ w.behind ≠ []

/-- What the readers know of the program is the same, up to bodies that may differ. -/
structure Known (w : Excerpt) (s s' : State) : Prop where
  brackets : s'.brackets = s.brackets
  nesting : s'.nesting = s.nesting
  scope : s'.scope = s.scope
  externs : s'.externs = s.externs
  headers : s'.functions.map header = s.functions.map header
  others : s'.functions.filter (fun f => !w.changed f.1) = s.functions.filter fun f => !w.changed f.1

structure Agree (w : Excerpt) (s s' : State) : Prop extends w.Known s s' where
  kind : s'.token.kind = s.token.kind
  remaining : s.remaining ≤ s'.remaining

/-- The readers have the same of the text left to read, and reported the same in it. -/
structure Aligned (w : Excerpt) (s s' : State) : Prop where
  source : s'.source = w.whole
  lexer : s'.lexer = s.lexer.within w.behind w.above
  diagnostics : s'.diagnostics.toList = w.earlier ++ s.diagnostics.toList.map (·.down w.above)
  has : ∀ d ∈ s.diagnostics.toList, w.Has d.position

structure Matches (w : Excerpt) (s s' : State) : Prop extends w.Aligned s s' where
  token : s'.token = s.token.down w.above

/-- The readers are in step, or the first is lost. -/
structure Beside (w : Excerpt) (s s' : State) : Prop where
  placed : s.Placed
  source : s.source = w.text
  agree : w.Agree s s'
  found : w.Lost s ∨ w.Matches s s'

variable {w : Excerpt} {s s' t t' u x y : State}

theorem about_down (w : Excerpt) {p : Position} (h : w.Has p) (severity : Severity) (message : String) :
    Diagnostic.about w.whole severity message (p.down w.above) =
      (Diagnostic.about w.text severity message p).down w.above := by
  have hline : p.line + w.above - 1 = p.line - 1 + w.above := by
    have := h.1
    omega
  have hlines := w.lines (p.line - 1) (by have := h.2; omega)
  unfold Diagnostic.about Diagnostic.down
  rw [show (p.down w.above).line - 1 = p.line - 1 + w.above from hline, hlines]

theorem has_of_ready (hready : s.Ready) (hsource : s.source = w.text) {p : Position}
    (hline : 1 ≤ p.line) (hp : p.UpTo s.lexer.position) : w.Has p := by
  obtain ⟨done, hdone, hposition⟩ := hready.source
  refine ⟨hline, ?_⟩
  have hle : p.line ≤ s.lexer.position.line := by
    unfold Position.UpTo at hp
    omega
  refine Nat.le_trans hle ?_
  rw [hposition, Position.line_afterAll, ← hsource, hdone, List.count_append]
  show 1 + _ ≤ _
  omega

theorem Beside.has (h : w.Beside s s') : w.Has s.token.position :=
  has_of_ready h.placed.toReady h.source h.placed.line h.placed.token

theorem Lost.passes (h : w.Lost s) (hst : Passes s t) : w.Lost t := ⟨hst.end h.1, h.2⟩

theorem agree_refl (w : Excerpt) (s : State) : w.Agree s s :=
  ⟨⟨rfl, rfl, rfl, rfl, rfl, rfl⟩, rfl, Nat.le_refl _⟩

theorem Lost.beside (h : w.Lost s) (hplaced : s.Placed) (hsource : s.source = w.text) : w.Beside s s :=
  ⟨hplaced, hsource, w.agree_refl s, .inl h⟩

theorem Aligned.bump (h : w.Aligned s s') (hs : s.Ready) (hsource : s.source = w.text)
    (hbrackets : s'.brackets = s.brackets)
    (hmore : s.bump.token.kind ≠ .endOfFile ∨ w.behind = []) : w.Matches s.bump s'.bump := by
  have hstep : s'.lexer.next (s'.brackets == 0) =
      { token := s.bump.token.down w.above
        faults := (s.lexer.next (s.brackets == 0)).faults.map (·.down w.above)
        lexer := s.bump.lexer.within w.behind w.above } := by
    rw [h.lexer, hbrackets]
    exact Lexer.scan_within _ _ _ _ _ _ hmore
  obtain ⟨skipped, hfetch⟩ := hs.fetches
  have hfaults : ∀ f ∈ (s.lexer.next (s.brackets == 0)).faults, w.Has f.position := by
    intro f hf
    obtain ⟨before, behind, -, -, hposition, hle⟩ := hfetch.faults f hf
    refine has_of_ready hs.bump.toReady hsource ?_ (hle.trans hs.bump.token)
    obtain ⟨done, -, hdone⟩ := hs.source
    rw [hposition, hdone, Position.line_afterAll, Position.line_afterAll]
    show 1 ≤ 1 + _ + _
    omega
  refine ⟨⟨h.source, ?_, ?_, ?_⟩, ?_⟩
  · show (s'.lexer.next (s'.brackets == 0)).lexer = _
    rw [hstep]
  · show (s'.diagnostics ++ (List.map _ (s'.lexer.next (s'.brackets == 0)).faults).toArray).toList =
      w.earlier ++ List.map _ (s.diagnostics ++ (List.map _ _).toArray).toList
    rw [Array.toList_append, Array.toList_append, hstep, h.diagnostics, h.source, hsource,
      List.map_append, List.append_assoc, List.map_map, List.map_map]
    congr 2
    exact List.map_congr_left fun f hf => w.about_down (hfaults f hf) _ _
  · intro d hd
    have hd : d ∈ (s.diagnostics ++ _).toList := hd
    rw [Array.toList_append] at hd
    rcases List.mem_append.1 hd with hd | hd
    · exact h.has d hd
    · obtain ⟨f, hf, rfl⟩ := List.mem_map.1 hd
      exact hfaults f hf
  · show (s'.lexer.next (s'.brackets == 0)).token = _
    rw [hstep]

/-- Readers that have the same left to read move on together, or the first comes to its end. -/
theorem Aligned.follows (h : w.Aligned s s') (hs : s.Ready) (hsource : s.source = w.text)
    (hknown : w.Known s s') : ∃ t', w.Beside s.bump t' ∧ (w.Lost s.bump ∨ s'.bump = t') := by
  by_cases hmore : s.bump.token.kind ≠ .endOfFile ∨ w.behind = []
  · have hmatches := h.bump hs hsource hknown.brackets hmore
    refine ⟨s'.bump, ⟨hs.bump, hsource, ⟨?_, ?_, ?_⟩, .inr hmatches⟩, .inr rfl⟩
    · exact ⟨hknown.brackets, hknown.nesting, hknown.scope, hknown.externs, hknown.headers, hknown.others⟩
    · rw [hmatches.token]
      rfl
    · unfold State.remaining
      rw [hmatches.lexer]
      show _ ≤ (s.bump.lexer.rest ++ w.behind).length + 2
      rw [List.length_append]
      omega
  · rw [not_or, Decidable.not_not] at hmore
    have hlost : w.Lost s.bump := hmore
    exact ⟨s.bump, hlost.beside hs.bump hsource, .inl hlost⟩

theorem Beside.bump (h : w.Beside s s') :
    Passes s s.bump ∧ ∃ t', w.Beside s.bump t' ∧ (w.Lost s.bump ∨ s'.bump = t') := by
  have hpasses := Passes.bump h.placed
  refine ⟨hpasses, ?_⟩
  rcases h.found with hlost | hfound
  · have hlost := hlost.passes hpasses
    exact ⟨s.bump, hlost.beside hpasses.placed h.source, .inl hlost⟩
  · exact hfound.toAligned.follows h.placed.toReady h.source h.agree.toKnown

/-! ### Changes that keep the place -/

structure Unmoved (s t : State) : Prop where
  source : t.source = s.source
  token : t.token = s.token
  lexer : t.lexer = s.lexer
  diagnostics : t.diagnostics = s.diagnostics

theorem Unmoved.passes (h : Unmoved s t) (hs : s.Placed) : Passes s t :=
  .still hs h.source h.token h.lexer

theorem Beside.still (h : w.Beside s s') (hst : Unmoved s t) (hst' : Unmoved s' t')
    (hagree : w.Agree t t') : w.Beside t t' := by
  refine ⟨(hst.passes h.placed).placed, hst.source.trans h.source, hagree, ?_⟩
  refine h.found.imp (fun hlost => ⟨?_, hlost.2⟩) fun hfound => ⟨⟨?_, ?_, ?_, ?_⟩, ?_⟩
  · rw [hst.token]
    exact hlost.1
  · rw [hst'.source, hfound.source]
  · rw [hst'.lexer, hfound.lexer, hst.lexer]
  · rw [hst'.diagnostics, hfound.diagnostics, hst.diagnostics]
  · rw [hst.diagnostics]
    exact hfound.has
  · rw [hst'.token, hfound.token, hst.token]

theorem Beside.brackets (h : w.Beside s s') (count : Nat) :
    w.Beside { s with brackets := count } { s' with brackets := count } :=
  h.still ⟨rfl, rfl, rfl, rfl⟩ ⟨rfl, rfl, rfl, rfl⟩ { h.agree with brackets := rfl }

theorem Beside.nesting (h : w.Beside s s') (count : Nat) :
    w.Beside { s with nesting := count } { s' with nesting := count } :=
  h.still ⟨rfl, rfl, rfl, rfl⟩ ⟨rfl, rfl, rfl, rfl⟩ { h.agree with nesting := rfl }

theorem Beside.scope (h : w.Beside s s') (scope : Scope) :
    w.Beside { s with scope := scope } { s' with scope := scope } :=
  h.still ⟨rfl, rfl, rfl, rfl⟩ ⟨rfl, rfl, rfl, rfl⟩ { h.agree with scope := rfl }

theorem Beside.used (h : w.Beside s s') (entry : Named Signature) :
    w.Beside { s with externs := s.externs ++ [entry] } { s' with externs := s'.externs ++ [entry] } :=
  h.still ⟨rfl, rfl, rfl, rfl⟩ ⟨rfl, rfl, rfl, rfl⟩
    { h.agree with externs := congrArg (· ++ [entry]) h.agree.externs }

theorem Beside.function (h : w.Beside s s') (f : Named Function) :
    w.Beside { s with functions := s.functions ++ [f] } { s' with functions := s'.functions ++ [f] } :=
  h.still ⟨rfl, rfl, rfl, rfl⟩ ⟨rfl, rfl, rfl, rfl⟩
    { h.agree with
      headers := by
        show List.map _ (_ ++ _) = List.map _ (_ ++ _)
        rw [List.map_append, List.map_append, h.agree.headers]
      others := by
        show List.filter _ (_ ++ _) = List.filter _ (_ ++ _)
        rw [List.filter_append, List.filter_append, h.agree.others] }

theorem Beside.report (h : w.Beside s s') {p : Problem} (hp : w.Has p.position) :
    w.Beside (s.report p) (s'.report (p.down w.above)) := by
  have hstill : Passes s (s.report p) := .still h.placed rfl rfl rfl
  refine ⟨hstill.placed, h.source, ?_, ?_⟩
  · exact ⟨⟨h.agree.brackets, h.agree.nesting, h.agree.scope, h.agree.externs, h.agree.headers,
      h.agree.others⟩, h.agree.kind, h.agree.remaining⟩
  · refine h.found.imp (fun hlost => hlost) fun hfound =>
      ⟨⟨hfound.source, hfound.lexer, ?_, ?_⟩, hfound.token⟩
    · have hproblem : (p.down w.above).diagnostics w.whole =
          (p.diagnostics w.text).map (·.down w.above) := by
        unfold Problem.diagnostics
        rw [List.map_cons]
        refine congr (congrArg List.cons (w.about_down hp _ _)) ?_
        show ((p.complaint.note?).map _).toList = _
        cases p.complaint.note? with
        | none => rfl
        | some note => exact congrArg (fun d => [d]) (w.about_down hp _ _)
      show (s'.diagnostics ++ _).toList = w.earlier ++ List.map _ (s.diagnostics ++ _).toList
      rw [Array.toList_append, Array.toList_append, hfound.diagnostics, hfound.source, h.source, hproblem,
        List.map_append, List.append_assoc]
    · intro d hd
      have hd : d ∈ (s.diagnostics ++ _).toList := hd
      rw [Array.toList_append] at hd
      rcases List.mem_append.1 hd with hd | hd
      · exact hfound.has d hd
      · rw [position_of_mem_diagnostics hd]
        exact hp

/-! ### The whole -/

def lockstep (w : Excerpt) : Lockstep where
  beside := w.Beside
  lost := w.Lost
  passes := Passes
  left s := s.ahead.length
  matched start start' := start' = start.down w.above ∧ w.Has start.position
  blamed p p' := p' = p.down w.above ∧ w.Has p.position
  lost_passes := Lost.passes
  trans := Passes.trans
  left_pos := State.length_ahead_pos
  left_le := Passes.length_le
  kind_of_left := Passes.kind_eq
  left_remaining h :=
    ⟨State.length_ahead_le _, Nat.le_trans (State.length_ahead_le _) h.agree.remaining⟩
  left_bump h := h.placed.length_ahead_bump
  still h hsource htoken hlexer := .still h.placed hsource htoken hlexer
  kind_eq h := h.agree.kind
  brackets_eq h := h.agree.brackets
  nesting_eq h := h.agree.nesting
  scope_eq h := h.agree.scope
  externs_eq h := h.agree.externs
  headers_eq h := h.agree.headers
  token_matched h := ⟨_, ⟨rfl, h.has⟩, h.found.imp_right (·.token)⟩
  matched_kind h := by rw [h.1, Token.kind_down]
  blame h c := by
    obtain ⟨rfl, hhas⟩ := h
    exact ⟨rfl, hhas⟩
  bump_beside := Beside.bump
  report h hp := by
    obtain ⟨rfl, hhas⟩ := hp
    exact h.report hhas
  setBrackets h := h.brackets
  setNesting h := h.nesting
  setScope h := h.scope
  use h := h.used
  function h := h.function

theorem Aligned.meets (h : w.Aligned s s') (hs : s.Ready) (hsource : s.source = w.text)
    (hknown : w.Known s s') : w.lockstep.Meets s.bump s.bump s'.bump :=
  ⟨.refl hs.bump, h.follows hs hsource hknown⟩

end Excerpt
end Grammar
end ScalarJit
