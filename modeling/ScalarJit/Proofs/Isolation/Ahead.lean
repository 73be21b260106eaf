import ScalarJit.Proofs.Grammar.Motion
import ScalarJit.Proofs.Language.Stream
import ScalarJit.Proofs.Text.Splice

/-! # What a reader has before it

The token that is looked at and the segments that follow make up what is ahead. Readers only pass what
is ahead, one token at least whenever they move on before the end. -/

namespace ScalarJit

open Segment (text)

def Segment.kind : Segment → TokenKind
  | .lexeme kind _ => kind
  | _ => .newline

theorem Segment.text_ne_nil {source : List Char} {segment : Segment}
    (h : segment ∈ Segment.all source) : segment.text ≠ [] := by
  fun_induction Segment.all source with
  | case1 => cases h
  | case2 c rest ih =>
    rcases List.mem_cons.1 h with rfl | h
    · exact Segment.text_first_ne_nil c rest
    · exact ih h

namespace Lexer

/-- Fetching a token passes segments without tokens and then the segment of the token, if there is
one. Faults are at segments that were passed. -/
structure Fetches (segments : List Segment) (position : Position) (step : Step)
    (skipped : List Segment) : Prop where
  passed : ∀ g ∈ skipped, g.kind = .newline
  place : step.token.position = position.afterAll (skipped.flatMap text)
  faults : ∀ f ∈ step.faults, ∃ x y, segments = x ++ y ∧ y ≠ [] ∧
    f.position = position.afterAll (x.flatMap text) ∧ f.position.UpTo step.token.position
  found : (step.token.kind = .endOfFile ∧ segments = skipped ∧ step.lexer.rest = [] ∧
      step.lexer.position = step.token.position) ∨
    ∃ g, step.token.kind ≠ .endOfFile ∧ g.kind = step.token.kind ∧
      segments = skipped ++ g :: step.lexer.rest ∧
      step.lexer.position = step.token.position.afterAll g.text ∧
      (step.token.kind ≠ .newline → step.lexer.lineStarted = true)

theorem kind_of_tokenOf {keepNewlines : Bool} {g : Segment} {kind : TokenKind} (hproper : g.Proper)
    (h : tokenOf keepNewlines g = some kind) (lineStarted : Bool) :
    g.kind = kind ∧ kind ≠ .endOfFile ∧ (kind ≠ .newline → startedAfter lineStarted g = true) := by
  cases g with
  | lexeme k text =>
    cases h
    exact ⟨rfl, hproper.2, fun _ => rfl⟩
  | lineFeed =>
    cases keepNewlines with
    | true =>
      cases h
      exact ⟨rfl, by simp, fun hne => absurd rfl hne⟩
    | false => cases h
  | blank c => cases h
  | tab => cases h
  | comment text => cases h
  | invalid c => cases h

theorem kind_of_tokenOf_none {keepNewlines : Bool} {g : Segment} (h : tokenOf keepNewlines g = none) :
    g.kind = .newline := by
  cases g with
  | lexeme k text => cases h
  | _ => rfl

theorem position_of_mem_faultOf {position : Position} {lineStarted : Bool} {g : Segment} {f : LocatedFault}
    (h : f ∈ faultOf position lineStarted g) : f.position = position := by
  unfold faultOf at h
  split at h
  · split at h
    · rw [List.mem_singleton.1 h]
    · cases h
  · rw [List.mem_singleton.1 h]
  · cases h

theorem Fetches.skip {g : Segment} {rest skipped : List Segment} {position : Position} {step : Step}
    (h : Fetches rest (position.afterAll g.text) step skipped) (hg : g.kind = .newline)
    {faults : List LocatedFault} (hfaults : ∀ f ∈ faults, f.position = position) :
    Fetches (g :: rest) position { step with faults := faults ++ step.faults } (g :: skipped) := by
  have htext : ∀ x : List Segment, position.afterAll ((g :: x).flatMap text) =
      (position.afterAll g.text).afterAll (x.flatMap text) := by
    intro x
    rw [List.flatMap_cons, Position.afterAll_append]
  refine ⟨?_, ?_, ?_, ?_⟩
  · intro other hmem
    rcases List.mem_cons.1 hmem with rfl | hmem
    · exact hg
    · exact h.passed other hmem
  · rw [htext]
    exact h.place
  · intro f hf
    rcases List.mem_append.1 hf with hf | hf
    · have hplace := hfaults f hf
      refine ⟨[], g :: rest, rfl, List.cons_ne_nil _ _, hplace, ?_⟩
      rw [hplace]
      refine (Position.upTo_afterAll position g.text).trans ?_
      dsimp only
      rw [h.place]
      exact Position.upTo_afterAll _ _
    · obtain ⟨x, y, hsplit, hy, hplace, hle⟩ := h.faults f hf
      refine ⟨g :: x, y, by rw [hsplit, List.cons_append], hy, ?_, hle⟩
      rw [htext]
      exact hplace
  · rcases h.found with ⟨hend, hall, hrest, hposition⟩ | ⟨seg, hne, hseg, hsplit, hposition, hstart⟩
    · exact .inl ⟨hend, by rw [hall], hrest, hposition⟩
    · exact .inr ⟨seg, hne, hseg, by rw [List.cons_append, ← hsplit], hposition, hstart⟩

theorem fetches_scan (keepNewlines : Bool) (segments : List Segment) (position : Position)
    (lineStarted : Bool) (hproper : ∀ g ∈ segments, g.Proper) :
    ∃ skipped, Fetches segments position (scan keepNewlines segments position lineStarted) skipped := by
  induction segments generalizing position lineStarted with
  | nil =>
    exact ⟨[], fun _ h => (by cases h), rfl, fun _ h => (by cases h), .inl ⟨rfl, rfl, rfl, rfl⟩⟩
  | cons g rest ih =>
    rw [scan]
    cases hkind : tokenOf keepNewlines g with
    | some kind =>
      obtain ⟨hg, hne, hstarted⟩ :=
        kind_of_tokenOf (hproper g List.mem_cons_self) hkind lineStarted
      exact ⟨[], fun _ h => (by cases h), rfl, fun _ h => (by cases h),
        .inr ⟨g, hne, hg, rfl, rfl, hstarted⟩⟩
    | none =>
      obtain ⟨skipped, h⟩ := ih (position.afterAll g.text) (startedAfter lineStarted g)
        fun other hmem => hproper other (List.mem_cons_of_mem g hmem)
      exact ⟨g :: skipped, h.skip (kind_of_tokenOf_none hkind) fun _ hf => position_of_mem_faultOf hf⟩

end Lexer

theorem position_of_mem_diagnostics {source : List Char} {p : Problem} {d : Diagnostic}
    (h : d ∈ p.diagnostics source) : d.position = p.position := by
  unfold Problem.diagnostics at h
  rcases List.mem_cons.1 h with rfl | h
  · rfl
  · obtain ⟨note, -, rfl⟩ := Option.map_eq_some_iff.1 (Option.mem_toList.1 h)
    rfl

namespace Grammar

structure State.Ready (s : State) : Prop where
  proper : ∀ g ∈ s.lexer.rest, g.Proper
  solid : ∀ g ∈ s.lexer.rest, g.text ≠ []
  source : ∃ done, s.source = done ++ s.lexer.rest.flatMap text ∧
    s.lexer.position = Position.start.afterAll done

structure State.Placed (s : State) : Prop extends s.Ready where
  ended : s.token.kind = .endOfFile → s.lexer.rest = []
  token : s.token.position.UpTo s.lexer.position
  line : 1 ≤ s.token.position.line
  lexeme : s.token.kind ≠ .endOfFile → s.token.position.Before s.lexer.position
  started : s.token.kind ≠ .newline → s.token.kind ≠ .endOfFile → s.lexer.lineStarted = true

/-- The tokens that a reader has before it, and a line feed for all that are none. -/
def State.ahead (s : State) : List TokenKind :=
  if s.token.kind = .endOfFile then [.endOfFile]
  else s.token.kind :: (s.lexer.rest.map Segment.kind ++ [.endOfFile])

theorem State.ahead_of_end {s : State} (h : s.token.kind = .endOfFile) : s.ahead = [.endOfFile] :=
  if_pos h

theorem State.ahead_of_ne {s : State} (h : s.token.kind ≠ .endOfFile) :
    s.ahead = s.token.kind :: (s.lexer.rest.map Segment.kind ++ [.endOfFile]) := if_neg h

theorem State.length_ahead_le (s : State) : s.ahead.length ≤ s.remaining := by
  rw [State.ahead, State.remaining]
  split <;> simp

theorem State.length_ahead_pos (s : State) : 0 < s.ahead.length := by
  rw [State.ahead]
  split <;> simp

theorem State.end_of_length_ahead {s : State} (h : s.ahead.length ≤ 1) :
    s.token.kind = .endOfFile := by
  by_cases hend : s.token.kind = .endOfFile
  · exact hend
  · rw [State.ahead_of_ne hend] at h
    simp at h

theorem State.Ready.fetches {s : State} (h : s.Ready) :
    ∃ skipped, Lexer.Fetches s.lexer.rest s.lexer.position (s.lexer.next (s.brackets == 0)) skipped :=
  Lexer.fetches_scan _ _ _ _ h.proper

theorem State.Ready.bump {s : State} (h : s.Ready) : s.bump.Placed := by
  obtain ⟨skipped, hfetch⟩ := h.fetches
  obtain ⟨done, hsource, hposition⟩ := h.source
  have hline : 1 ≤ s.bump.token.position.line := by
    have hplace : s.bump.token.position = s.lexer.position.afterAll (skipped.flatMap text) := hfetch.place
    rw [hplace, hposition, Position.line_afterAll, Position.line_afterAll, Nat.add_assoc]
    exact Nat.le_add_right 1 _
  -- Either the source is at its end, or a segment stands for the next token.
  rcases hfetch.found with ⟨hend, hall, hrest, hplace⟩ | ⟨g, hne, hg, hsplit, hplace, hstarted⟩
  · have hend : s.bump.token.kind = .endOfFile := hend
    have hrest : s.bump.lexer.rest = [] := hrest
    have hplace : s.bump.lexer.position = s.bump.token.position := hplace
    refine ⟨⟨?_, ?_, s.source, ?_, ?_⟩, fun _ => hrest, ?_, hline,
      fun hne => absurd hend hne, fun _ hne => absurd hend hne⟩
    · rw [hrest]
      exact fun _ hg => (by cases hg)
    · rw [hrest]
      exact fun _ hg => (by cases hg)
    · rw [hrest, List.flatMap_nil, List.append_nil]
      rfl
    · rw [hplace, hsource, Position.afterAll_append, ← hposition, hall]
      exact hfetch.place
    · rw [hplace]
      exact .refl _
  · have hsplit : s.lexer.rest = skipped ++ g :: s.bump.lexer.rest := hsplit
    have hplace : s.bump.lexer.position = s.bump.token.position.afterAll g.text := hplace
    have hmem : ∀ other ∈ s.bump.lexer.rest, other ∈ s.lexer.rest := by
      intro other hother
      rw [hsplit]
      exact List.mem_append_right _ (List.mem_cons_of_mem g hother)
    have htext : g.text ≠ [] := by
      refine h.solid g ?_
      rw [hsplit]
      exact List.mem_append_right _ List.mem_cons_self
    refine ⟨⟨fun other hother => h.proper other (hmem other hother),
      fun other hother => h.solid other (hmem other hother),
      done ++ (skipped.flatMap text ++ g.text), ?_, ?_⟩, fun hend => absurd hend hne, ?_, hline,
      fun _ => ?_, fun hkind _ => hstarted hkind⟩
    · rw [show s.bump.source = s.source from rfl, hsource, hsplit, List.flatMap_append,
        List.flatMap_cons]
      simp only [List.append_assoc]
    · rw [hplace, Position.afterAll_append, Position.afterAll_append, ← hposition]
      exact congrArg (·.afterAll g.text) hfetch.place
    · rw [hplace]
      exact Position.upTo_afterAll _ _
    · rw [hplace]
      exact Position.before_afterAll _ htext

theorem State.Placed.ahead_bump {s : State} (h : s.Placed) (hne : s.token.kind ≠ .endOfFile) :
    ∃ skipped, s.ahead = s.token.kind :: (skipped ++ s.bump.ahead) ∧ ∀ k ∈ skipped, k = .newline := by
  obtain ⟨skipped, hfetch⟩ := h.fetches
  refine ⟨skipped.map Segment.kind, ?_, ?_⟩
  · rw [State.ahead_of_ne hne]
    rcases hfetch.found with ⟨hend, hall, -, -⟩ | ⟨g, hkind, hg, hsplit, -, -⟩
    · have hend : s.bump.token.kind = .endOfFile := hend
      rw [State.ahead_of_end hend, hall]
    · have hkind : s.bump.token.kind ≠ .endOfFile := hkind
      have hg : g.kind = s.bump.token.kind := hg
      have hsplit : s.lexer.rest = skipped ++ g :: s.bump.lexer.rest := hsplit
      rw [State.ahead_of_ne hkind, hsplit, List.map_append, List.map_cons, hg, List.append_assoc,
        List.cons_append]
  · intro k hk
    obtain ⟨g, hmem, rfl⟩ := List.mem_map.1 hk
    exact hfetch.passed g hmem

/-- At the end there is nothing to move on to. -/
theorem State.Placed.end_bump {s : State} (h : s.Placed) (hend : s.token.kind = .endOfFile) :
    s.bump.token.kind = .endOfFile := by
  show (s.lexer.next (s.brackets == 0)).token.kind = .endOfFile
  rw [Lexer.next, h.ended hend]
  rfl

theorem State.Placed.length_ahead_bump {s : State} (h : s.Placed) (hne : s.token.kind ≠ .endOfFile) :
    s.bump.ahead.length < s.ahead.length := by
  obtain ⟨skipped, hahead, -⟩ := h.ahead_bump hne
  rw [hahead]
  simp only [List.length_cons, List.length_append]
  omega

/-! ### Passing -/

structure Passes (s t : State) : Prop where
  placed : t.Placed
  source : t.source = s.source
  rest : t.lexer.rest <:+ s.lexer.rest
  ahead : t.ahead <:+ s.ahead

theorem Passes.refl {s : State} (h : s.Placed) : Passes s s :=
  ⟨h, rfl, List.suffix_rfl, List.suffix_rfl⟩

theorem Passes.trans {s t u : State} (h : Passes s t) (h' : Passes t u) : Passes s u :=
  ⟨h'.placed, h'.source.trans h.source, h'.rest.trans h.rest, h'.ahead.trans h.ahead⟩

theorem Passes.length_le {s t : State} (h : Passes s t) : t.ahead.length ≤ s.ahead.length :=
  h.ahead.length_le

theorem Passes.kind_eq {s t : State} (h : Passes s t) (hlength : t.ahead.length = s.ahead.length) :
    t.token.kind = s.token.kind := by
  have hhead : ∀ u : State, u.ahead.head? = some u.token.kind := by
    intro u
    rw [State.ahead]
    split
    · next hend => rw [hend]; rfl
    · rfl
  have hahead := congrArg List.head? (h.ahead.eq_of_length hlength)
  rw [hhead, hhead] at hahead
  exact Option.some.inj hahead

theorem Passes.end {s t : State} (h : Passes s t) (hend : s.token.kind = .endOfFile) :
    t.token.kind = .endOfFile := by
  refine State.end_of_length_ahead ?_
  have hle := h.length_le
  rwa [State.ahead_of_end hend, List.length_singleton] at hle

theorem Passes.bump {s : State} (h : s.Placed) : Passes s s.bump := by
  refine ⟨h.bump, rfl, ?_, ?_⟩
  · obtain ⟨skipped, hfetch⟩ := h.fetches
    rcases hfetch.found with ⟨-, -, hrest, -⟩ | ⟨g, -, -, hsplit, -, -⟩
    · have hrest : s.bump.lexer.rest = [] := hrest
      rw [hrest]
      exact List.nil_suffix
    · refine ⟨skipped ++ [g], ?_⟩
      rw [List.append_assoc]
      exact hsplit.symm
  · by_cases hend : s.token.kind = .endOfFile
    · exact ⟨[], (State.ahead_of_end (h.end_bump hend)).trans (State.ahead_of_end hend).symm⟩
    · obtain ⟨skipped, hahead, -⟩ := h.ahead_bump hend
      exact ⟨s.token.kind :: skipped, hahead.symm⟩

theorem Passes.still {s t : State} (h : s.Placed) (hsource : t.source = s.source)
    (htoken : t.token = s.token) (hlexer : t.lexer = s.lexer) : Passes s t := by
  have hahead : t.ahead = s.ahead := by
    simp only [State.ahead, htoken, hlexer]
  refine ⟨⟨⟨?_, ?_, ?_⟩, ?_, ?_, ?_, ?_, ?_⟩, hsource, ?_, ?_⟩
  · rw [hlexer]
    exact h.proper
  · rw [hlexer]
    exact h.solid
  · rw [hlexer, hsource]
    exact h.source
  · rw [hlexer, htoken]
    exact h.ended
  · rw [hlexer, htoken]
    exact h.token
  · rw [htoken]
    exact h.line
  · rw [hlexer, htoken]
    exact h.lexeme
  · rw [hlexer, htoken]
    exact h.started
  · exact ⟨[], congrArg Lexer.rest hlexer⟩
  · exact ⟨[], hahead⟩

theorem motion_passes : Motion fun s t => s.Placed → Passes s t where
  refl s h := .refl h
  trans hst htu h := (hst h).trans (htu (hst h).placed)
  bump s h := .bump h
  brackets s count h := .still h rfl rfl rfl
  inside {s t} hread h := by
    have hdown : Passes s s.descend := .still h rfl rfl rfl
    have ht := hdown.trans (hread hdown.placed)
    exact ht.trans (.still ht.placed rfl rfl rfl)
  report s p h := .still h rfl rfl rfl
  openBlock s h := .still h rfl rfl rfl
  addStatement s id e h := .still h rfl rfl rfl
  closeBlock s id h := .still h rfl rfl rfl
  use s entry h := .still h rfl rfl rfl
  declare := by
    intro s u v bound name ty mutable hs hname htu hassign huv h
    have hone := Passes.bump h
    have htwo := hone.trans (Passes.bump hone.placed)
    have hu := htwo.trans (htu htwo.placed)
    have hsign := hu.trans (Passes.bump hu.placed)
    have hv := hsign.trans (huv hsign.placed)
    exact hv.trans (.still hv.placed rfl rfl rfl)

/-- Giving up on a statement passes a token, unless the statement is over already. -/
theorem length_ahead_endStatement {s : State} (h : s.Placed) (hk : endsStatement s.token.kind = false) :
    s.endStatement.ahead.length < s.ahead.length := by
  have hstill : Passes s { s with brackets := 0 } := .still h rfl rfl rfl
  have hne : s.token.kind ≠ .endOfFile := by
    intro hend
    rw [hend] at hk
    cases hk
  have hbump : ({ s with brackets := 0 }.bump).ahead.length < s.ahead.length :=
    hstill.placed.length_ahead_bump hne
  have next : ∀ bound depth, (({ s with brackets := 0 }.bump).skipStatement bound depth).ahead.length <
      s.ahead.length := by
    intro bound depth
    exact Nat.lt_of_le_of_lt
      (motion_passes.skipStatement bound depth _ hstill.placed.bump).length_le hbump
  show (({ s with brackets := 0 } : State).skipStatement (s.lexer.rest.length + 1 + 1) 0).ahead.length <
    s.ahead.length
  rw [State.skipStatement]
  split
  · next hend => exact absurd hend hne
  · next hnewline =>
    rw [show s.token.kind = .newline from hnewline] at hk
    cases hk
  · next hclosed =>
    rw [show s.token.kind = .symbol .closedCurly from hclosed] at hk
    cases hk
  · exact next _ _
  · exact next _ _

theorem Passes.length_recovered {s t : State} (h : Passes s t) (p : Problem)
    (hstuck : t.ahead.length = s.ahead.length → endsStatement t.token.kind = false) :
    (t.report p).endStatement.ahead.length < s.ahead.length := by
  have hreport : Passes t (t.report p) := .still h.placed rfl rfl rfl
  by_cases hsame : t.ahead.length = s.ahead.length
  · rw [← hsame]
    exact length_ahead_endStatement hreport.placed (hstuck hsame)
  · have hle := h.length_le
    have hle' : (t.report p).endStatement.ahead.length ≤ t.ahead.length :=
      (motion_passes.endStatement _ hreport.placed).length_le
    omega

/-! ### One statement -/

section
variable {operand : ParseM Expr} {id : BlockId} {bound : Nat} {s : State}

def behindStatement (operand : ParseM Expr) (id : BlockId) (s : State) : State :=
  match (statement operand).run s with
  | .error problem after => (after.report problem).endStatement
  | .ok e after =>
    if !endsStatement after.token.kind then
      (after.report ⟨.unfinishedStatement, after.token.position⟩).endStatement
    else if !e.useful then after.report ⟨.uselessStatement, s.token.position⟩
    else after.addStatement id e

theorem endsStatement_cases (kind : TokenKind) :
    kind = .newline ∨ kind = .symbol .closedCurly ∨ kind = .endOfFile ∨ endsStatement kind = false := by
  unfold endsStatement
  split <;> simp

theorem statements_newline (hk : s.token.kind = .newline) :
    statements operand id (bound + 1) s = statements operand id bound s.bump := by
  rw [statements, hk]

theorem statements_closed (hk : s.token.kind = .symbol .closedCurly) :
    statements operand id (bound + 1) s = s := by
  rw [statements, hk]

theorem statements_end (hk : s.token.kind = .endOfFile) :
    statements operand id (bound + 1) s = s.report ⟨.unclosedBlock, s.token.position⟩ := by
  rw [statements, hk]

theorem statements_unended (hk : endsStatement s.token.kind = false) :
    statements operand id (bound + 1) s = statements operand id bound (behindStatement operand id s) := by
  rw [statements, behindStatement]
  split
  · next h => rw [h] at hk; cases hk
  · next h => rw [h] at hk; cases hk
  · next h => rw [h] at hk; cases hk
  cases (statement operand).run s with
  | error problem after => rfl
  | ok e after =>
    dsimp only
    split
    · rfl
    · split <;> rfl

theorem length_ahead_behindStatement (hk : endsStatement s.token.kind = false)
    (hread : Ends (statement operand) s (fun _ t => Passes s t) fun _ t => Passes s t) (id : BlockId) :
    (behindStatement operand id s).ahead.length < s.ahead.length := by
  have hread := ends_iff.1 hread
  unfold behindStatement
  split
  · next problem after hrun =>
    refine (hread.2 _ _ hrun).length_recovered problem fun hsame => ?_
    rw [(hread.2 _ _ hrun).kind_eq hsame]
    exact hk
  next e after hrun =>
  have hst := hread.1 _ _ hrun
  split
  · next hunfinished => exact hst.length_recovered _ fun _ => by simpa using hunfinished
  next hfinished =>
  have hlt : after.ahead.length < s.ahead.length := by
    refine Nat.lt_of_le_of_ne hst.length_le fun hsame => hfinished ?_
    rw [hst.kind_eq hsame, hk]
    rfl
  split
  · exact hlt
  · exact hlt

end

def State.atStart (source : List Char) : State where
  source := source
  lexer := .ofSource source
  token := ⟨.newline, .start⟩
  brackets := 0
  nesting := 0
  functions := []
  externs := []
  diagnostics := #[]
  scope := .empty

theorem ready_atStart (source : List Char) : (State.atStart source).Ready :=
  ⟨Segment.proper_all source, fun _ hg => Segment.text_ne_nil hg, [],
    (Segment.flatMap_text_all source).symm, rfl⟩

theorem placed_ofSource (source : List Char) : (State.ofSource source).Placed :=
  (ready_atStart source).bump

end Grammar
end ScalarJit
