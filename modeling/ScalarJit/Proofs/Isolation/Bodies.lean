import ScalarJit.Proofs.Grammar.WellFormed
import ScalarJit.Proofs.Isolation.Braces
import ScalarJit.Proofs.Grammar.Progress
import ScalarJit.Proofs.Isolation.Excerpt

/-! # Errors stay inside the body of a function

A function whose head is right ends at the brace that closes its body, whatever is wrong in it. So
another body with its braces in pairs changes that function only: all else is declared as before, and
what is reported before and behind the body is the same. -/

namespace ScalarJit

/-- A text with the body of a function in it, on lines of its own. -/
def bodied (before body behind : List Char) : List Char :=
  before ++ '{' :: '\n' :: (body ++ '\n' :: '}' :: behind)

def opening (before : List Char) : Position := Position.start.afterAll before

def closing (before body : List Char) : Position :=
  Position.start.afterAll (before ++ '{' :: '\n' :: (body ++ ['\n']))

namespace Grammar

/-- The head of a function that a text ends with, if that many declarations lead up to it and nothing
but the brace of the body is behind it. -/
def headBehind? (count : Nat) (before : List Char) : Option (Named Signature) :=
  let s := declarations count (.ofSource (before ++ ['{']))
  if s.token.kind = .keyword .function then
    match functionHead.run s with
    | .ok head t => if t.lexer.rest = [] then some head else none
    | .error _ _ => none
  else none

/-- No prefix of the tokens closes more braces than it opens, and all of them close as many. -/
def BracesBalanced (text : List Char) : Prop :=
  let kinds := (tokenize text true).1.map (·.kind)
  (∀ n ≤ kinds.length,
    (kinds.take n).count (.symbol .closedCurly) ≤ (kinds.take n).count (.symbol .openCurly)) ∧
  kinds.count (.symbol .openCurly) = kinds.count (.symbol .closedCurly)

instance (text : List Char) : Decidable (BracesBalanced text) := inferInstanceAs (Decidable (_ ∧ _))

/-! ### Balanced texts -/

theorem level_of_counts {depth : Nat} {kinds : List TokenKind}
    (h : ∀ n ≤ kinds.length, (kinds.take n).count (.symbol .closedCurly) ≤
      depth + (kinds.take n).count (.symbol .openCurly)) :
    level depth kinds =
      some (depth + kinds.count (.symbol .openCurly) - kinds.count (.symbol .closedCurly)) := by
  -- No prefix closes more than is open, so the level never falls below zero on the way.
  induction kinds generalizing depth with
  | nil => rfl
  | cons k kinds ih =>
    have hone : ∀ n ≤ kinds.length, (k :: kinds.take n).count (.symbol .closedCurly) ≤
        depth + (k :: kinds.take n).count (.symbol .openCurly) := by
      intro n hn
      exact h (n + 1) (Nat.succ_le_succ hn)
    by_cases hopen : k = .symbol .openCurly
    · subst hopen
      rw [level_cons_open, ih fun n hn => ?_]
      · rw [List.count_cons_self, List.count_cons_of_ne (by decide)]
        congr 2
        omega
      · have := hone n hn
        rw [List.count_cons_self, List.count_cons_of_ne (by decide)] at this
        omega
    · by_cases hclosed : k = .symbol .closedCurly
      · subst hclosed
        have hpos := hone 0 (Nat.zero_le _)
        rw [List.take_zero, List.count_cons_self, List.count_cons_of_ne (by decide)] at hpos
        obtain ⟨depth, rfl⟩ : ∃ n, depth = n + 1 := ⟨depth - 1, by simp at hpos; omega⟩
        rw [level_succ_closed, ih fun n hn => ?_]
        · rw [List.count_cons_self, List.count_cons_of_ne (by decide)]
          congr 1
          omega
        · have := hone n hn
          rw [List.count_cons_self, List.count_cons_of_ne (by decide)] at this
          omega
      · have hplain : isBrace k = false :=
          Bool.or_eq_false_iff.2 ⟨beq_eq_false_iff_ne.2 hopen, beq_eq_false_iff_ne.2 hclosed⟩
        rw [level_cons_plain hplain, List.count_cons_of_ne hopen, List.count_cons_of_ne hclosed]
        refine ih fun n hn => ?_
        have := hone n hn
        rwa [List.count_cons_of_ne hopen, List.count_cons_of_ne hclosed] at this

theorem level_kindsOf (depth : Nat) (segments : List Segment) :
    level depth (Lexer.kindsOf segments) = level depth (segments.map Segment.kind) := by
  induction segments generalizing depth with
  | nil => exact level_cons_plain rfl depth []
  | cons segment rest ih =>
    rw [List.map_cons]
    cases segment with
    | lexeme kind text =>
      show level depth (kind :: Lexer.kindsOf rest) = level depth (kind :: rest.map Segment.kind)
      rw [level, level]
      cases levelAfter depth kind with
      | none => rfl
      | some next => exact ih next
    | lineFeed => exact ih depth
    | blank c => exact ih depth
    | tab => exact ih depth
    | comment text => exact ih depth
    | invalid c => exact ih depth

theorem BracesBalanced.level {text : List Char} (h : BracesBalanced text) :
    Grammar.level 0 ((Segment.all text).map Segment.kind) = some 0 := by
  have hkinds := (tokenize_eq text).1
  obtain ⟨hnever, htotal⟩ := h
  have hlevel := @level_of_counts 0 ((tokenize text true).1.map (·.kind))
    fun n hn => by rw [Nat.zero_add]; exact hnever n hn
  rw [htotal, Nat.zero_add, Nat.sub_self, hkinds, level_kindsOf] at hlevel
  exact hlevel

/-! ### The body -/

def behindOpening (body behind : List Char) : List Segment :=
  .lineFeed :: (Segment.all body ++
    .lineFeed :: .lexeme (.symbol .closedCurly) ['}'] :: Segment.all behind)

/-- Statements that start behind the brace that opens a body end at the brace that closes it. -/
theorem closed_of_balances {s t : State} {body behind : List Char} (hbody : BracesBalanced body)
    (hs : s.ahead = (behindOpening body behind).map Segment.kind ++ [.endOfFile])
    (hsuffix : Segment.all behind <:+ s.lexer.rest) (hread : Balances s t)
    (hlast : t.token.kind = .symbol .closedCurly ∨ t.token.kind = .endOfFile) :
    t.token.kind = .symbol .closedCurly ∧ t.lexer.rest = Segment.all behind := by
  obtain ⟨x, n, htravels, hx, hn⟩ := hread
  -- The tokens of the body, with the line feeds around it.
  let inside : List TokenKind := .newline :: ((Segment.all body).map Segment.kind ++ [.newline])
  have hinside : level 0 inside = some 0 := by
    show level 0 (.newline :: (_ ++ [.newline])) = some 0
    rw [level_cons_plain rfl, level_append, hbody.level]
    rfl
  have hall : x ++ t.ahead = inside ++ .symbol .closedCurly ::
      ((Segment.all behind).map Segment.kind ++ [.endOfFile]) := by
    rw [← htravels.ahead, hs]
    simp [behindOpening, inside, Segment.kind]
  rcases hlast with hclosed | hend
  · refine ⟨hclosed, ?_⟩
    have hzero : n = 0 := by
      refine hn.resolve_right fun hend => ?_
      rw [hclosed] at hend
      cases hend
    have hne : t.token.kind ≠ .endOfFile := by
      rw [hclosed]
      simp
    rw [State.ahead_of_ne hne, hclosed] at hall
    have hrest := (closing_unique (by rw [hx, hzero]) hinside hall).2
    have hlength : t.lexer.rest.length = (Segment.all behind).length := by
      have hlength := congrArg List.length hrest
      simpa using hlength
    have hboth := htravels.passes.rest
    exact (List.suffix_of_suffix_length_le hboth hsuffix (Nat.le_of_eq hlength)).eq_of_length hlength
  · -- Up to the end there is one brace too many that closes.
    exfalso
    rw [State.ahead_of_end hend, ← List.cons_append, ← List.append_assoc] at hall
    have hsplit := List.append_cancel_right hall
    rw [hsplit, level_append, hinside] at hx
    cases hx

structure Closes (behind : List Char) (s t : State) : Prop where
  placed : t.Placed
  source : t.source = s.source
  kind : t.token.kind = .symbol .closedCurly
  rest : t.lexer.rest = Segment.all behind
  brackets : t.brackets = s.brackets
  nesting : t.nesting = s.nesting
  scope : t.scope = .empty
  reported : ∃ ds, t.diagnostics.toList = s.diagnostics.toList ++ ds ∧
    ∀ d ∈ ds, s.lexer.position.UpTo d.position ∧ d.position.UpTo t.token.position

structure Opens (body behind : List Char) (s t : State) : Prop where
  passes : Passes s t
  token : t.token = ⟨.newline, s.lexer.position⟩
  rest : t.lexer.rest = (behindOpening body behind).tail
  diagnostics : t.diagnostics.toList = s.diagnostics.toList

theorem opens_bump {s : State} (h : s.Placed) {body behind : List Char}
    (hrest : s.lexer.rest = behindOpening body behind) (hbrackets : s.brackets = 0) :
    Opens body behind s s.bump := by
  have hnext : s.lexer.next (s.brackets == 0) =
      ⟨⟨.newline, s.lexer.position⟩, [], ⟨(behindOpening body behind).tail,
        s.lexer.position.afterAll ['\n'], false⟩⟩ := by
    rw [hbrackets, Lexer.next, hrest]
    rfl
  refine ⟨.bump h, congrArg Lexer.Step.token hnext, congrArg (fun step => step.lexer.rest) hnext, ?_⟩
  show (s.diagnostics ++ (List.map _ (s.lexer.next (s.brackets == 0)).faults).toArray).toList = _
  rw [hnext, Array.toList_append]
  exact List.append_nil _

theorem Opens.ahead {s t : State} {body behind : List Char} (h : Opens body behind s t) :
    t.ahead = (behindOpening body behind).map Segment.kind ++ [.endOfFile] := by
  rw [State.ahead_of_ne (by rw [h.token]; simp), h.token, h.rest]
  rfl

theorem Opens.suffix {s t : State} {body behind : List Char} (h : Opens body behind s t) :
    Segment.all behind <:+ t.lexer.rest := by
  rw [h.rest]
  exact ⟨Segment.all body ++ [.lineFeed, .lexeme (.symbol .closedCurly) ['}']], by simp [behindOpening]⟩

/-- Whatever is wrong in a body, it is read to the brace that closes it. -/
theorem functionBody_eq_bump {s : State} (h : s.Placed) {body behind : List Char}
    (hbody : BracesBalanced body) (hrest : s.lexer.rest = behindOpening body behind) (name : String)
    (signature : Signature) :
    ∃ t, functionBody name signature s = t.bump ∧ Closes behind s t := by
  obtain ⟨scope, hat⟩ := atBody_eq name signature s
  let inner : State := { s with scope := scope, brackets := 0 }
  have hinner : Passes s inner := .still h rfl rfl rfl
  have hopens : Opens body behind inner inner.bump := opens_bump hinner.placed hrest rfl
  obtain ⟨hread, hlast⟩ := (pairs_operandWithin nestingLimit).statements rootBlock hopens.passes.placed
    (State.length_ahead_le inner.bump)
  obtain ⟨hclosed, hbehind⟩ := closed_of_balances hbody hopens.ahead hopens.suffix hread hlast
  have hcount := motion_nesting.statements (motion_nesting.keeps_operandWithin nestingLimit) rootBlock
    inner.bump.remaining inner.bump
  generalize hu : statements (operandWithin nestingLimit) rootBlock inner.bump.remaining inner.bump = u
    at hread hclosed hbehind hcount
  let t : State :=
    { u with
      brackets := s.brackets
      functions := u.functions ++
        [(name, ⟨signature, u.scope.blockExpr rootBlock, u.scope.blocks, u.scope.slots⟩)]
      scope := .empty }
  have ht : Balances inner.bump t := hread.still rfl rfl rfl rfl
  have hleave : blockBody (operandWithin nestingLimit) rootBlock (atBody name signature s) =
      (u.scope.blockExpr rootBlock, { u with brackets := s.brackets }.bump.closeBlock rootBlock) := by
    rw [hat, blockBody_eq_leaveBlock]
    refine (congrArg (leaveBlock rootBlock s.brackets) hu).trans ?_
    unfold leaveBlock
    dsimp only
    rw [if_pos hclosed]
    rfl
  refine ⟨t, ?_, ht.placed, ht.passes.source, hclosed, hbehind, rfl, hcount, rfl, ?_⟩
  · rw [functionBody_eq_behindBody, hleave]
    rfl
  · obtain ⟨x, n, htravels, -⟩ := ht
    obtain ⟨ds, hds, hbetween⟩ := htravels.diagnostics
    refine ⟨ds, by rw [hds, hopens.diagnostics], fun d hd => ⟨?_, (hbetween d hd).to_end⟩⟩
    have hstart := (hbetween d hd).from_start
    rwa [hopens.token] at hstart

/-! ### Before the body -/

def headExcerpt (before rest : List Char) : Excerpt where
  text := before ++ ['{']
  whole := (before ++ ['{']) ++ '\n' :: rest
  behind := .lineFeed :: Segment.all rest
  above := 0
  earlier := []
  changed := fun _ => false
  lines n hn := Text.lineAt_before (by simp) rest hn

theorem meets_ofSource (before rest : List Char) :
    (headExcerpt before rest).lockstep.Meets (.ofSource (before ++ ['{'])) (.ofSource (before ++ ['{']))
      (.ofSource ((before ++ ['{']) ++ '\n' :: rest)) := by
  have haligned : (headExcerpt before rest).Aligned (.atStart (before ++ ['{']))
      (.atStart ((before ++ ['{']) ++ '\n' :: rest)) := by
    refine ⟨rfl, ?_, rfl, fun _ hd => (by cases hd)⟩
    show Lexer.ofSource _ = _
    rw [Lexer.ofSource, Segment.all_append_lineFeed]
    rfl
  exact haligned.meets (ready_atStart _) rfl ⟨rfl, rfl, rfl, rfl, rfl, rfl⟩

theorem headBehind?_eq_some {count : Nat} {before : List Char} {head : Named Signature}
    (h : headBehind? count before = some head) :
    (declarations count (.ofSource (before ++ ['{']))).token.kind = .keyword .function ∧
      ∃ t, functionHead.run (declarations count (.ofSource (before ++ ['{']))) = .ok head t ∧
        t.lexer.rest = [] := by
  unfold headBehind? at h
  dsimp only at h
  split at h
  · next hfunction =>
    refine ⟨hfunction, ?_⟩
    split at h
    · next found t hrun =>
      split at h
      · next hrest =>
        cases h
        exact ⟨t, hrun, hrest⟩
      · cases h
    · cases h
  · cases h

theorem position_head {count : Nat} {before : List Char} {head : Named Signature} {t : State}
    (hrun : functionHead.run (declarations count (.ofSource (before ++ ['{']))) = .ok head t)
    (hrest : t.lexer.rest = []) : t.lexer.position = (opening before).after '{' := by
  have hstart := passes_declarations count (placed_ofSource (before ++ ['{']))
  have hhead := (ends_of_ok hrun).1 (motion_passes.keeps_functionHead _) hstart.placed
  obtain ⟨done, hdone, hposition⟩ := hhead.placed.source
  rw [hrest, List.flatMap_nil, List.append_nil, hhead.source, hstart.source] at hdone
  have hdone : before ++ ['{'] = done := hdone
  rw [hposition, ← hdone, Position.afterAll_append]
  rfl

theorem functionHead_bodied {count : Nat} {before : List Char} {head : Named Signature} {t : State}
    (hfunction : (declarations count (.ofSource (before ++ ['{']))).token.kind = .keyword .function)
    (hrun : functionHead.run (declarations count (.ofSource (before ++ ['{']))) = .ok head t)
    (rest : List Char) :
    ∃ t', functionHead.run (declarations count (.ofSource ((before ++ ['{']) ++ '\n' :: rest))) =
        .ok head t' ∧
      (declarations count (.ofSource ((before ++ ['{']) ++ '\n' :: rest))).token.kind =
        .keyword .function ∧
      t'.Placed ∧ (headExcerpt before rest).Known t t' ∧ (headExcerpt before rest).Aligned t t' := by
  obtain ⟨-, s', hs, hs'⟩ := Lockstep.Meets.next (g := declarations count) (meets_ofSource before rest)
    fun s' hs => Lockstep.meets_declarations count hs
  have hs' := hs'.resolve_left fun hlost => (by rw [hlost.1] at hfunction; cases hfunction)
  rw [hs']
  obtain ⟨-, head', t', hhead, ht, hrun'⟩ := (ends_of_ok hrun).1 (Lockstep.lock_functionHead hs)
  cases hhead
  have hs : (headExcerpt before rest).Beside _ s' := hs
  have ht : (headExcerpt before rest).Beside t t' := ht
  have hopen : t.token.kind = .symbol .openCurly := (ends_of_ok hrun).1 (ends_functionHead_kind _)
  have hfound : ¬(headExcerpt before rest).Lost t := fun hlost => by
    rw [hlost.1] at hopen
    cases hopen
  have hrun' := hrun'.resolve_left hfound
  have hplaced : s'.Placed := by
    rw [← hs']
    exact (passes_declarations count (placed_ofSource _)).placed
  refine ⟨t', hrun', hs.agree.kind.trans hfunction, ?_, ht.agree.toKnown,
    (ht.found.resolve_left hfound).toAligned⟩
  exact ((ends_of_ok hrun').1 (motion_passes.keeps_functionHead s') hplaced).placed

/-- A program is read up to the body of a function, and from there on. -/
theorem declarations_eq_functionBody {count bound : Nat} {source : List Char} {name : String}
    {signature : Signature} {t : State}
    (hfunction : (declarations count (.ofSource source)).token.kind = .keyword .function)
    (hrun : functionHead.run (declarations count (.ofSource source)) = .ok (name, signature) t)
    (hbound : (State.ofSource source).remaining ≤ bound) :
    declarations (State.ofSource source).remaining (.ofSource source) =
      declarations bound (functionBody name signature t) := by
  have hlarge : (State.ofSource source).remaining ≤ count + (bound + 1) := by omega
  rw [← declarations_of_le (placed_ofSource source) (State.length_ahead_le _) hlarge, declarations_add,
    declarations, if_neg (by rw [hfunction]; simp)]
  congr 1
  unfold declaration
  rw [hfunction]
  dsimp only
  rw [hrun]

/-! ### Behind the body -/

def linesAbove (before body : List Char) : Nat := (before ++ '{' :: '\n' :: body).count '\n' + 1

theorem bodied_eq (before body behind : List Char) :
    bodied before body behind = (before ++ '{' :: '\n' :: body) ++ '\n' :: '}' :: behind := by
  simp [bodied]

def tailExcerpt (before body behind : List Char) (earlier : List Diagnostic) (name : String) :
    Excerpt where
  text := '}' :: behind
  whole := bodied before body behind
  behind := []
  above := linesAbove before body
  earlier := earlier
  changed := (· == name)
  lines n _ := by
    rw [bodied_eq, Nat.add_comm]
    exact Text.lineAt_behind _ _ n

theorem closing_eq (before body : List Char) :
    closing before body = Position.start.down (linesAbove before body) := by
  have hline := Position.line_afterAll .start (before ++ '{' :: '\n' :: body)
  unfold closing
  rw [show before ++ '{' :: '\n' :: (body ++ ['\n']) = (before ++ '{' :: '\n' :: body) ++ ['\n'] by simp,
    Position.afterAll_append]
  show (⟨_ + 1, 1⟩ : Position) = ⟨1 + linesAbove before body, 1⟩
  rw [hline, linesAbove, Nat.add_assoc]
  rfl

/-- A reader at the brace that closes the body of a function, with a text of its own from there on. -/
def atClosing (head : State) (name : String) (signature : Signature) (behind : List Char) : State where
  source := '}' :: behind
  lexer := ⟨Segment.all behind, ⟨1, 2⟩, true⟩
  token := ⟨.symbol .closedCurly, .start⟩
  brackets := head.brackets
  nesting := head.nesting
  functions := head.functions ++ [(name, { (default : Function) with signature })]
  externs := head.externs
  diagnostics := #[]
  scope := .empty

theorem ready_atClosing (head : State) (name : String) (signature : Signature) (behind : List Char) :
    (atClosing head name signature behind).Ready := by
  refine ⟨Segment.proper_all behind, fun _ hg => Segment.text_ne_nil hg, ['}'], ?_, rfl⟩
  show '}' :: behind = ['}'] ++ (Segment.all behind).flatMap Segment.text
  rw [Segment.flatMap_text_all]
  rfl

/-- At the brace that closes a body a reader is where it would be without the text before. -/
theorem Closes.aligned {before body behind : List Char} {s t : State} (h : Closes behind s t)
    (hsource : s.source = bodied before body behind) (head : State) (name : String)
    (signature : Signature) :
    (tailExcerpt before body behind t.diagnostics.toList name).Aligned
      (atClosing head name signature behind) t := by
  refine ⟨h.source.trans hsource, ?_, (List.append_nil _).symm, fun _ hd => (by cases hd)⟩
  obtain ⟨done, hdone, hposition⟩ := h.placed.source
  rw [h.rest, Segment.flatMap_text_all, h.source, hsource, bodied_eq] at hdone
  have hdone : done = (before ++ '{' :: '\n' :: body) ++ ['\n', '}'] := by
    have hsame : done ++ behind = ((before ++ '{' :: '\n' :: body) ++ ['\n', '}']) ++ behind := by
      rw [← hdone]
      simp
    exact List.append_cancel_right hsame
  have hplace : t.lexer.position = Position.down (linesAbove before body) ⟨1, 2⟩ := by
    have hline := Position.line_afterAll .start (before ++ '{' :: '\n' :: body)
    rw [hposition, hdone, Position.afterAll_append]
    show (⟨_ + 1, 2⟩ : Position) = ⟨1 + linesAbove before body, 2⟩
    rw [hline, linesAbove, Nat.add_assoc]
    rfl
  have hstarted : t.lexer.lineStarted = true :=
    h.placed.started (by rw [h.kind]; simp) (by rw [h.kind]; simp)
  show t.lexer = ⟨Segment.all behind ++ [], Position.down (linesAbove before body) ⟨1, 2⟩, true⟩
  rw [List.append_nil, ← h.rest, ← hplace, ← hstarted]

theorem Closes.known {before body behind : List Char} {head s t : State} (h : Closes behind s t)
    {rest : List Char} (hknown : (headExcerpt before rest).Known head s) {name : String}
    {signature : Signature} (hread : functionBody name signature s = t.bump) :
    (tailExcerpt before body behind t.diagnostics.toList name).Known
      (atClosing head name signature behind) t := by
  obtain ⟨f, hf, -, hfunctions, hexterns⟩ := functionBody_eq name signature s
  rw [hread] at hfunctions hexterns
  have hfunctions : t.functions = s.functions ++ [(name, f)] := hfunctions
  refine ⟨h.brackets.trans hknown.brackets, h.nesting.trans hknown.nesting, h.scope, hexterns.trans hknown.externs, ?_, ?_⟩
  · show t.functions.map header = (head.functions ++ [_]).map header
    rw [hfunctions, List.map_append, List.map_append, hknown.headers, List.map_singleton,
      List.map_singleton, header, header, hf]
  · -- Before the body nothing is changed, so its functions are the same, bodies and all.
    have hsame : s.functions = head.functions := by
      have hall : ∀ fs : List (Named Function), fs.filter (fun _ => !false) = fs :=
        fun fs => List.filter_eq_self.2 fun _ _ => rfl
      exact (hall _).symm.trans (hknown.others.trans (hall _))
    show t.functions.filter _ = (head.functions ++ [_]).filter _
    rw [hfunctions, List.filter_append, List.filter_append, hsame]
    simp [tailExcerpt]

theorem Closes.upTo_closing {before body behind : List Char} {s t : State} (h : Closes behind s t)
    (hsource : s.source = bodied before body behind) : t.token.position.UpTo (closing before body) := by
  have hlexer := (h.aligned hsource t "" ⟨[], .void⟩).lexer
  have hbefore := h.placed.lexeme (by rw [h.kind]; simp)
  rw [hlexer] at hbefore
  rw [closing_eq]
  unfold Position.Before at hbefore
  unfold Position.UpTo
  have hbefore : t.token.position.line < 1 + linesAbove before body ∨
      t.token.position.line = 1 + linesAbove before body ∧ t.token.position.column < 2 := hbefore
  show t.token.position.line < 1 + linesAbove before body ∨
      t.token.position.line = 1 + linesAbove before body ∧ t.token.position.column ≤ 1
  omega

/-! ### Programs -/

/-- What a program is made of that has a body put into it: what is before the body, what is behind it,
and what is reported between its braces. -/
structure Composed (before body : List Char) (name : String) (head tail : State) (p : Program) :
    Prop where
  externs : p.externs = tail.externs
  headers : p.functions.map header = tail.functions.map header
  others : p.functions.filter (·.1 != name) = tail.functions.filter (·.1 != name)
  diagnostics : ∃ inside, p.diagnostics = head.diagnostics.toList ++ inside ++
      tail.diagnostics.toList.map (·.down (linesAbove before body)) ∧
    ∀ d ∈ inside, (opening before).Before d.position ∧ d.position.UpTo (closing before body)
  above : ∀ d ∈ head.diagnostics.toList, d.position.line ≤ (opening before).line
  below : ∀ d ∈ tail.diagnostics.toList, 1 ≤ d.position.line

theorem composed_parse {count bound : Nat} {before : List Char} {name : String} {signature : Signature}
    {head : State}
    (hfunction : (declarations count (.ofSource (before ++ ['{']))).token.kind = .keyword .function)
    (hrun : functionHead.run (declarations count (.ofSource (before ++ ['{']))) =
      .ok (name, signature) head) (hrest : head.lexer.rest = []) {body : List Char}
    (hbody : BracesBalanced body) (behind : List Char)
    (hbound : (State.ofSource (bodied before body behind)).remaining ≤ bound) :
    Composed before body name head (declarations bound (atClosing head name signature behind).bump)
      (Program.parse (bodied before body behind)) := by
  obtain ⟨s, hrun', hfunction', hs, hknown, haligned⟩ :=
    functionHead_bodied hfunction hrun (body ++ '\n' :: '}' :: behind)
  have hsource : (before ++ ['{']) ++ '\n' :: (body ++ '\n' :: '}' :: behind) =
      bodied before body behind := by simp [bodied]
  rw [hsource] at hrun' hfunction'
  have hbehind : s.lexer.rest = behindOpening body behind := by
    rw [haligned.lexer]
    show head.lexer.rest ++ .lineFeed :: Segment.all _ = _
    rw [hrest, Segment.all_append_lineFeed, Segment.all_closedCurly]
    rfl
  obtain ⟨t, hfunctionBody, ht⟩ := functionBody_eq_bump hs hbody hbehind name signature
  have hwhole : s.source = bodied before body behind := haligned.source.trans hsource
  have hmeets := Lockstep.Meets.next (g := declarations bound)
    ((ht.aligned hwhole head name signature).meets (ready_atClosing head name signature behind) rfl
      (ht.known hknown hfunctionBody))
    fun t' ht => Lockstep.meets_declarations bound ht
  obtain ⟨-, t', ht', hx⟩ := hmeets
  have ht' : Excerpt.Beside _ _ t' := ht'
  have hx := hx.resolve_left fun hlost => hlost.2 rfl
  have hfound := ht'.found.resolve_left fun hlost => hlost.2 rfl
  have hparse : Program.parse (bodied before body behind) =
      ⟨t'.functions, t'.externs, t'.diagnostics.toList⟩ := by
    unfold Program.parse
    dsimp only
    rw [declarations_eq_functionBody hfunction' hrun' hbound, hfunctionBody, hx]
  rw [hparse]
  refine ⟨ht'.agree.externs, ht'.agree.headers, ht'.agree.others, ?_, ?_, fun d hd => (hfound.has d hd).1⟩
  · obtain ⟨inside, hinside, hplaces⟩ := ht.reported
    have hhead : s.diagnostics.toList = head.diagnostics.toList := by
      rw [haligned.diagnostics]
      exact List.map_id _
    refine ⟨inside, ?_, fun d hd => ⟨?_, (hplaces d hd).2.trans (ht.upTo_closing hwhole)⟩⟩
    · show t'.diagnostics.toList = _
      rw [hfound.diagnostics, ← hhead, ← hinside]
      rfl
    · refine Position.Before.trans_upTo ?_ (hplaces d hd).1
      rw [haligned.lexer]
      show (opening before).Before head.lexer.position
      rw [position_head hrun hrest]
      exact Position.before_after _ _
  · intro d hd
    have hline := (haligned.has d hd).2
    rw [opening, Position.line_afterAll]
    show d.position.line ≤ 1 + _
    have hcount : (headExcerpt before (body ++ '\n' :: '}' :: behind)).text.count '\n' =
        before.count '\n' := by simp [headExcerpt]
    omega

/-! ### Places -/

section
variable {before body : List Char} {name : String} {head tail : State} {p : Program}

theorem line_opening_lt (before body : List Char) : (opening before).line < linesAbove before body := by
  rw [opening, Position.line_afterAll, linesAbove, List.count_append, List.count_cons_of_ne (by decide),
    List.count_cons_self]
  show 1 + _ < _
  omega

theorem Composed.filter_above (h : Composed before body name head tail p) :
    p.diagnostics.filter (fun d => d.position.UpTo (opening before)) =
      head.diagnostics.toList.filter fun d => d.position.UpTo (opening before) := by
  obtain ⟨inside, hdiagnostics, hinside⟩ := h.diagnostics
  have hnone : inside.filter (fun d => d.position.UpTo (opening before)) = [] := by
    refine List.filter_eq_nil_iff.2 fun d hd hupTo => ?_
    exact Position.not_before_iff.2 (of_decide_eq_true hupTo) (hinside d hd).1
  have hbehind : (tail.diagnostics.toList.map (·.down (linesAbove before body))).filter
      (fun d => d.position.UpTo (opening before)) = [] := by
    refine List.filter_eq_nil_iff.2 fun d hd hupTo => ?_
    obtain ⟨e, he, rfl⟩ := List.mem_map.1 hd
    have hupTo : (e.position.down (linesAbove before body)).UpTo (opening before) :=
      of_decide_eq_true hupTo
    have hlt := line_opening_lt before body
    unfold Position.UpTo at hupTo
    rw [Position.line_down] at hupTo
    omega
  rw [hdiagnostics, List.filter_append, List.filter_append, hnone, hbehind, List.append_nil,
    List.append_nil]

theorem Composed.filter_below (h : Composed before body name head tail p) :
    p.diagnostics.filter (fun d => (closing before body).Before d.position) =
      (tail.diagnostics.toList.filter fun d => Position.start.Before d.position).map
        (·.down (linesAbove before body)) := by
  obtain ⟨inside, hdiagnostics, hinside⟩ := h.diagnostics
  have habove : head.diagnostics.toList.filter (fun d => (closing before body).Before d.position) = [] := by
    refine List.filter_eq_nil_iff.2 fun d hd hbefore => ?_
    have hbefore : (closing before body).Before d.position := of_decide_eq_true hbefore
    have hle := h.above d hd
    have hlt := line_opening_lt before body
    rw [closing_eq] at hbefore
    unfold Position.Before at hbefore
    rw [Position.line_down] at hbefore
    omega
  have hnone : inside.filter (fun d => (closing before body).Before d.position) = [] := by
    refine List.filter_eq_nil_iff.2 fun d hd hbefore => ?_
    exact Position.not_before_iff.2 (hinside d hd).2 (of_decide_eq_true hbefore)
  have hsame : ∀ d : Diagnostic, (closing before body).Before (d.down (linesAbove before body)).position ↔
      Position.start.Before d.position := by
    intro d
    rw [closing_eq]
    exact Position.before_down_iff
  rw [hdiagnostics, List.filter_append, List.filter_append, habove, hnone, List.nil_append,
    List.nil_append, List.filter_map]
  refine congrArg (List.map _) (List.filter_congr fun d _ => ?_)
  exact decide_eq_decide.2 (hsame d)

end
end Grammar

/-- Errors inside the body of a function stay there. Behind a head that is right, the body may be any
text with its braces in pairs: what is used is the same, functions have the same names and signatures,
all others have the same bodies, and the reports up to the body and behind it are the same, further
down by the lines that one body has more than the other. -/
theorem Program.body_isolated {count : Nat} {before : List Char} {name : String} {signature : Signature}
    (hhead : Grammar.headBehind? count before = some (name, signature)) {body₁ body₂ : List Char}
    (h₁ : Grammar.BracesBalanced body₁) (h₂ : Grammar.BracesBalanced body₂) (behind : List Char) :
    let p₁ := Program.parse (bodied before body₁ behind)
    let p₂ := Program.parse (bodied before body₂ behind)
    p₁.externs = p₂.externs ∧
    p₁.functions.map Grammar.header = p₂.functions.map Grammar.header ∧
    p₁.functions.filter (·.1 != name) = p₂.functions.filter (·.1 != name) ∧
    p₁.diagnostics.filter (fun d => d.position.UpTo (opening before)) =
      p₂.diagnostics.filter (fun d => d.position.UpTo (opening before)) ∧
    (p₁.diagnostics.filter fun d => (closing before body₁).Before d.position).map
        (·.down (body₂.count '\n')) =
      (p₂.diagnostics.filter fun d => (closing before body₂).Before d.position).map
        (·.down (body₁.count '\n')) := by
  obtain ⟨hfunction, head, hrun, hrest⟩ := Grammar.headBehind?_eq_some hhead
  have hbound₁ := Nat.le_max_left (Grammar.State.ofSource (bodied before body₁ behind)).remaining
    (Grammar.State.ofSource (bodied before body₂ behind)).remaining
  have hbound₂ := Nat.le_max_right (Grammar.State.ofSource (bodied before body₁ behind)).remaining
    (Grammar.State.ofSource (bodied before body₂ behind)).remaining
  have hp₁ := Grammar.composed_parse hfunction hrun hrest h₁ behind hbound₁
  have hp₂ := Grammar.composed_parse hfunction hrun hrest h₂ behind hbound₂
  refine ⟨hp₁.externs.trans hp₂.externs.symm, hp₁.headers.trans hp₂.headers.symm,
    hp₁.others.trans hp₂.others.symm, hp₁.filter_above.trans hp₂.filter_above.symm, ?_⟩
  rw [hp₁.filter_below, hp₂.filter_below, List.map_map, List.map_map]
  refine List.map_congr_left fun d _ => ?_
  have hlines : Grammar.linesAbove before body₁ + body₂.count '\n' =
      Grammar.linesAbove before body₂ + body₁.count '\n' := by
    simp only [Grammar.linesAbove, List.count_append, List.count_cons]
    omega
  show (d.down _).down _ = (d.down _).down _
  rw [Diagnostic.down_down, Diagnostic.down_down, hlines]

def brokenHead : List Char := "use show(x: Float64)\n3\nfunc f(n: Float64) -> Float64 ".toList

def brokenBlock : List Char := " let = 3\n if n \x7b\n )\n \x7d\n".toList

def brokenReturn : List Char := " return (n".toList

def brokenTail : List Char := "\nfunc g() \x7b\n f(\n\x7d\n\t@ func g()".toList

theorem Program.body_isolated_broken :
    (Program.parse (bodied brokenHead brokenBlock brokenTail)).errorCount = 6 ∧
    (Program.parse (bodied brokenHead brokenReturn brokenTail)).errorCount = 5 ∧
    ((Program.parse (bodied brokenHead brokenBlock brokenTail)).diagnostics.filter fun d =>
      (closing brokenHead brokenBlock).Before d.position).length = 3 ∧
    ((Program.parse (bodied brokenHead brokenBlock brokenTail)).diagnostics.filter fun d =>
        (closing brokenHead brokenBlock).Before d.position).map (·.down (brokenReturn.count '\n')) =
      ((Program.parse (bodied brokenHead brokenReturn brokenTail)).diagnostics.filter fun d =>
        (closing brokenHead brokenReturn).Before d.position).map (·.down (brokenBlock.count '\n')) := by
  have hhead : Grammar.headBehind? 4 brokenHead = some ("f", ⟨[("n", .float64)], .float64⟩) := by
    decide +kernel
  have hisolated := Program.body_isolated hhead
    (by decide +kernel : Grammar.BracesBalanced brokenBlock)
    (by decide +kernel : Grammar.BracesBalanced brokenReturn) brokenTail
  exact ⟨by decide +kernel, by decide +kernel, by decide +kernel, hisolated.2.2.2.2⟩

end ScalarJit
