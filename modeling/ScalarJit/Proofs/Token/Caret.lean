import Mathlib
import ScalarJit.Proofs.Text.Splice
import ScalarJit.Proofs.Token.Lexing

/-! # Where the caret of a diagnostic stands

Lines and columns are counted while a source is read, and the line of a diagnostic is looked up again
when it is made. A count sees line feeds and tabs only; the look-up also takes a carriage return off
the end of a line, and the tabs of a line are shown as blanks. Both agree: the caret stands under the
first character of the token or of the fault that the diagnostic is about. -/

namespace ScalarJit

namespace Text

def lastLine (text : List Char) : List Char := text.rtakeWhile (· != '\n')

theorem lineFeed_not_mem_lastLine (text : List Char) : '\n' ∉ lastLine text := by
  intro h
  simpa using List.mem_rtakeWhile_imp h

theorem eq_append_lastLine (text : List Char) :
    text = lastLine text ∨ ∃ earlier, text = earlier ++ '\n' :: lastLine text := by
  have hsplit := List.rdropWhile_append_rtakeWhile (p := (· != '\n')) (l := text)
  cases hlines : text.rdropWhile (· != '\n') using List.reverseRecOn with
  | nil =>
    rw [hlines, List.nil_append] at hsplit
    exact .inl hsplit.symm
  | append_singleton earlier c =>
    have hlast := List.rdropWhile_last_not (p := (· != '\n')) text (by simp [hlines])
    simp only [hlines, List.getLast_append_singleton, bne_iff_ne, ne_eq, not_not] at hlast
    rw [hlines, hlast, List.append_assoc] at hsplit
    exact .inr ⟨earlier, hsplit.symm⟩

theorem firstLine_within {left : List Char} (hleft : '\n' ∉ left) {c : Char} (hfeed : c ≠ '\n')
    (hreturn : c ≠ '\r') (rest : List Char) :
    ∃ right, '\n' ∉ right ∧ firstLine (left ++ c :: rest) = left ++ c :: right := by
  have hplain : '\n' ∉ rest.takeWhile (· != '\n') := by
    intro h
    simpa using List.mem_takeWhile_imp h
  have hrun : ∀ d ∈ left, (d != '\n') = true := fun d hd => bne_iff_ne.2 fun h => hleft (h ▸ hd)
  have hline : (left ++ c :: rest).takeWhile (· != '\n') =
      left ++ c :: rest.takeWhile (· != '\n') := by
    rw [List.takeWhile_append_of_pos hrun, List.takeWhile_cons_of_pos (by simpa using hfeed)]
  simp only [firstLine, hline]
  split
  · next h =>
    -- the carriage return that goes stands behind `c`
    cases hright : rest.takeWhile (· != '\n') with
    | nil =>
      rw [hright, List.getLast?_append_cons] at h
      exact absurd (Option.some.inj h.2) hreturn
    | cons d right =>
      rw [hright] at hplain
      refine ⟨(d :: right).dropLast, fun hmem => hplain (List.mem_of_mem_dropLast hmem), ?_⟩
      rw [List.dropLast_append_of_ne_nil (by simp), List.dropLast_cons_of_ne_nil (by simp)]
  · exact ⟨_, hplain, rfl⟩

theorem lineAt_within (before : List Char) {c : Char} (hfeed : c ≠ '\n') (hreturn : c ≠ '\r')
    (rest : List Char) :
    ∃ right, '\n' ∉ right ∧
      lineAt (before ++ c :: rest) (before.count '\n') = lastLine before ++ c :: right := by
  have hplain := lineFeed_not_mem_lastLine before
  have hnone := List.count_eq_zero.2 hplain
  obtain ⟨right, hright, hline⟩ := firstLine_within hplain hfeed hreturn rest
  refine ⟨right, hright, ?_⟩
  rcases eq_append_lastLine before with hfirst | ⟨earlier, hlater⟩
  · rw [← hfirst] at hline hnone ⊢
    rw [hnone, lineAt_zero, hline]
  · have hcount : before.count '\n' = earlier.count '\n' + 1 + 0 := by
      rw [hlater, List.count_append, List.count_cons_self, hnone]
    rw [hcount, ← hline]
    nth_rewrite 1 [hlater]
    rw [List.append_assoc, List.cons_append, lineAt_behind, lineAt_zero]

end Text

/-! ### The rows of a diagnostic -/

namespace Diagnostic

def rows (d : Diagnostic) : List (List Char) := d.render.toList.splitOn '\n'

def margin (number : List Char) : List Char := [' '] ++ number ++ [' ', '|', ' ']

theorem length_expandTabs (line : List Char) :
    (expandTabs line).length = (line.map Position.width).sum := by
  induction line with
  | nil => rfl
  | cons c line ih =>
    simp only [expandTabs, List.flatMap_cons, List.length_append, List.map_cons, List.sum_cons] at ih ⊢
    rw [ih]
    by_cases htab : c = '\t' <;> simp [Position.width, htab]

theorem expandTabs_append (left right : List Char) :
    expandTabs (left ++ right) = expandTabs left ++ expandTabs right := List.flatMap_append

theorem expandTabs_singleton {c : Char} (h : c ≠ '\t') : expandTabs [c] = [c] := by
  simp [expandTabs, h]

theorem lineFeed_not_mem_expandTabs {line : List Char} (h : '\n' ∉ line) : '\n' ∉ expandTabs line := by
  intro hmem
  obtain ⟨c, hc, hshown⟩ := List.mem_flatMap.1 hmem
  split at hshown
  · exact absurd (List.eq_of_mem_replicate hshown) (by decide)
  · exact h (List.mem_singleton.1 hshown ▸ hc)

theorem lineFeed_not_mem_repr (n : Nat) : '\n' ∉ (toString n).toList := by
  intro h
  rw [Nat.toString_eq_repr, Nat.toList_repr] at h
  exact absurd (Nat.isDigit_of_mem_toDigits (by decide) (by decide) h) (by decide)

theorem rows_eq {d : Diagnostic} (hmessage : '\n' ∉ d.message.toList)
    (hline : '\n' ∉ d.sourceLine.toList) :
    d.rows = [d.severity.text.toList ++ [':', ' '] ++ d.message.toList,
      margin (toString d.position.line).toList ++ expandTabs d.sourceLine.toList,
      margin (List.replicate (toString d.position.line).length ' ') ++
        List.replicate (d.position.column - 1) ' ' ++ ['^']] := by
  have hseverity : '\n' ∉ d.severity.text.toList := by
    cases d.severity <;> decide
  have hnumber := lineFeed_not_mem_repr d.position.line
  have hshown := lineFeed_not_mem_expandTabs hline
  have hrender : d.render.toList = ['\n'].intercalate
      [d.severity.text.toList ++ [':', ' '] ++ d.message.toList,
        margin (toString d.position.line).toList ++ expandTabs d.sourceLine.toList,
        margin (List.replicate (toString d.position.line).length ' ') ++
          List.replicate (d.position.column - 1) ' ' ++ ['^']] := by
    simp [render, margin, List.intercalate, toString, String.toList_append]
  rw [rows, hrender, List.splitOn_intercalate _ _ (by simp)]
  simp_all [margin]

/-- The caret of a diagnostic stands under the character `c` that follows the text `before`: the line
is shown in the second row with `c` on it, tabs as blanks, and the only caret, in the third row, has
as much in front of it as the first column of `c`. -/
def PointsBehind (d : Diagnostic) (before : List Char) (c : Char) : Prop :=
  ∃ title label right indent,
    d.sourceLine.toList = Text.lastLine before ++ c :: right ∧
    d.rows = [title, label ++ expandTabs (Text.lastLine before) ++ expandTabs [c] ++ expandTabs right,
      indent ++ ['^']] ∧
    indent.length = (label ++ expandTabs (Text.lastLine before)).length ∧ '^' ∉ indent

def aboveCaret (d : Diagnostic) : Option Char :=
  match d.rows with
  | [_, shown, carets] => shown[carets.idxOf '^']?
  | _ => none

theorem PointsBehind.aboveCaret {d : Diagnostic} {before : List Char} {c : Char}
    (h : d.PointsBehind before c) : d.aboveCaret = (expandTabs [c]).head? := by
  obtain ⟨title, label, right, indent, -, hrows, hlength, hindent⟩ := h
  have hcaret : (indent ++ ['^']).idxOf '^' = indent.length := by
    simp [List.idxOf_append_of_notMem hindent]
  have hsome : 0 < (expandTabs [c]).length := by
    by_cases htab : c = '\t' <;> simp [expandTabs, htab, tabWidth]
  rw [Diagnostic.aboveCaret, hrows]
  dsimp only
  rw [hcaret, hlength, List.append_assoc, List.getElem?_append_right (Nat.le_refl _), Nat.sub_self,
    List.getElem?_append_left hsome, List.head?_eq_getElem?]

theorem pointsBehind_about (before : List Char) {c : Char} (hfeed : c ≠ '\n') (hreturn : c ≠ '\r')
    (rest : List Char) (severity : Severity) {message : String} (hmessage : '\n' ∉ message.toList) :
    (about (before ++ c :: rest) severity message (.behind before)).PointsBehind before c := by
  obtain ⟨right, hright, hline⟩ := Text.lineAt_within before hfeed hreturn rest
  have hsource : (about (before ++ c :: rest) severity message (.behind before)).sourceLine.toList =
      Text.lastLine before ++ c :: right := by
    simp [about, Position.behind, hline]
  have hplain : '\n' ∉ Text.lastLine before ++ c :: right := by
    simp [Text.lineFeed_not_mem_lastLine, hright, Ne.symm hfeed]
  have hrows := rows_eq (d := about (before ++ c :: rest) severity message (.behind before)) hmessage
    (hsource ▸ hplain)
  have hshown : expandTabs (Text.lastLine before ++ c :: right) =
      expandTabs (Text.lastLine before) ++ expandTabs [c] ++ expandTabs right := by
    rw [List.append_cons, expandTabs_append, expandTabs_append]
  rw [hsource, hshown, ← List.append_assoc, ← List.append_assoc] at hrows
  refine ⟨_, _, right, _, hsource, hrows, ?_, ?_⟩
  · simp [margin, about, Position.behind, length_expandTabs, Text.lastLine,
      -Nat.toList_repr, String.length_toList]
  · simp [margin, List.mem_replicate]

end Diagnostic

/-! ### Tokens and faults -/

namespace Segment

theorem Meant.lexeme_first {kind : TokenKind} {text behind : List Char}
    (h : (lexeme kind text).Meant behind) : ∃ c rest, text = c :: rest ∧ c ∉ blanks := by
  obtain ⟨c, rest, htext⟩ := List.exists_cons_of_ne_nil h.text_ne_nil
  obtain ⟨d, following, hwhole, hfirst⟩ := h.first
  have hsame : c = d := by
    rw [htext] at hwhole
    exact (List.cons.inj hwhole).1
  refine ⟨c, rest, htext, fun hblank => ?_⟩
  simp only [blanks, List.mem_cons, List.not_mem_nil, or_false] at hblank
  rcases hblank with hc | hc | hc | hc | hc <;> simp [← hsame, hc, Segment.first] at hfirst

end Segment

namespace Lexer

theorem split_of_mem_inOrder {before segments : List Segment} {entry : List Segment × Segment}
    (h : entry ∈ inOrder before segments) :
    ∃ earlier later, segments = earlier ++ entry.2 :: later ∧ entry.1 = before ++ earlier := by
  induction segments generalizing before with
  | nil => simp [inOrder] at h
  | cons segment rest ih =>
    rcases List.mem_cons.1 h with hfirst | hrest
    · exact ⟨[], rest, by simp [hfirst], by simp [hfirst]⟩
    · obtain ⟨earlier, later, hsegments, hentry⟩ := ih hrest
      exact ⟨segment :: earlier, later, by simp [hsegments], by simp [hentry]⟩

def culprit : LexicalFault → Char
  | .unexpectedTab => '\t'
  | .invalidChar c => c

section
variable {source : List Char} {severity : Severity} {message : String}

/-- A token is a lexeme of the source, and diagnostics about its place point at its first
character. -/
def ShowsToken (source : List Char) (severity : Severity) (message : String) (token : Token) : Prop :=
  ∃ before c text behind, source = before ++ (c :: text) ++ behind ∧
    (Segment.lexeme token.kind (c :: text)).Meant behind ∧
    (Diagnostic.about source severity message token.position).PointsBehind before c ∧
    (Diagnostic.about source severity message token.position).aboveCaret = some c

/-- A fault is a character of the source, at which diagnostics about its place point. -/
def ShowsFault (source : List Char) (severity : Severity) (message : String) (f : LocatedFault) :
    Prop :=
  ∃ before behind, source = before ++ culprit f.fault :: behind ∧
    (Diagnostic.about source severity message f.position).PointsBehind before (culprit f.fault) ∧
    (Diagnostic.about source severity message f.position).aboveCaret =
      some (if f.fault = .unexpectedTab then ' ' else culprit f.fault)

theorem split_source {done segments earlier later rest : List Segment} {segment : Segment}
    (hall : done ++ segments ++ rest = Segment.all source)
    (hsegments : segments = earlier ++ segment :: later) :
    source = (done ++ earlier).flatMap Segment.text ++
        (segment.text ++ (later ++ rest).flatMap Segment.text) ∧
      segment.Meant ((later ++ rest).flatMap Segment.text) := by
  have hsplit : Segment.all source = (done ++ earlier) ++ segment :: (later ++ rest) := by
    rw [← hall, hsegments]
    simp
  have htext := Segment.flatMap_text_all source
  rw [hsplit, List.flatMap_append, List.flatMap_cons] at htext
  exact ⟨htext.symm, Segment.meant_all hsplit⟩

theorem showsToken_of_mem {keepNewlines : Bool} {done segments rest : List Segment} {token : Token}
    (hmessage : '\n' ∉ message.toList) (hall : done ++ segments ++ rest = Segment.all source)
    (h : token ∈ tokensIn keepNewlines done segments) (hkind : token.kind ≠ .newline) :
    ShowsToken source severity message token := by
  obtain ⟨⟨before, segment⟩, hentry, htoken⟩ := List.mem_filterMap.1 h
  obtain ⟨kind, hsome, rfl⟩ := Option.map_eq_some_iff.1 htoken
  obtain ⟨earlier, later, hsegments, hbefore⟩ := split_of_mem_inOrder hentry
  obtain ⟨hsource, hmeant⟩ := split_source hall hsegments
  dsimp only at hsome hkind hsource hmeant hbefore
  cases segment with
  | lexeme kind' text =>
    cases hsome
    obtain ⟨c, text, rfl, hother⟩ := hmeant.lexeme_first
    simp only [Segment.blanks, List.mem_cons, List.not_mem_nil, or_false, not_or] at hother
    obtain ⟨-, hreturn, hfeed, htab, -⟩ := hother
    simp only [← hbefore, Segment.text] at hsource
    have hpoints := Diagnostic.pointsBehind_about (before.flatMap Segment.text) hfeed hreturn
      (text ++ (later ++ rest).flatMap Segment.text) severity hmessage
    rw [← List.cons_append, ← hsource] at hpoints
    have habove := hpoints.aboveCaret
    rw [Diagnostic.expandTabs_singleton htab] at habove
    exact ⟨_, c, text, _, hsource.trans (List.append_assoc ..).symm, hmeant, hpoints, habove⟩
  | lineFeed =>
    cases keepNewlines with
    | false => cases hsome
    | true => cases hsome; exact absurd rfl hkind
  | _ => cases hsome

theorem fault?_eq_some {before : List Segment} {segment : Segment} {fault : LexicalFault}
    (h : fault? before segment = some fault) :
    segment = .tab ∧ fault = .unexpectedTab ∨ ∃ c, segment = .invalid c ∧ fault = .invalidChar c := by
  cases segment with
  | tab =>
    simp only [fault?, Option.ite_none_right_eq_some] at h
    exact .inl ⟨rfl, (Option.some.inj h.2).symm⟩
  | invalid c => exact .inr ⟨c, rfl, (Option.some.inj h).symm⟩
  | _ => cases h

theorem showsFault_of_mem {done segments rest : List Segment} {f : LocatedFault}
    (hmessage : '\n' ∉ message.toList) (hall : done ++ segments ++ rest = Segment.all source)
    (h : f ∈ faultsIn done segments) : ShowsFault source severity message f := by
  obtain ⟨⟨before, segment⟩, hentry, hfault⟩ := List.mem_filterMap.1 h
  obtain ⟨fault, hsome, rfl⟩ := Option.map_eq_some_iff.1 hfault
  obtain ⟨earlier, later, hsegments, hbefore⟩ := split_of_mem_inOrder hentry
  obtain ⟨hsource, hmeant⟩ := split_source hall hsegments
  dsimp only at hsome hsource hmeant hbefore
  rw [← hbefore] at hsource
  have hchar : segment.text = [culprit fault] ∧ culprit fault ≠ '\n' ∧ culprit fault ≠ '\r' ∧
      (Diagnostic.expandTabs [culprit fault]).head? =
        some (if fault = .unexpectedTab then ' ' else culprit fault) := by
    rcases fault?_eq_some hsome with ⟨rfl, rfl⟩ | ⟨c, rfl, rfl⟩
    · exact ⟨rfl, by decide, by decide, rfl⟩
    · cases hmeant with
      | invalid hother =>
        simp only [Segment.blanks, List.mem_cons, List.not_mem_nil, or_false, not_or] at hother
        exact ⟨rfl, hother.2.2.1, hother.2.1, by simp [culprit, Diagnostic.expandTabs, hother]⟩
  obtain ⟨htext, hfeed, hreturn, hshown⟩ := hchar
  rw [htext, List.singleton_append] at hsource
  have hpoints := Diagnostic.pointsBehind_about (before.flatMap Segment.text) hfeed hreturn
    ((later ++ rest).flatMap Segment.text) severity hmessage
  rw [← hsource] at hpoints
  exact ⟨_, _, hsource, hpoints, hpoints.aboveCaret.trans hshown⟩

end

/-- Diagnostics about the place of a token or of a fault, whatever they say and however the source is
read, have their caret under the first character of the token, under the character that is wrong, or
under the first of the blanks that stand for the tab. -/
theorem caret_points (source : List Char) (severity : Severity) (message : String)
    (hmessage : '\n' ∉ message.toList) :
    (∀ calls keepNewlines, let step := ((ofSource source).afterCalls calls).next keepNewlines
      (step.token.kind ≠ .newline → step.token.kind ≠ .endOfFile →
        ShowsToken source severity message step.token) ∧
      ∀ f ∈ step.faults, ShowsFault source severity message f) ∧
    ∀ keepNewlines,
      (∀ token ∈ (tokenize source keepNewlines).1, token.kind ≠ .newline → token.kind ≠ .endOfFile →
        ShowsToken source severity message token) ∧
      ∀ f ∈ (tokenize source keepNewlines).2, ShowsFault source severity message f := by
  constructor
  · intro calls keepNewlines
    obtain ⟨done, hstands⟩ := (StandsBehind.ofSource source).afterCalls calls
    obtain ⟨passed, hnext, hfaults, htoken⟩ := hstands.answers keepNewlines
    refine ⟨fun hnewline hend => ?_, fun f hf => ?_⟩
    · rcases htoken with htoken | ⟨-, -, htoken⟩
      · have hmem : _ ∈ tokensIn keepNewlines done passed := htoken ▸ List.mem_singleton_self _
        exact showsToken_of_mem hmessage hnext.whole hmem hnewline
      · exact absurd (by rw [htoken]) hend
    · rw [hfaults] at hf
      exact showsFault_of_mem hmessage hnext.whole hf
  · intro keepNewlines
    have hall : [] ++ Segment.all source ++ [] = Segment.all source := by simp
    have htokens := (StandsBehind.ofSource source).collect keepNewlines (Nat.lt_succ_self _)
    rw [tokenize, htokens]
    refine ⟨fun token hmem hnewline hend => ?_, fun f hf => showsFault_of_mem hmessage hall hf⟩
    rcases List.mem_append.1 hmem with hmem | hmem
    · exact showsToken_of_mem hmessage hall hmem hnewline
    · exact absurd (by rw [List.mem_singleton.1 hmem]) hend

def returned : List Char := "let\té\r\n\tb = 1\r\n".toList

theorem caret_points_returned :
    '\n' ∉ "here".toList ∧
    ShowsToken returned .note "here" ⟨.identifier "b", ⟨2, 5⟩⟩ ∧
    ShowsFault returned .note "here" ⟨.unexpectedTab, ⟨1, 4⟩⟩ ∧
    ShowsFault returned .note "here" ⟨.invalidChar 'é', ⟨1, 8⟩⟩ ∧
    (Diagnostic.about returned .note "here" ⟨1, 8⟩).rows.drop 1 =
      [" 1 | let    é".toList, "   |        ^".toList] := by
  have hplain : '\n' ∉ "here".toList := by decide
  obtain ⟨htokens, hfaults⟩ := (caret_points returned .note "here" hplain).2 false
  exact ⟨hplain, htokens _ (by decide +kernel) (by decide) (by decide),
    hfaults _ (by decide +kernel), hfaults _ (by decide +kernel), by decide +kernel⟩

end Lexer
end ScalarJit
