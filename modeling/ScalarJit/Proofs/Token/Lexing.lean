import Mathlib
import ScalarJit.Token.Lexer

/-! # What a lexer makes of a source

Every character of a source belongs to one segment, and every segment is what its characters and the
text behind it make of it. Tokens and faults stand where their segments do, counted from the start of
the source. However a lexer is asked, it moves over whole segments and stops at the end. -/

namespace ScalarJit

/-! ### Places -/

namespace Position

def width (c : Char) : Nat := if c = '\t' then tabWidth else 1

/-- The place behind a text: a line for every line feed, and the widths since the last of them. -/
def behind (text : List Char) : Position :=
  ⟨1 + text.count '\n', 1 + ((text.rtakeWhile (· != '\n')).map width).sum⟩

theorem behind_concat (text : List Char) (c : Char) :
    behind (text ++ [c]) = (behind text).after c := by
  by_cases hfeed : c = '\n'
  · subst hfeed
    simp [behind, after]
    omega
  · by_cases htab : c = '\t'
    · subst htab
      simp [behind, after, width]
      omega
    · have hcount : List.count '\n' [c] = 0 := by simp [hfeed]
      simp [behind, after, width, hfeed, htab, hcount]
      omega

theorem afterAll_start (text : List Char) : start.afterAll text = behind text := by
  induction text using List.reverseRecOn with
  | nil => rfl
  | append_singleton text c ih =>
    rw [afterAll_append, ih, behind_concat]
    rfl

theorem afterAll_behind (before text : List Char) :
    (behind before).afterAll text = behind (before ++ text) := by
  rw [← afterAll_start, ← afterAll_append, afterAll_start]

end Position

/-! ### Segments -/

namespace Segment

def Stops (run : Char → Bool) (behind : List Char) : Prop := ∀ c ∈ behind.head?, run c = false

theorem stops_dropWhile (run : Char → Bool) (text : List Char) : Stops run (text.dropWhile run) := by
  intro c hc
  have h := List.head?_dropWhile_not run text
  rw [Option.mem_def.1 hc] at h
  exact h

def blanks : List Char := [' ', '\r', '\n', '\t', '#']

/-- What a segment is in front of the text `behind`. -/
inductive Meant : Segment → List Char → Prop where
  | blank {c : Char} {behind : List Char} (h : c = ' ' ∨ c = '\r') : Meant (.blank c) behind
  | tab {behind : List Char} : Meant .tab behind
  | lineFeed {behind : List Char} : Meant .lineFeed behind
  | comment {body behind : List Char} (hbody : '\n' ∉ body) (hend : Stops (· != '\n') behind) :
    Meant (.comment ('#' :: body)) behind
  | number {digits behind : List Char} (hsome : digits ≠ []) (hdigits : ∀ c ∈ digits, c.isDigit)
    (hend : Stops Char.isDigit behind) :
    Meant (.lexeme (.number (Double.ofDigits digits)) digits) behind
  | keyword {word : Keyword} {behind : List Char} (hend : Stops isWordRest behind) :
    Meant (.lexeme (.keyword word) word.spelling.toList) behind
  | name {c : Char} {rest behind : List Char} (hstart : isWordStart c)
    (hrest : ∀ d ∈ rest, isWordRest d) (hend : Stops isWordRest behind)
    (hother : ∀ word : Keyword, word.spelling.toList ≠ c :: rest) :
    Meant (.lexeme (.identifier (String.ofList (c :: rest))) (c :: rest)) behind
  | symbol {spelling behind : List Char} {symbol : Symbol}
    (hmem : (spelling, symbol) ∈ Symbol.spellings)
    (hlongest : ∀ entry ∈ Symbol.spellings, entry.1 <+: spelling ++ behind →
      entry.1.length ≤ spelling.length) :
    Meant (.lexeme (.symbol symbol) spelling) behind
  | invalid {c : Char} {behind : List Char} (hother : c ∉ blanks)
    (hdigit : c.isDigit = false) (hword : isWordStart c = false)
    (hsymbol : ∀ entry ∈ Symbol.spellings, ¬entry.1 <+: c :: behind) : Meant (.invalid c) behind

theorem meant_word {c : Char} {rest behind : List Char} (hstart : isWordStart c)
    (hrest : ∀ d ∈ rest, isWordRest d) (hend : Stops isWordRest behind) :
    Meant (.lexeme (wordKind (c :: rest)) (c :: rest)) behind := by
  unfold wordKind
  split
  · next word hfound =>
    have hspelling := List.find?_some hfound
    have htext : c :: rest = word.spelling.toList := by
      rw [beq_iff_eq.1 hspelling, String.toList_ofList]
    rw [htext]
    exact .keyword hend
  · next hnone =>
    refine .name hstart hrest hend fun word hword => ?_
    have hsome := Keyword.ofWord?_spelling word
    rw [← String.ofList_toList (s := word.spelling), hword, hnone] at hsome
    cases hsome

theorem spellings_descending :
    Symbol.spellings.Pairwise fun entry later => later.1.length ≤ entry.1.length := by
  decide

theorem meant_leadingSymbol {text spelling behind : List Char} {symbol : Symbol}
    (h : leadingSymbol? text = some (symbol, spelling, behind)) :
    Meant (.lexeme (.symbol symbol) spelling) behind := by
  have htext := eq_append_of_leadingSymbol? h
  obtain ⟨entry, hfound, heq⟩ := Option.map_eq_some_iff.1 h
  cases heq
  obtain ⟨-, before, after, hsplit, hnone⟩ := List.find?_eq_some_iff_append.1 hfound
  refine .symbol (List.mem_of_find?_eq_some hfound) fun other hother hfits => ?_
  rw [← htext] at hfits
  have hordered := spellings_descending
  rw [hsplit] at hother hordered
  rcases List.mem_append.1 hother with hbefore | hthis
  · have hmiss := hnone other hbefore
    simp [List.isPrefixOf_iff_prefix.2 hfits] at hmiss
  · rcases List.mem_cons.1 hthis with rfl | hafter
    · exact Nat.le_refl _
    · exact List.rel_of_pairwise_cons (List.pairwise_append.1 hordered).2.1 hafter

theorem meant_first (c : Char) (rest : List Char) : (first c rest).1.Meant (first c rest).2 := by
  have htaken : ∀ run : Char → Bool, ∀ d ∈ rest.takeWhile run, run d :=
    fun run => List.all_eq_true.1 List.all_takeWhile
  unfold first
  split
  · next h => exact .blank h
  split
  · exact .lineFeed
  split
  · exact .tab
  split
  · next h =>
    subst h
    refine .comment (fun hfeed => ?_) (stops_dropWhile _ _)
    simpa using htaken _ _ hfeed
  split
  · next h =>
    refine .number (by simp) (fun d hd => ?_) (stops_dropWhile _ _)
    rcases List.mem_cons.1 hd with rfl | hd
    · exact h
    · exact htaken _ _ hd
  split
  · next h => exact meant_word h (htaken _) (stops_dropWhile _ _)
  split
  · next h => exact meant_leadingSymbol h
  · next hblank hfeed htab hhash hdigit hword _ hnone =>
    refine .invalid (by simp_all [blanks]) (by simpa using hdigit) (by simpa using hword) ?_
    intro entry hentry hfits
    have hmiss := List.find?_eq_none.1 (Option.map_eq_none_iff.1 hnone) entry hentry
    simp [List.isPrefixOf_iff_prefix.2 hfits] at hmiss

theorem meant_all {source : List Char} {before after : List Segment} {segment : Segment}
    (h : all source = before ++ segment :: after) : segment.Meant (after.flatMap text) := by
  fun_induction all source generalizing before with
  | case1 => simp at h
  | case2 c rest ih =>
    cases before with
    | nil =>
      obtain ⟨rfl, rfl⟩ := List.cons.inj h
      rw [flatMap_text_all]
      exact meant_first c rest
    | cons _ before => exact ih (List.cons.inj h).2

theorem Meant.text_ne_nil {segment : Segment} {behind : List Char} (h : segment.Meant behind) :
    segment.text ≠ [] := by
  cases h with
  | number hsome _ _ => exact hsome
  | @keyword word _ _ => cases word <;> decide
  | symbol hmem _ =>
    have hall : ∀ entry ∈ Symbol.spellings, entry.1 ≠ [] := by decide
    exact hall _ hmem
  | _ => simp [text]

/-! ### No other cut -/

theorem span_append {run : Char → Bool} {taken behind : List Char} (htaken : ∀ c ∈ taken, run c)
    (hend : Stops run behind) :
    (taken ++ behind).takeWhile run = taken ∧ (taken ++ behind).dropWhile run = behind := by
  rw [List.takeWhile_append_of_pos htaken, List.dropWhile_append_of_pos htaken]
  cases behind with
  | nil => simp
  | cons c rest => simp [hend c rfl]

theorem not_isDigit_of_isWordStart {c : Char} (h : isWordStart c) : c.isDigit = false := by
  by_contra hdigit
  simp only [Char.isDigit, Bool.not_eq_false, Bool.and_eq_true, decide_eq_true_eq,
    UInt32.le_iff_toNat_le] at hdigit
  simp only [isWordStart, Char.isAlpha, Char.isUpper, Char.isLower, Bool.or_eq_true,
    Bool.and_eq_true, decide_eq_true_eq, beq_iff_eq, UInt32.le_iff_toNat_le] at h
  have hnine : '9'.val.toNat = 57 := rfl
  have hupper : 'A'.val.toNat = 65 := rfl
  have hlower : 'a'.val.toNat = 97 := rfl
  rcases h with (h | h) | rfl
  · omega
  · omega
  · exact absurd hdigit (by decide)

theorem first_word {c : Char} {rest behind : List Char} (hstart : isWordStart c)
    (hrest : ∀ d ∈ rest, isWordRest d) (hend : Stops isWordRest behind) :
    first c (rest ++ behind) = (.lexeme (wordKind (c :: rest)) (c :: rest), behind) := by
  obtain ⟨htake, hdrop⟩ := span_append hrest hend
  have hother : c ∉ blanks := fun hmem => by
    have hnone : (blanks.all fun d => !isWordStart d) = true := by decide
    simpa [hstart] using List.all_eq_true.1 hnone c hmem
  simp only [blanks, List.mem_cons, List.not_mem_nil, or_false, not_or] at hother
  have hdigit := not_isDigit_of_isWordStart hstart
  simp [first, hother, hdigit, hstart, htake, hdrop]

theorem leadingSymbol?_of_longest {spelling behind : List Char} {symbol : Symbol}
    (hmem : (spelling, symbol) ∈ Symbol.spellings)
    (hlongest : ∀ entry ∈ Symbol.spellings, entry.1 <+: spelling ++ behind →
      entry.1.length ≤ spelling.length) :
    leadingSymbol? (spelling ++ behind) = some (symbol, spelling, behind) := by
  cases hfound : leadingSymbol? (spelling ++ behind) with
  | none =>
    have hmiss := List.find?_eq_none.1 (Option.map_eq_none_iff.1 hfound) _ hmem
    simp at hmiss
  | some found =>
    obtain ⟨symbol', spelling', behind'⟩ := found
    have htext := eq_append_of_leadingSymbol? hfound
    cases meant_leadingSymbol hfound with
    | symbol hmem' hlongest' =>
      -- both are the longest spelling that the text starts with
      have hle := hlongest _ hmem' ⟨behind', htext.symm⟩
      have hge := hlongest' _ hmem ⟨behind, htext⟩
      obtain ⟨rfl, rfl⟩ := List.append_inj htext (Nat.le_antisymm hge hle)
      have hunique : ∀ entry ∈ Symbol.spellings, ∀ other ∈ Symbol.spellings,
          entry.1 = other.1 → entry.2 = other.2 := by
        decide
      obtain rfl : symbol' = symbol := hunique _ hmem' _ hmem rfl
      rfl

theorem Meant.first {segment : Segment} {behind : List Char} (h : segment.Meant behind) :
    ∃ c rest, segment.text ++ behind = c :: rest ∧ first c rest = (segment, behind) := by
  -- The lexer tries its rules in a fixed order, so for each segment the earlier ones have to fail.
  cases h with
  | @blank c behind h => exact ⟨c, behind, rfl, by simp [Segment.first, h]⟩
  | tab => exact ⟨'\t', behind, rfl, by simp [Segment.first]⟩
  | lineFeed => exact ⟨'\n', behind, rfl, by simp [Segment.first]⟩
  | @comment body behind hbody hend =>
    have hrun : ∀ d ∈ body, (d != '\n') = true := fun d hd => bne_iff_ne.2 fun h => hbody (h ▸ hd)
    obtain ⟨htake, hdrop⟩ := span_append hrun hend
    exact ⟨'#', body ++ behind, rfl, by simp [Segment.first, htake, hdrop]⟩
  | @number digits behind hsome hdigits hend =>
    obtain ⟨d, digits, rfl⟩ := List.exists_cons_of_ne_nil hsome
    obtain ⟨hd, hdigits⟩ := List.forall_mem_cons.1 hdigits
    obtain ⟨htake, hdrop⟩ := span_append hdigits hend
    have hother : d ∉ blanks := fun hmem => by
      have hnone : (blanks.all fun e => !e.isDigit) = true := by decide
      simpa [hd] using List.all_eq_true.1 hnone d hmem
    simp only [blanks, List.mem_cons, List.not_mem_nil, or_false, not_or] at hother
    exact ⟨d, digits ++ behind, rfl, by simp [Segment.first, hother, hd, htake, hdrop]⟩
  | @keyword word behind hend =>
    have hspelled : ∃ d ds, word.spelling.toList = d :: ds ∧ isWordStart d ∧
        ds.all isWordRest ∧ wordKind (d :: ds) = .keyword word := by
      cases word <;> exact ⟨_, _, rfl, by decide, by decide, by decide⟩
    obtain ⟨d, ds, heq, hstart, hrest, hkind⟩ := hspelled
    refine ⟨d, ds ++ behind, by rw [text, heq]; rfl, ?_⟩
    rw [first_word hstart (List.all_eq_true.1 hrest) hend, hkind, heq]
  | @name d ds behind hstart hrest hend hother =>
    have hkind : wordKind (d :: ds) = .identifier (String.ofList (d :: ds)) := by
      unfold wordKind
      split
      · next word hfound =>
        have hspelling := List.find?_some hfound
        exact absurd (by rw [beq_iff_eq.1 hspelling, String.toList_ofList]) (hother word)
      · rfl
    exact ⟨d, ds ++ behind, rfl, by rw [first_word hstart hrest hend, hkind]⟩
  | @symbol spelling behind symbol hmem hlongest =>
    have hsign : ∀ entry ∈ Symbol.spellings,
        entry.1.head?.any (fun d => d ∉ blanks && !d.isDigit && !isWordStart d) = true := by
      decide
    obtain ⟨d, hd, hhead⟩ := (Option.any_eq_true _ _).1 (hsign _ hmem)
    obtain ⟨ds, rfl⟩ := List.head?_eq_some_iff.1 hd
    simp only [Bool.and_eq_true, decide_eq_true_eq, Bool.not_eq_true'] at hhead
    obtain ⟨⟨hother, hdigit⟩, hword⟩ := hhead
    have hleading := leadingSymbol?_of_longest hmem hlongest
    rw [List.cons_append] at hleading
    simp only [blanks, List.mem_cons, List.not_mem_nil, or_false, not_or] at hother
    exact ⟨d, ds ++ behind, rfl, by simp [Segment.first, hother, hdigit, hword, hleading]⟩
  | @invalid c behind hother hdigit hword hsymbol =>
    have hnone : leadingSymbol? (c :: behind) = none := by
      refine Option.map_eq_none_iff.2 (List.find?_eq_none.2 fun entry hentry hfits => ?_)
      exact hsymbol entry hentry (List.isPrefixOf_iff_prefix.1 hfits)
    simp only [blanks, List.mem_cons, List.not_mem_nil, or_false, not_or] at hother
    exact ⟨c, behind, rfl, by simp [Segment.first, hother, hdigit, hword, hnone]⟩

/-- The segments of a source are the only ones that make it up and are what they mean. -/
theorem all_eq_iff {source : List Char} {segments : List Segment} :
    all source = segments ↔ segments.flatMap text = source ∧
      ∀ before segment after, segments = before ++ segment :: after →
        segment.Meant (after.flatMap text) := by
  constructor
  · rintro rfl
    exact ⟨flatMap_text_all source, fun _ _ _ => meant_all⟩
  · rintro ⟨rfl, hmeant⟩
    induction segments with
    | nil => rw [List.flatMap_nil, all]
    | cons segment rest ih =>
      obtain ⟨c, behind, htext, hfirst⟩ := (hmeant [] segment rest rfl).first
      have hrest := ih fun before other after h => hmeant (segment :: before) other after (by rw [h]; rfl)
      rw [List.flatMap_cons, htext, all, hfirst, hrest]

theorem Meant.tokenOf_ne {segment : Segment} {behind : List Char} (h : segment.Meant behind)
    (keepNewlines : Bool) : Lexer.tokenOf keepNewlines segment ≠ some .endOfFile := by
  cases h <;> cases keepNewlines <;> simp [Lexer.tokenOf]

end Segment

/-! ### Tokens and faults in the order of segments -/

namespace Lexer

def inOrder (before : List Segment) : List Segment → List (List Segment × Segment)
  | [] => []
  | segment :: rest => (before, segment) :: inOrder (before ++ [segment]) rest

def placeBehind (before : List Segment) : Position := .behind (before.flatMap Segment.text)

def isLexeme : Segment → Bool
  | .lexeme .. => true
  | _ => false

def tokenOnLine (before : List Segment) : Bool :=
  (before.rtakeWhile (· != .lineFeed)).any isLexeme

/-- What is wrong with a segment: a tab behind a token on its line, or an invalid character. -/
def fault? (before : List Segment) : Segment → Option LexicalFault
  | .tab => if tokenOnLine before then some .unexpectedTab else none
  | .invalid c => some (.invalidChar c)
  | _ => none

def tokensIn (keepNewlines : Bool) (before segments : List Segment) : List Token :=
  (inOrder before segments).filterMap fun (earlier, segment) =>
    (tokenOf keepNewlines segment).map fun kind => ⟨kind, placeBehind earlier⟩

def faultsIn (before segments : List Segment) : List LocatedFault :=
  (inOrder before segments).filterMap fun (earlier, segment) =>
    (fault? earlier segment).map fun fault => ⟨fault, placeBehind earlier⟩

section
variable {keepNewlines : Bool} {before segments passed : List Segment} {segment : Segment}

theorem inOrder_append (before first second : List Segment) :
    inOrder before (first ++ second) = inOrder before first ++ inOrder (before ++ first) second := by
  induction first generalizing before with
  | nil => simp [inOrder]
  | cons segment rest ih => simp [inOrder, ih]

theorem tokensIn_append (keepNewlines : Bool) (before first second : List Segment) :
    tokensIn keepNewlines before (first ++ second) =
      tokensIn keepNewlines before first ++ tokensIn keepNewlines (before ++ first) second := by
  rw [tokensIn, inOrder_append, List.filterMap_append]
  rfl

theorem faultsIn_append (before first second : List Segment) :
    faultsIn before (first ++ second) = faultsIn before first ++ faultsIn (before ++ first) second := by
  rw [faultsIn, inOrder_append, List.filterMap_append]
  rfl

theorem tokenOf_of_mem_tokensIn {token : Token} (h : token ∈ tokensIn keepNewlines before segments) :
    ∃ segment ∈ segments, tokenOf keepNewlines segment = some token.kind := by
  have hmem : ∀ {before segments : List Segment} {entry : List Segment × Segment},
      entry ∈ inOrder before segments → entry.2 ∈ segments := by
    intro before segments entry hentry
    induction segments generalizing before with
    | nil => simp [inOrder] at hentry
    | cons segment rest ih =>
      rcases List.mem_cons.1 hentry with rfl | hentry
      · exact List.mem_cons_self
      · exact List.mem_cons_of_mem _ (ih hentry)
  obtain ⟨entry, hentry, htoken⟩ := List.mem_filterMap.1 h
  obtain ⟨kind, hkind, rfl⟩ := Option.map_eq_some_iff.1 htoken
  exact ⟨entry.2, hmem hentry, hkind⟩

theorem tokensIn_singleton_of_some {kind : TokenKind} (h : tokenOf keepNewlines segment = some kind) :
    tokensIn keepNewlines before [segment] = [⟨kind, placeBehind before⟩] := by
  simp [tokensIn, inOrder, h]

theorem tokensIn_singleton_of_none (h : tokenOf keepNewlines segment = none) :
    tokensIn keepNewlines before [segment] = [] := by
  simp [tokensIn, inOrder, h]

theorem faultsIn_singleton (before : List Segment) (segment : Segment) :
    faultsIn before [segment] = faultOf (placeBehind before) (tokenOnLine before) segment := by
  cases segment with
  | tab =>
    cases hline : tokenOnLine before <;> simp [faultsIn, inOrder, fault?, faultOf, hline]
  | _ => rfl

theorem placeBehind_concat (before : List Segment) (segment : Segment) :
    placeBehind (before ++ [segment]) = (placeBehind before).afterAll segment.text := by
  rw [placeBehind, placeBehind, Position.afterAll_behind]
  simp

theorem tokenOnLine_concat (before : List Segment) (segment : Segment) :
    tokenOnLine (before ++ [segment]) = startedAfter (tokenOnLine before) segment := by
  cases segment <;> simp [tokenOnLine, startedAfter, isLexeme]

/-! ### One call -/

structure StandsBehind (source : List Char) (done : List Segment) (l : Lexer) : Prop where
  whole : done ++ l.rest = Segment.all source
  position : l.position = placeBehind done
  line : l.lineStarted = tokenOnLine done

/-- What a call answers behind the segments `done`: it passes over some segments and reports their
faults, and its token is the only one of them, or the end of the source if there is none. -/
def Answers (source : List Char) (keepNewlines : Bool) (done : List Segment) (step : Step) : Prop :=
  ∃ passed, step.lexer.StandsBehind source (done ++ passed) ∧ step.faults = faultsIn done passed ∧
    (tokensIn keepNewlines done passed = [step.token] ∨
      step.lexer.rest = [] ∧ tokensIn keepNewlines done passed = [] ∧
        step.token = ⟨.endOfFile, .behind source⟩)

theorem StandsBehind.ofSource (source : List Char) : (ofSource source).StandsBehind source [] :=
  ⟨rfl, rfl, rfl⟩

theorem answers_scan {source : List Char} {segments done : List Segment}
    (h : done ++ segments = Segment.all source) :
    Answers source keepNewlines done
      (scan keepNewlines segments (placeBehind done) (tokenOnLine done)) := by
  induction segments generalizing done with
  | nil =>
    have hend : placeBehind done = .behind source := by
      rw [List.append_nil] at h
      rw [placeBehind, h, Segment.flatMap_text_all]
    refine ⟨[], ⟨by simpa [scan] using h, by simp [scan], by simp [scan]⟩, rfl, .inr ⟨rfl, rfl, ?_⟩⟩
    simp [scan, hend]
  | cons segment rest ih =>
    have hall : done ++ [segment] ++ rest = Segment.all source := by simpa using h
    simp only [scan, ← placeBehind_concat, ← tokenOnLine_concat]
    split
    · next kind hkind =>
      have hfaults : faultsIn done [segment] = [] := by
        rw [faultsIn_singleton]
        cases segment <;> first | rfl | cases hkind
      exact ⟨[segment], ⟨hall, rfl, rfl⟩, hfaults.symm, .inl (tokensIn_singleton_of_some hkind)⟩
    · next hnone =>
      obtain ⟨passed, hstands, hfaults, htoken⟩ := ih hall
      rw [List.append_assoc] at hstands
      refine ⟨[segment] ++ passed, hstands, ?_, ?_⟩
      · rw [faultsIn_append, faultsIn_singleton, ← hfaults]
      · rw [tokensIn_append, tokensIn_singleton_of_none hnone, List.nil_append]
        exact htoken

theorem StandsBehind.answers {source : List Char} {done : List Segment} {l : Lexer}
    (h : l.StandsBehind source done) (keepNewlines : Bool) :
    Answers source keepNewlines done (l.next keepNewlines) := by
  rw [next, h.position, h.line]
  exact answers_scan h.whole

/-! ### Call after call -/

def afterCalls (l : Lexer) (calls : List Bool) : Lexer :=
  calls.foldl (fun l keepNewlines => (l.next keepNewlines).lexer) l

theorem StandsBehind.afterCalls {source : List Char} {done : List Segment} {l : Lexer}
    (h : l.StandsBehind source done) (calls : List Bool) :
    ∃ done, (l.afterCalls calls).StandsBehind source done := by
  induction calls generalizing l done with
  | nil => exact ⟨done, h⟩
  | cons keepNewlines calls ih =>
    obtain ⟨passed, hstands, -⟩ := h.answers keepNewlines
    exact ih hstands

theorem StandsBehind.meant {source : List Char} {done : List Segment} {l : Lexer}
    (h : l.StandsBehind source done) : ∀ segment ∈ l.rest, ∃ behind, segment.Meant behind := by
  intro segment hmem
  obtain ⟨before, after, hsplit⟩ := List.append_of_mem hmem
  have hall : Segment.all source = (done ++ before) ++ segment :: after := by
    rw [← h.whole, hsplit, List.append_assoc]
  exact ⟨_, Segment.meant_all hall⟩

theorem StandsBehind.rest_next {source : List Char} {done passed : List Segment} {l next : Lexer}
    (h : l.StandsBehind source done) (hnext : next.StandsBehind source (done ++ passed)) :
    l.rest = passed ++ next.rest := by
  rw [← List.append_cancel_left_eq done, h.whole, ← List.append_assoc, hnext.whole]

end

theorem StandsBehind.collect {source : List Char} {done : List Segment} {l : Lexer}
    (h : l.StandsBehind source done) (keepNewlines : Bool) {bound : Nat}
    (hbound : l.rest.length < bound) :
    l.collect keepNewlines bound =
      (tokensIn keepNewlines done l.rest ++ [⟨.endOfFile, .behind source⟩], faultsIn done l.rest) := by
  induction bound generalizing l done with
  | zero => omega
  | succ bound ih =>
    have hshorter := l.length_rest_next_lt keepNewlines
    obtain ⟨passed, hstands, hfaults, htoken⟩ := h.answers keepNewlines
    have hrest := h.rest_next hstands
    rw [Lexer.collect]
    rcases htoken with htoken | ⟨hend, hnone, htoken⟩
    · have hkind : (l.next keepNewlines).token.kind ≠ .endOfFile := by
        intro hend
        have hmem : (l.next keepNewlines).token ∈ tokensIn keepNewlines done passed := by simp [htoken]
        obtain ⟨segment, hsegment, hkind⟩ := tokenOf_of_mem_tokensIn hmem
        obtain ⟨behind, hmeant⟩ := h.meant segment (by rw [hrest]; simp [hsegment])
        rw [hend] at hkind
        exact hmeant.tokenOf_ne keepNewlines hkind
      rw [if_neg hkind, ih hstands (by have := hshorter hkind; omega)]
      rw [hrest, tokensIn_append, faultsIn_append, htoken, hfaults]
      rfl
    · rw [if_pos (by rw [htoken]), htoken, hfaults]
      rw [hrest, hend, List.append_nil, hnone]
      rfl

/-! ### The whole source -/

def unread (l : Lexer) : List Char := l.rest.flatMap Segment.text

def bytes (text : List Char) : Nat := (String.ofList text).utf8ByteSize

def cursor (source : List Char) (l : Lexer) : String.Pos.Raw := ⟨bytes source - bytes l.unread⟩

theorem bytes_append (first second : List Char) : bytes (first ++ second) = bytes first + bytes second := by
  rw [bytes, String.ofList_append, String.utf8ByteSize_append]
  rfl

theorem bytes_pos {text : List Char} (h : text ≠ []) : 0 < bytes text := by
  apply Nat.pos_of_ne_zero
  rw [bytes, Ne, String.utf8ByteSize_eq_zero_iff]
  intro hempty
  rw [← String.toList_eq_nil_iff, String.toList_ofList] at hempty
  exact h hempty

section
variable {source : List Char} {done : List Segment} {l : Lexer} (h : l.StandsBehind source done)
include h

theorem StandsBehind.split : source = done.flatMap Segment.text ++ l.unread := by
  rw [unread, ← List.flatMap_append, h.whole, Segment.flatMap_text_all]

theorem StandsBehind.isValid_cursor : (l.cursor source).IsValid (String.ofList source) := by
  refine String.Pos.Raw.isValid_iff_exists_append.2
    ⟨String.ofList (done.flatMap Segment.text), String.ofList l.unread, ?_, ?_⟩
  · rw [← String.ofList_append, ← h.split]
  · have hbytes := bytes_append (done.flatMap Segment.text) l.unread
    rw [← h.split] at hbytes
    have hcursor : bytes source - bytes l.unread = bytes (done.flatMap Segment.text) := by omega
    rw [cursor, hcursor]
    rfl

theorem StandsBehind.text_ne_nil {passed behind : List Segment} (hrest : l.rest = passed ++ behind)
    (hsome : passed ≠ []) : passed.flatMap Segment.text ≠ [] := by
  obtain ⟨segment, passed, rfl⟩ := List.exists_cons_of_ne_nil hsome
  obtain ⟨text, hmeant⟩ := h.meant segment (by rw [hrest]; simp)
  rw [List.flatMap_cons]
  exact List.append_ne_nil_of_left_ne_nil hmeant.text_ne_nil _

theorem StandsBehind.bytes_next_lt (hmore : l.unread ≠ []) (keepNewlines : Bool) :
    bytes (l.next keepNewlines).lexer.unread < bytes l.unread := by
  obtain ⟨passed, hstands, -, htoken⟩ := h.answers keepNewlines
  have hrest := h.rest_next hstands
  have hpassed : passed ≠ [] := by
    rintro rfl
    rcases htoken with htoken | ⟨hend, -, -⟩
    · simp [tokensIn, inOrder] at htoken
    · exact hmore (by simp [unread, hrest, hend])
  have hpos := bytes_pos (h.text_ne_nil hrest hpassed)
  rw [unread, unread, hrest, List.flatMap_append, bytes_append]
  omega

theorem StandsBehind.rest_eq_nil (hend : l.unread = []) : l.rest = [] := by
  by_contra hmore
  exact h.text_ne_nil (List.append_nil _).symm hmore hend

theorem StandsBehind.next_of_end (hend : l.unread = []) (keepNewlines : Bool) :
    l.next keepNewlines = ⟨⟨.endOfFile, .behind source⟩, [], l⟩ := by
  have hrest := h.rest_eq_nil hend
  have hposition : l.position = .behind source := by
    rw [h.position, placeBehind, h.split, hend, List.append_nil]
  rw [next, hrest, scan, hposition]
  obtain ⟨rest, position, line⟩ := l
  cases hrest
  cases hposition
  rfl

end

/-- A source is made up of segments of which each is what its place makes of it, in one way only.
Its tokens and faults are those of the segments, in order and where the segments start. A lexer that
is asked again and again, with line feeds or without, always stands between two segments, moves on at
each call, and at the end answers the same for ever. -/
theorem tokenize_segments (source : List Char) :
    (∀ segments, Segment.all source = segments ↔ segments.flatMap Segment.text = source ∧
      ∀ before segment after, segments = before ++ segment :: after →
        segment.Meant (after.flatMap Segment.text)) ∧
    (∀ keepNewlines, tokenize source keepNewlines =
      (tokensIn keepNewlines [] (Segment.all source) ++ [⟨.endOfFile, .behind source⟩],
        faultsIn [] (Segment.all source))) ∧
    ∀ calls, let l := (ofSource source).afterCalls calls
      ∃ done, l.StandsBehind source done ∧ (l.cursor source).IsValid (String.ofList source) ∧
        ∀ keepNewlines, Answers source keepNewlines done (l.next keepNewlines) ∧
          (l.unread ≠ [] → bytes (l.next keepNewlines).lexer.unread < bytes l.unread) ∧
          (l.unread = [] → l.next keepNewlines = ⟨⟨.endOfFile, .behind source⟩, [], l⟩) := by
  refine ⟨fun segments => Segment.all_eq_iff, fun keepNewlines => ?_, fun calls => ?_⟩
  · exact (StandsBehind.ofSource source).collect keepNewlines (Nat.lt_succ_self _)
  · obtain ⟨done, hstands⟩ := (StandsBehind.ofSource source).afterCalls calls
    exact ⟨done, hstands, hstands.isValid_cursor, fun keepNewlines => ⟨hstands.answers keepNewlines,
      fun hmore => hstands.bytes_next_lt hmore keepNewlines,
      fun hend => hstands.next_of_end hend keepNewlines⟩⟩

def tabbed : List Char := "\tlet x\t= 1# \té\n\t×=é".toList

theorem tokenize_segments_tabbed :
    (tokenize tabbed false).1.map (·.position) =
      [⟨1, 5⟩, ⟨1, 9⟩, ⟨1, 14⟩, ⟨1, 16⟩, ⟨2, 5⟩, ⟨2, 8⟩] ∧
    (tokenize tabbed false).2 = [⟨.unexpectedTab, ⟨1, 10⟩⟩, ⟨.invalidChar 'é', ⟨2, 7⟩⟩] := by
  rw [(tokenize_segments tabbed).2.1 false]
  decide +kernel

end Lexer
end ScalarJit
