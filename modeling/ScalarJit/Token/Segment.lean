import ScalarJit.Double.Reader
import ScalarJit.Token.Basic

/-! # Segments of a source text

A source text is cut into consecutive segments: blanks, comments, lexemes of tokens, and characters
that belong nowhere. The cut does not depend on who asks for tokens, and the texts of the segments
put together are the source again. -/

namespace ScalarJit

inductive Segment where
  | blank (c : Char)
  | tab
  | lineFeed
  /-- From a hash sign up to the end of the line. -/
  | comment (text : List Char)
  | lexeme (kind : TokenKind) (text : List Char)
  | invalid (c : Char)
deriving DecidableEq, Repr, Inhabited

namespace Segment

def text : Segment → List Char
  | .blank c => [c]
  | .tab => ['\t']
  | .lineFeed => ['\n']
  | .comment text => text
  | .lexeme _ text => text
  | .invalid c => [c]

def isWordStart (c : Char) : Bool := c.isAlpha || c == '_'

def isWordRest (c : Char) : Bool := c.isAlphanum || c == '_'

def wordKind (word : List Char) : TokenKind :=
  match Keyword.ofWord? (String.ofList word) with
  | some keyword => .keyword keyword
  | none => .identifier (String.ofList word)

def leadingSymbol? (text : List Char) : Option (Symbol × List Char × List Char) :=
  (Symbol.spellings.find? fun (spelling, _) => spelling.isPrefixOf text).map
    fun (spelling, symbol) => (symbol, spelling, text.drop spelling.length)

/-- The first segment of the text `c :: rest` and what follows it. -/
def first (c : Char) (rest : List Char) : Segment × List Char :=
  if c = ' ' ∨ c = '\r' then (.blank c, rest)
  else if c = '\n' then (.lineFeed, rest)
  else if c = '\t' then (.tab, rest)
  else if c = '#' then (.comment (c :: rest.takeWhile (· != '\n')), rest.dropWhile (· != '\n'))
  else if c.isDigit then
    let digits := c :: rest.takeWhile Char.isDigit
    (.lexeme (.number (Double.ofDigits digits)) digits, rest.dropWhile Char.isDigit)
  else if isWordStart c then
    let word := c :: rest.takeWhile isWordRest
    (.lexeme (wordKind word) word, rest.dropWhile isWordRest)
  else
    match leadingSymbol? (c :: rest) with
    | some (symbol, spelling, rest) => (.lexeme (.symbol symbol) spelling, rest)
    | none => (.invalid c, rest)

theorem eq_append_of_leadingSymbol? {text spelling rest : List Char} {symbol : Symbol}
    (h : leadingSymbol? text = some (symbol, spelling, rest)) : text = spelling ++ rest := by
  obtain ⟨entry, found, e⟩ := Option.map_eq_some_iff.1 h
  cases e
  have starts := List.find?_some found
  exact (List.prefix_iff_eq_append.1 (List.isPrefixOf_iff_prefix.1 starts)).symm

theorem text_first_append (c : Char) (rest : List Char) :
    (first c rest).1.text ++ (first c rest).2 = c :: rest := by
  unfold first
  split
  · simp [text]
  split
  · simp_all [text]
  split
  · simp_all [text]
  split
  · simp [text, List.takeWhile_append_dropWhile]
  split
  · simp [text, List.takeWhile_append_dropWhile]
  split
  · simp [text, List.takeWhile_append_dropWhile]
  split
  · next h => simp [text, ← eq_append_of_leadingSymbol? h]
  · simp [text]

theorem leadingSymbol?_spelling_ne_nil {text spelling rest : List Char} {symbol : Symbol}
    (h : leadingSymbol? text = some (symbol, spelling, rest)) : spelling ≠ [] := by
  obtain ⟨entry, found, e⟩ := Option.map_eq_some_iff.1 h
  cases e
  have all : ∀ entry ∈ Symbol.spellings, entry.1 ≠ [] := by decide
  exact all entry (List.mem_of_find?_eq_some found)

theorem text_first_ne_nil (c : Char) (rest : List Char) : (first c rest).1.text ≠ [] := by
  unfold first
  split
  · simp [text]
  split
  · simp [text]
  split
  · simp [text]
  split
  · simp [text]
  split
  · simp [text]
  split
  · simp [text]
  split
  · next h => exact leadingSymbol?_spelling_ne_nil h
  · simp [text]

theorem length_first_lt (c : Char) (rest : List Char) :
    (first c rest).2.length < (c :: rest).length := by
  have whole := congrArg List.length (text_first_append c rest)
  have covered := List.length_pos_iff.2 (text_first_ne_nil c rest)
  rw [List.length_append] at whole
  omega

def all : List Char → List Segment
  | [] => []
  | c :: rest => (first c rest).1 :: all (first c rest).2
termination_by text => text.length
decreasing_by exact length_first_lt c rest

theorem flatMap_text_all (source : List Char) : (all source).flatMap text = source := by
  fun_induction all source with
  | case1 => rfl
  | case2 c rest ih => rw [List.flatMap_cons, ih, text_first_append]

end Segment
end ScalarJit
