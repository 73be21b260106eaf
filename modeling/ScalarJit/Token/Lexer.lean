import ScalarJit.Token.Segment

/-! # From segments to tokens

A lexer stands between two segments of a source. Asked for the next token it passes over blanks and
comments, collecting what is wrong on the way, and stops behind the next lexeme. Whoever asks says
each time whether a line feed is a token or a blank. At the end it answers with the end of file,
however often it is asked. -/

namespace ScalarJit

inductive LexicalFault where
  /-- A tab on a line where a token has started. -/
  | unexpectedTab
  /-- A character that no token starts with. -/
  | invalidChar (c : Char)
deriving DecidableEq, Repr, Inhabited

def LexicalFault.message : LexicalFault → String
  | .unexpectedTab => "Unexpected tab"
  | .invalidChar c => s!"Invalid char '{c}' ({c.toNat})"

structure LocatedFault where
  fault : LexicalFault
  position : Position
deriving DecidableEq, Repr, Inhabited

def LocatedFault.diagnostic (source : List Char) (f : LocatedFault) : Diagnostic :=
  .about source .error f.fault.message f.position

structure Lexer where
  rest : List Segment
  position : Position
  /-- Whether a token has started on the current line. -/
  lineStarted : Bool
deriving DecidableEq, Repr, Inhabited

namespace Lexer

def ofSource (source : List Char) : Lexer := ⟨Segment.all source, .start, false⟩

/-- An answer of the lexer: the token, the faults before it and the lexer behind it. -/
structure Step where
  token : Token
  faults : List LocatedFault
  lexer : Lexer
deriving DecidableEq, Repr, Inhabited

def faultOf (position : Position) (lineStarted : Bool) : Segment → List LocatedFault
  | .tab => if lineStarted then [⟨.unexpectedTab, position⟩] else []
  | .invalid c => [⟨.invalidChar c, position⟩]
  | _ => []

def startedAfter (lineStarted : Bool) : Segment → Bool
  | .lineFeed => false
  | .lexeme .. => true
  | _ => lineStarted

def tokenOf (keepNewlines : Bool) : Segment → Option TokenKind
  | .lexeme kind _ => some kind
  | .lineFeed => if keepNewlines then some .newline else none
  | _ => none

def scan (keepNewlines : Bool) : List Segment → Position → Bool → Step
  | [], position, lineStarted => ⟨⟨.endOfFile, position⟩, [], ⟨[], position, lineStarted⟩⟩
  | segment :: rest, position, lineStarted =>
    let next := position.afterAll segment.text
    let started := startedAfter lineStarted segment
    match tokenOf keepNewlines segment with
    | some kind => ⟨⟨kind, position⟩, [], ⟨rest, next, started⟩⟩
    | none =>
      let step := scan keepNewlines rest next started
      { step with faults := faultOf position lineStarted segment ++ step.faults }

def next (keepNewlines : Bool) (l : Lexer) : Step :=
  scan keepNewlines l.rest l.position l.lineStarted

/-- Tokens up to and with the end of file, and all faults; `bound` tokens at most. -/
def collect (keepNewlines : Bool) : Nat → Lexer → List Token × List LocatedFault
  | 0, _ => ([], [])
  | bound + 1, l =>
    let step := l.next keepNewlines
    if step.token.kind = .endOfFile then ([step.token], step.faults)
    else
      let (tokens, faults) := collect keepNewlines bound step.lexer
      (step.token :: tokens, step.faults ++ faults)

/-! ### Progress -/

theorem length_rest_scan_le (keepNewlines : Bool) (segments : List Segment) (position : Position)
    (lineStarted : Bool) :
    (scan keepNewlines segments position lineStarted).lexer.rest.length ≤ segments.length := by
  induction segments generalizing position lineStarted with
  | nil => simp [scan]
  | cons segment rest ih =>
    simp only [scan]
    split
    · simp
    · exact Nat.le_succ_of_le (ih ..)

theorem length_rest_scan_lt (keepNewlines : Bool) (segments : List Segment) (position : Position)
    (lineStarted : Bool)
    (h : (scan keepNewlines segments position lineStarted).token.kind ≠ .endOfFile) :
    (scan keepNewlines segments position lineStarted).lexer.rest.length < segments.length := by
  induction segments generalizing position lineStarted with
  | nil => simp [scan] at h
  | cons segment rest ih =>
    simp only [scan] at h ⊢
    split
    · simp
    · next none => exact Nat.lt_succ_of_lt (ih _ _ (by simpa [none] using h))

theorem length_rest_next_le (keepNewlines : Bool) (l : Lexer) :
    (l.next keepNewlines).lexer.rest.length ≤ l.rest.length :=
  length_rest_scan_le ..

theorem length_rest_next_lt (keepNewlines : Bool) (l : Lexer)
    (h : (l.next keepNewlines).token.kind ≠ .endOfFile) :
    (l.next keepNewlines).lexer.rest.length < l.rest.length :=
  length_rest_scan_lt _ _ _ _ h

end Lexer

def tokenize (source : List Char) (keepNewlines : Bool) : List Token × List LocatedFault :=
  let lexer := Lexer.ofSource source
  lexer.collect keepNewlines (lexer.rest.length + 1)

end ScalarJit
