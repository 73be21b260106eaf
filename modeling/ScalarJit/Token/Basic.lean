import ScalarJit.Diagnostic
import ScalarJit.Double.Decimal

/-! # Tokens

The words and symbols of the language with their spellings, and how a message names them. Two
symbols have a second spelling, the mathematical signs for times and divided by. -/

namespace ScalarJit

inductive Keyword where
  | function
  | uses
  | returns
  | letBinding
  | varBinding
  | ifBranch
  | elifBranch
  | elseBranch
deriving DecidableEq, Repr, Inhabited

namespace Keyword

def spelling : Keyword → String
  | .function => "func"
  | .uses => "use"
  | .returns => "return"
  | .letBinding => "let"
  | .varBinding => "var"
  | .ifBranch => "if"
  | .elifBranch => "elif"
  | .elseBranch => "else"

def all : List Keyword :=
  [.function, .uses, .returns, .letBinding, .varBinding, .ifBranch, .elifBranch, .elseBranch]

def ofWord? (word : String) : Option Keyword := all.find? (·.spelling == word)

theorem ofWord?_spelling (k : Keyword) : ofWord? k.spelling = some k := by
  cases k <;> decide

end Keyword

inductive Symbol where
  | plus
  | minus
  | multiply
  | divide
  | power
  | assign
  | plusEquals
  | minusEquals
  | multiplyEquals
  | divideEquals
  | greater
  | smaller
  | greaterEquals
  | smallerEquals
  | openBracket
  | closedBracket
  | openCurly
  | closedCurly
  | colon
  | comma
  | arrow
deriving DecidableEq, Repr, Inhabited

namespace Symbol

/-- Spellings, longest first, so that the first that fits is the longest that fits. -/
def spellings : List (List Char × Symbol) :=
  [(['*', '*'], .power), (['+', '='], .plusEquals), (['-', '='], .minusEquals),
    (['*', '='], .multiplyEquals), (['×', '='], .multiplyEquals), (['/', '='], .divideEquals),
    (['÷', '='], .divideEquals), (['>', '='], .greaterEquals), (['<', '='], .smallerEquals),
    (['-', '>'], .arrow), (['+'], .plus), (['-'], .minus), (['*'], .multiply), (['×'], .multiply),
    (['/'], .divide), (['÷'], .divide), (['='], .assign), (['>'], .greater), (['<'], .smaller),
    (['('], .openBracket), ([')'], .closedBracket), (['{'], .openCurly), (['}'], .closedCurly),
    ([':'], .colon), ([','], .comma)]

def text : Symbol → String
  | .plus => "plus"
  | .minus => "minus"
  | .multiply => "multiply"
  | .divide => "divide"
  | .power => "power"
  | .assign => "assign"
  | .plusEquals => "plus equals"
  | .minusEquals => "minus equals"
  | .multiplyEquals => "multiply equals"
  | .divideEquals => "divide equals"
  | .greater => "greater"
  | .smaller => "smaller"
  | .greaterEquals => "greater equals"
  | .smallerEquals => "smaller equals"
  | .openBracket => "open bracket"
  | .closedBracket => "closed bracket"
  | .openCurly => "open curly bracket"
  | .closedCurly => "closed curly bracket"
  | .colon => "colon"
  | .comma => "comma"
  | .arrow => "arrow"

end Symbol

inductive TokenKind where
  | number (value : Double)
  | identifier (name : String)
  | keyword (word : Keyword)
  | symbol (sign : Symbol)
  | newline
  | endOfFile
deriving DecidableEq, Repr, Inhabited

def TokenKind.text : TokenKind → String
  | .number value => "number " ++ value.text
  | .identifier name => "identifier \"" ++ name ++ "\""
  | .keyword word => "keyword " ++ word.spelling
  | .symbol sign => sign.text
  | .newline => "newline"
  | .endOfFile => "end of file"

structure Token where
  kind : TokenKind
  position : Position
deriving DecidableEq, Repr, Inhabited

end ScalarJit
