/-! # Lines of a text

A line ends at a line feed, which takes one carriage return before it along. A carriage return that
ends the text is kept. -/

namespace ScalarJit.Text

def firstLine (text : List Char) : List Char :=
  let line := text.takeWhile (· != '\n')
  if line.length < text.length ∧ line.getLast? = some '\r' then line.dropLast else line

def afterFirstLine (text : List Char) : List Char := (text.dropWhile (· != '\n')).drop 1

/-- The line with the given number of lines before it, empty past the end. The search is over where
the text is, however many lines are left to skip. -/
def lineAt : List Char → Nat → List Char
  | [], _ => []
  | text, 0 => firstLine text
  | text, n + 1 => lineAt (afterFirstLine text) n

@[simp] theorem lineAt_zero (text : List Char) : lineAt text 0 = firstLine text := by
  cases text <;> rfl

@[simp] theorem lineAt_succ (text : List Char) (n : Nat) :
    lineAt text (n + 1) = lineAt (afterFirstLine text) n := by
  cases text with
  | nil => cases n <;> rfl
  | cons c rest => rfl

end ScalarJit.Text
