import ScalarJit.Text.Hex

/-! # JSON documents

A document value and its text: two blanks of indent for each level, one member or element a line,
and nothing between the brackets of an empty one. Fields stand in the order given. -/

namespace ScalarJit.Dump

inductive Json where
  | null
  | bool (b : Bool)
  | number (text : String)
  | string (s : String)
  | array (items : List Json)
  | object (fields : List (String × Json))
deriving Repr, Inhabited

namespace Json

def escapeChar (c : Char) : List Char :=
  match c with
  | '"' => ['\\', '"']
  | '\\' => ['\\', '\\']
  | '\n' => ['\\', 'n']
  | '\r' => ['\\', 'r']
  | '\t' => ['\\', 't']
  | '\x08' => ['\\', 'b']
  | '\x0c' => ['\\', 'f']
  | c => if c.toNat < 0x20 then '\\' :: 'u' :: Text.hexDigits 4 c.toNat else [c]

def quote (s : String) : String := "\"" ++ String.ofList (s.toList.flatMap escapeChar) ++ "\""

def lineStart (level : Nat) : String := "\n" ++ String.ofList (List.replicate (2 * level) ' ')

mutual

def pretty (level : Nat) : Json → String
  | .null => "null"
  | .bool b => if b then "true" else "false"
  | .number text => text
  | .string s => quote s
  | .array [] => "[]"
  | .array (item :: rest) =>
    "[" ++ lineStart (level + 1) ++ pretty (level + 1) item ++ items (level + 1) rest ++
      lineStart level ++ "]"
  | .object [] => "\x7b\x7d"
  | .object ((name, value) :: rest) =>
    "\x7b" ++ lineStart (level + 1) ++ quote name ++ ": " ++ pretty (level + 1) value ++
      fields (level + 1) rest ++ lineStart level ++ "\x7d"

def items (level : Nat) : List Json → String
  | [] => ""
  | item :: rest => "," ++ lineStart level ++ pretty level item ++ items level rest

def fields (level : Nat) : List (String × Json) → String
  | [] => ""
  | (name, value) :: rest =>
    "," ++ lineStart level ++ quote name ++ ": " ++ pretty level value ++ fields level rest

end

def text (j : Json) : String := pretty 0 j

def natural (n : Nat) : Json := .number (toString n)

def optional {α : Type} (f : α → Json) : Option α → Json
  | some a => f a
  | none => .null

end Json
end ScalarJit.Dump
