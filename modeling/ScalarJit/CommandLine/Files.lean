/-! # Files by path

A tree of files, and what reading one of them by its path answers. The names of a path are followed
one by one from a place in the tree, and the first name that cannot be followed decides the fault. -/

namespace ScalarJit.CommandLine

inductive ReadFault where
  | system (text : String) (code : Nat)
  | notUtf8
deriving DecidableEq, Repr, Inhabited

namespace ReadFault

def message : ReadFault → String
  | .system text code => s!"{text} (os error {code})"
  | .notUtf8 => "stream did not contain valid UTF-8"

def missing : ReadFault := .system "No such file or directory" 2

def notDirectory : ReadFault := .system "Not a directory" 20

def directory : ReadFault := .system "Is a directory" 21

def nameTooLong : ReadFault := .system "File name too long" 36

end ReadFault

inductive FileTree where
  | file (contents : List UInt8)
  | directory (entries : List (String × FileTree))
deriving Repr, Inhabited

def nameLimit : Nat := 255

def pathLimit : Nat := 4095

/-- The names of a path, which slashes divide. Two slashes in a row have an empty name between. -/
def pathNames : List Char → List (List Char)
  | [] => [[]]
  | c :: rest =>
    if c = '/' then [] :: pathNames rest
    else match pathNames rest with
      | [] => [[c]]
      | name :: names => (c :: name) :: names

structure Place where
  here : FileTree
  above : List FileTree
deriving Repr, Inhabited

namespace Place

/-- The directory that holds a place. The root holds itself. -/
def parent (p : Place) : Place :=
  match p.above with
  | [] => p
  | d :: above => ⟨d, above⟩

def root (p : Place) : Place := ⟨(p.above.getLast?).getD p.here, []⟩

/-- The place that a name leads to. Only a directory can be left by a name, also by an empty one. -/
def enter (p : Place) (name : String) : Except ReadFault Place :=
  match p.here with
  | .file _ => .error .notDirectory
  | .directory entries =>
    if name = "" ∨ name = "." then .ok p
    else if name = ".." then .ok p.parent
    else if nameLimit < name.utf8ByteSize then .error .nameTooLong
    else match entries.lookup name with
      | some t => .ok ⟨t, p.here :: p.above⟩
      | none => .error .missing

def follow (p : Place) (names : List String) : Except ReadFault Place := names.foldlM enter p

/-- The contents of the file at a path. A path that starts with a slash is followed from the root. -/
def read (p : Place) (path : String) : Except ReadFault (List UInt8) := do
  if path = "" then throw .missing
  if pathLimit < path.utf8ByteSize then throw .nameTooLong
  let start := if path.toList.head? = some '/' then p.root else p
  match (← start.follow ((pathNames path.toList).map String.ofList)).here with
  | .file contents => return contents
  | .directory _ => throw .directory

end Place

end ScalarJit.CommandLine
