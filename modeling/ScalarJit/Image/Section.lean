/-! # Sections and links

Generated bytes come in sections, each destined for memory with certain rights. A link is a place in
one section that has to hold the address of a place in another once both are loaded. -/

namespace ScalarJit

inductive Rights where
  | readOnly
  | readWrite
  | executable
deriving DecidableEq, Repr, Inhabited

namespace Rights

def name : Rights → String
  | .readOnly => "ReadOnly"
  | .readWrite => "ReadWrite"
  | .executable => "Executable"

def all : List Rights := [.readOnly, .readWrite, .executable]

end Rights

abbrev SectionId := Nat

structure Section where
  rights : Rights
  data : Array UInt8
deriving DecidableEq, Repr, Inhabited

structure Link where
  pointerSection : SectionId
  pointerOffset : Nat
  pointeeSection : SectionId
  pointeeOffset : Nat
deriving DecidableEq, Repr, Inhabited

def Link.describe (l : Link) : String :=
  "Link \x7b pointer_section: " ++ toString l.pointerSection ++
    ", pointer_offset: " ++ toString l.pointerOffset ++
    ", pointee_section: " ++ toString l.pointeeSection ++
    ", pointee_offset: " ++ toString l.pointeeOffset ++ " \x7d"

end ScalarJit
