/-! # Types

The types that a source can name. They are told apart by name, not by layout: `UInt8` and `Char8`
are different types. `Void` is the type of what has no value. -/

namespace ScalarJit

inductive TyKind where
  | integer (signed : Bool)
  | floating
  | tuple
  | void
deriving DecidableEq, Repr, Inhabited

structure Layout where
  name : String
  size : Nat
  align : Nat
  kind : TyKind
deriving DecidableEq, Repr, Inhabited

namespace Layout

def isFloating (l : Layout) : Bool := l.kind == .floating

def isVoid (l : Layout) : Bool := l.kind == .void

def isSigned? (l : Layout) : Option Bool :=
  match l.kind with
  | .integer signed => some signed
  | _ => none

def integer (name : String) (signed : Bool) (size : Nat) : Layout := ⟨name, size, size, .integer signed⟩

def floating (name : String) (size : Nat) : Layout := ⟨name, size, size, .floating⟩

def void : Layout := ⟨"Void", 0, 1, .void⟩

end Layout

inductive Ty where
  | int64
  | int32
  | int16
  | int8
  | uint64
  | uint32
  | uint16
  | uint8
  | char32
  | char16
  | char8
  | float32
  | float64
  | void
deriving DecidableEq, Repr, Inhabited

namespace Ty

def layout : Ty → Layout
  | .int64 => .integer "Int64" true 8
  | .int32 => .integer "Int32" true 4
  | .int16 => .integer "Int16" true 2
  | .int8 => .integer "Int8" true 1
  | .uint64 => .integer "UInt64" false 8
  | .uint32 => .integer "UInt32" false 4
  | .uint16 => .integer "UInt16" false 2
  | .uint8 => .integer "UInt8" false 1
  | .char32 => .integer "Char32" false 4
  | .char16 => .integer "Char16" false 2
  | .char8 => .integer "Char8" false 1
  | .float32 => .floating "Float32" 4
  | .float64 => .floating "Float64" 8
  | .void => .void

def name (t : Ty) : String := t.layout.name

def isVoid (t : Ty) : Bool := t.layout.isVoid

def all : List Ty :=
  [.int64, .int32, .int16, .int8, .uint64, .uint32, .uint16, .uint8, .char32, .char16, .char8,
    .float32, .float64, .void]

def ofName? (name : String) : Option Ty := all.find? (·.name == name)

@[simp]
theorem isVoid_iff {t : Ty} : t.isVoid = true ↔ t = .void := by
  cases t <;> decide

end Ty
end ScalarJit
