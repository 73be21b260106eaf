/-! # Functions of the host

What generated code can call besides functions of its own program: the intrinsics, which a source
declares to use by name, and the power of two doubles, which stands for an operator. Where they are is
not known before a process runs. -/

namespace ScalarJit

inductive Intrinsic where
  | printByte
  | printUnicode
  | printDouble
  | getDouble
deriving DecidableEq, Repr, Inhabited

namespace Intrinsic

def name : Intrinsic → String
  | .printByte => "printByte"
  | .printUnicode => "printUnicode"
  | .printDouble => "printDouble"
  | .getDouble => "getDouble"

def arity : Intrinsic → Nat
  | .getDouble => 0
  | _ => 1

def all : List Intrinsic := [.printByte, .printUnicode, .printDouble, .getDouble]

def ofName? (name : String) : Option Intrinsic := all.find? (·.name == name)

end Intrinsic

inductive HostFunction where
  | power
  | intrinsic (i : Intrinsic)
deriving DecidableEq, Repr, Inhabited

namespace HostFunction

def arity : HostFunction → Nat
  | .power => 2
  | .intrinsic i => i.arity

def takesContext : HostFunction → Bool
  | .power => false
  | .intrinsic _ => true

def all : List HostFunction :=
  [.power, .intrinsic .printByte, .intrinsic .printUnicode, .intrinsic .printDouble,
    .intrinsic .getDouble]

theorem mem_all (f : HostFunction) : f ∈ all := by
  cases f with
  | power => decide
  | intrinsic i => cases i <;> decide

end HostFunction

/-- Where a process has the functions of the host, and the context that intrinsics are passed. -/
class HostAddresses where
  function : HostFunction → UInt64
  context : UInt64
  injective : ∀ {f g : HostFunction}, function f = function g → f = g
  ne_zero : ∀ f : HostFunction, function f ≠ 0

namespace HostAddresses

/-- Addresses to run programs with when the process has none of its own. -/
scoped instance standard : HostAddresses where
  function
    | .power => 0xa0a0a0a0a0a0a0a0
    | .intrinsic .printByte => 0xa1a1a1a1a1a1a1a1
    | .intrinsic .printUnicode => 0xa2a2a2a2a2a2a2a2
    | .intrinsic .printDouble => 0xa3a3a3a3a3a3a3a3
    | .intrinsic .getDouble => 0xa4a4a4a4a4a4a4a4
  context := 0xc0c0c0c0c0c0c0c0
  injective {f g} := by
    cases f with
    | power => cases g with
      | power => simp
      | intrinsic j => cases j <;> decide
    | intrinsic i => cases g with
      | power => cases i <;> decide
      | intrinsic j => cases i <;> cases j <;> decide
  ne_zero f := by
    cases f with
    | power => decide
    | intrinsic i => cases i <;> decide

end HostAddresses

namespace HostFunction

variable [HostAddresses]

def address (f : HostFunction) : UInt64 := HostAddresses.function f

def contextAddress : UInt64 := HostAddresses.context

def ofAddress? (address : UInt64) : Option HostFunction := all.find? (·.address == address)

theorem ofAddress?_address (f : HostFunction) : ofAddress? f.address = some f := by
  cases hfind : ofAddress? f.address with
  | none => exact absurd (beq_self_eq_true f.address) (List.find?_eq_none.1 hfind f f.mem_all)
  | some g =>
    have hsame : g.address = f.address := by simpa using List.find?_some hfind
    rw [HostAddresses.injective hsame]

end HostFunction
end ScalarJit
