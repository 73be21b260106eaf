/-! # Registers

The sixteen vector registers, of which code uses the low double only, and the sixteen general
registers. Both are numbered as instructions number them. -/

namespace ScalarJit.X86

structure Xmm where
  number : Fin 16
deriving DecidableEq, Repr, Inhabited

structure Gpr where
  number : Fin 16
deriving DecidableEq, Repr, Inhabited

namespace Xmm

def name (r : Xmm) : String := s!"xmm{r.number.val}"

def all : List Xmm := (List.finRange 16).map .mk

def result : Xmm := ⟨0⟩

/-- The register that passes an argument; only the first eight arguments have one. -/
def argument? (index : Nat) : Option Xmm :=
  if h : index < 8 then some ⟨⟨index, by omega⟩⟩ else none

@[simp]
theorem length_all : all.length = 16 := by decide

end Xmm

namespace Gpr

def rax : Gpr := ⟨0⟩
def rcx : Gpr := ⟨1⟩
def rdx : Gpr := ⟨2⟩
def rsp : Gpr := ⟨4⟩
def rbp : Gpr := ⟨5⟩
def rsi : Gpr := ⟨6⟩
def rdi : Gpr := ⟨7⟩
def r8 : Gpr := ⟨8⟩
def r9 : Gpr := ⟨9⟩
def r10 : Gpr := ⟨10⟩
def r11 : Gpr := ⟨11⟩

def callerSaved : List Gpr := [rax, rcx, rdx, rsi, rdi, r8, r9, r10, r11]

def names : List String :=
  ["rax", "rcx", "rdx", "rbx", "rsp", "rbp", "rsi", "rdi", "r8", "r9", "r10", "r11", "r12", "r13",
    "r14", "r15"]

def all : List Gpr := (List.finRange 16).map .mk

def ofName? (name : String) : Option Gpr :=
  all.find? fun r => names[r.number.val]? == some name

end Gpr
end ScalarJit.X86
