import ScalarJit.Codegen.Fault

/-! # The register stack

Intermediate values live in the vector registers in the order of their numbers: the next value goes
to the lowest free register, and values are given up in reverse. -/

namespace ScalarJit.Codegen

open X86 (Xmm)

structure RegisterStack where
  used : Nat
  used_le : used ≤ 16
deriving DecidableEq, Repr

namespace RegisterStack

def empty : RegisterStack := ⟨0, by decide⟩

instance : Inhabited RegisterStack := ⟨empty⟩

def live (s : RegisterStack) : List Xmm := Xmm.all.take s.used

def top? (s : RegisterStack) : Option Xmm := s.live.getLast?

def acquire (s : RegisterStack) : Except Fault (Xmm × RegisterStack) :=
  if h : s.used < 16 then .ok (⟨⟨s.used, h⟩⟩, ⟨s.used + 1, h⟩) else .error .registersExhausted

def release (s : RegisterStack) (r : Xmm) : Except Fault RegisterStack :=
  if s.used = r.number.val + 1 then .ok ⟨s.used - 1, Nat.le_trans (Nat.sub_le ..) s.used_le⟩
  else .error (.internal (.releasedOutOfOrder r s.top?))

@[simp]
theorem length_live (s : RegisterStack) : s.live.length = s.used := by
  simp [live, s.used_le]

end RegisterStack
end ScalarJit.Codegen
