/-! # Sums of words

Sizes and offsets are 64 bit words. A sum or a product that is none stops the process. -/

namespace ScalarJit

/-- Why the process stops before it has an answer. -/
inductive Panic where
  | overflow
  | outOfBounds
  | stackOverflow
deriving DecidableEq, Repr, Inhabited

def Panic.message : Panic → String
  | .overflow => "arithmetic overflow"
  | .outOfBounds => "index out of bounds"
  | .stackOverflow => "stack overflow"

def wordMax : Nat := 0xffffffffffffffff

def checkedAdd (a b : Nat) : Except Panic Nat :=
  if b ≤ wordMax - a then .ok (a + b) else .error .overflow

def checkedMul (a b : Nat) : Except Panic Nat :=
  if a * b ≤ wordMax then .ok (a * b) else .error .overflow

theorem checkedAdd_zero (a : Nat) : checkedAdd a 0 = .ok a := by
  simp [checkedAdd]

theorem checkedAdd_of_le {a b : Nat} (h : a + b ≤ wordMax) : checkedAdd a b = .ok (a + b) := by
  rw [checkedAdd, if_pos (by omega)]

theorem checkedAdd_of_lt {a b : Nat} (hb : 0 < b) (h : wordMax < a + b) :
    checkedAdd a b = .error .overflow := by
  rw [checkedAdd, if_neg (by omega)]

theorem checkedAdd_eq_ok {a b n : Nat} (hb : 0 < b) :
    checkedAdd a b = .ok n ↔ a + b ≤ wordMax ∧ a + b = n := by
  rw [checkedAdd]
  split
  · rw [Except.ok.injEq]
    omega
  · simp
    omega

theorem checkedMul_eq_ok {a b n : Nat} : checkedMul a b = .ok n ↔ a * b ≤ wordMax ∧ a * b = n := by
  rw [checkedMul]
  split
  · rw [Except.ok.injEq]
    omega
  · simp
    omega

theorem checkedMul_of_le {a b : Nat} (h : a * b ≤ wordMax) : checkedMul a b = .ok (a * b) := by
  rw [checkedMul, if_pos h]

/-- The smallest multiple of `unit` that is not smaller. -/
def roundUp (unit n : Nat) : Nat := (n + unit - 1) / unit * unit

theorem le_roundUp {unit : Nat} (h : 0 < unit) (n : Nat) : n ≤ roundUp unit n := by
  have hdiv := Nat.div_add_mod (n + unit - 1) unit
  have hmod := Nat.mod_lt (n + unit - 1) h
  have hcomm := Nat.mul_comm unit ((n + unit - 1) / unit)
  rw [roundUp]
  omega

end ScalarJit
