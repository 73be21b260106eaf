/-! # Little-endian words

Immediates, displacements, pool entries and linked addresses are stored least significant byte
first. -/

namespace ScalarJit

namespace Bytes

def littleEndian : Nat → Nat → List UInt8
  | 0, _ => []
  | count + 1, n => (n % 256).toUInt8 :: littleEndian count (n / 256)

def value : List UInt8 → Nat
  | [] => 0
  | b :: rest => b.toNat + 256 * value rest

def ofWord (w : UInt64) : List UInt8 := littleEndian 8 w.toNat

def ofInt32 (i : Int32) : List UInt8 := littleEndian 4 i.toUInt32.toNat

def toWord (bytes : List UInt8) : UInt64 := (value bytes).toUInt64

def toInt32 (bytes : List UInt8) : Int32 := (value bytes).toUInt32.toInt32

/-- Replaces bytes of a buffer from a place on; what would lie past the end is dropped. -/
def overwrite (buffer : Array UInt8) (start : Nat) : List UInt8 → Array UInt8
  | [] => buffer
  | b :: rest => overwrite (buffer.setIfInBounds start b) (start + 1) rest

@[simp]
theorem length_littleEndian (count n : Nat) : (littleEndian count n).length = count := by
  induction count generalizing n with
  | zero => rfl
  | succ count ih => simp [littleEndian, ih]

theorem value_littleEndian (count n : Nat) : value (littleEndian count n) = n % Nat.pow 256 count := by
  induction count generalizing n with
  | zero => simp [littleEndian, value, Nat.mod_one]
  | succ count ih =>
    have low : (n % 256).toUInt8.toNat = n % 256 := by
      simp [Nat.toUInt8, UInt8.toNat_ofNat']
    rw [littleEndian, value, ih, low, Nat.pow_eq, Nat.pow_eq, Nat.pow_succ', Nat.mod_mul]

@[simp]
theorem length_ofWord (w : UInt64) : (ofWord w).length = 8 := length_littleEndian 8 _

@[simp]
theorem length_ofInt32 (i : Int32) : (ofInt32 i).length = 4 := length_littleEndian 4 _

theorem toWord_ofWord (w : UInt64) : toWord (ofWord w) = w := by
  have h := w.toNat_lt
  rw [toWord, ofWord, value_littleEndian, Nat.mod_eq_of_lt (by simpa using h)]
  exact UInt64.ofNat_toNat

theorem toInt32_ofInt32 (i : Int32) : toInt32 (ofInt32 i) = i := by
  have h := i.toUInt32.toNat_lt
  rw [toInt32, ofInt32, value_littleEndian, Nat.mod_eq_of_lt (by simpa using h)]
  simp [Nat.toUInt32]

@[simp]
theorem size_overwrite (buffer : Array UInt8) (start : Nat) (bytes : List UInt8) :
    (overwrite buffer start bytes).size = buffer.size := by
  induction bytes generalizing buffer start with
  | nil => rfl
  | cons b rest ih => simp [overwrite, ih]

end Bytes
end ScalarJit
