import ScalarJit.X86.Decode

/-! # Instructions are read back as they were written

The decoder undoes the encoder on every instruction, whatever bytes follow. -/

namespace ScalarJit.X86

/-! ### Parts of an encoding -/

def Rex.of (wide : Bool) (reg rm : Fin 16) : Rex := ⟨wide, 8 ≤ reg.val, 8 ≤ rm.val⟩

theorem toNat_rexByte (wide : Bool) (reg rm : Fin 16) :
    (rexByte wide reg rm).toNat = 0x40 + 8 * wide.toNat + 4 * (reg.val / 8) + rm.val / 8 := by
  have hw : wide.toNat ≤ 1 := Bool.toNat_le wide
  have hreg : reg.val / 8 ≤ 1 := by omega
  have hrm : rm.val / 8 ≤ 1 := by omega
  simp only [rexByte, Nat.toUInt8, UInt8.toNat_ofNat']
  omega

theorem Rex.ofByte_rexByte (wide : Bool) (reg rm : Fin 16) :
    Rex.ofByte (rexByte wide reg rm) = Rex.of wide reg rm := by
  have hbyte := toNat_rexByte wide reg rm
  have hreg := reg.isLt
  have hrm := rm.isLt
  simp only [Rex.ofByte, Rex.of, hbyte, Rex.mk.injEq]
  refine ⟨?_, ?_, ?_⟩
  · cases wide <;> simp <;> omega
  · simp only [decide_eq_decide]
    cases wide <;> simp <;> omega
  · simp only [decide_eq_decide]
    cases wide <;> simp <;> omega

theorem Rex.split_rexByte (wide : Bool) (reg rm : Fin 16) (rest : List UInt8) :
    Rex.split (rexByte wide reg rm :: rest) = (Rex.of wide reg rm, rest) := by
  have hw : wide.toNat ≤ 1 := Bool.toNat_le wide
  have hbyte : (rexByte wide reg rm).toNat / 16 = 4 := by
    rw [toNat_rexByte]
    omega
  rw [Rex.split, if_pos hbyte, Rex.ofByte_rexByte]

/-- The byte is found if it is there, and missed only where it says nothing. -/
theorem Rex.split_rex (wide : Bool) (reg rm : Fin 16) {b : UInt8} (rest : List UInt8)
    (hb : b.toNat / 16 ≠ 4) :
    Rex.split (rex wide reg rm ++ b :: rest) = (Rex.of wide reg rm, b :: rest) := by
  unfold rex
  split
  · next hnone =>
    obtain ⟨hw, hreg, hrm⟩ := hnone
    have hplain : Rex.of wide reg rm = ⟨false, false, false⟩ := by
      simp [Rex.of, hw]
      omega
    rw [List.nil_append, Rex.split, if_neg hb, hplain]
  · exact Rex.split_rexByte wide reg rm _

theorem toNat_modRM (mode : Nat) (hmode : mode < 4) (reg rm : Nat) :
    (modRM mode reg rm).toNat = 64 * mode + 8 * (reg % 8) + rm % 8 := by
  simp only [modRM, Nat.toUInt8, UInt8.toNat_ofNat']
  omega

theorem registerNumber_of (r : Fin 16) (low : Nat) (hlow : low % 8 = r.val % 8) :
    registerNumber (decide (8 ≤ r.val)) low = r := by
  have hr := r.isLt
  apply Fin.ext
  by_cases high : 8 ≤ r.val
  · simp only [registerNumber, high, decide_true, Bool.toNat_true]
    omega
  · simp only [registerNumber, high, decide_false, Bool.toNat_false]
    omega

theorem Operands.ofByte_modRM (wide : Bool) (mode : Nat) (hmode : mode < 4) (reg rm : Fin 16) :
    Operands.ofByte (Rex.of wide reg rm) (modRM mode reg.val rm.val) = ⟨mode, reg, rm⟩ := by
  have hbyte := toNat_modRM mode hmode reg.val rm.val
  simp only [Operands.ofByte, Rex.of, Operands.mk.injEq]
  refine ⟨?_, ?_, ?_⟩
  · omega
  · exact registerNumber_of reg _ (by omega)
  · exact registerNumber_of rm _ (by omega)

theorem takeInt32_ofInt32 (i : Int32) (rest : List UInt8) :
    takeInt32 (Bytes.ofInt32 i ++ rest) = some (i, rest) := by
  have hvalue := Bytes.toInt32_ofInt32 i
  simp only [Bytes.ofInt32, Bytes.littleEndian, List.cons_append, List.nil_append] at hvalue ⊢
  rw [takeInt32, hvalue]

theorem takeWord_ofWord (w : UInt64) (rest : List UInt8) :
    takeWord (Bytes.ofWord w ++ rest) = some (w, rest) := by
  have hlen := Bytes.length_ofWord w
  rw [takeWord, if_pos (by simp), List.take_left' hlen, List.drop_left' hlen, Bytes.toWord_ofWord]

theorem toInt32_low_byte {disp : Int32} (hlow : -128 ≤ disp.toInt) (hhigh : disp.toInt ≤ 127) :
    disp.toUInt32.toUInt8.toInt8.toInt32 = disp := by
  have hnat : (disp.toBitVec.toNat : Int) = disp.toInt % 4294967296 := by
    have hmod := BitVec.toInt_eq_toNat_bmod disp.toBitVec
    have hlt : disp.toBitVec.toNat < 4294967296 := disp.toBitVec.isLt
    show _ = disp.toBitVec.toInt % 4294967296
    rw [hmod]
    simp only [Int.bmod, Nat.reducePow]
    omega
  apply Int32.toInt.inj
  show ((disp.toBitVec.setWidth 8).signExtend 32).toInt = disp.toInt
  rw [BitVec.toInt_signExtend_of_le (by decide), BitVec.toInt_setWidth, hnat]
  simp only [Int.bmod]
  omega

/-! ### Memory operands -/

theorem mode_lt (size : DispSize) : size.mode < 3 := by
  cases size <;> decide

theorem takeDisp_bytes (m : Mem) (rest : List UInt8) :
    takeDisp (DispSize.of m).mode ((DispSize.of m).bytes m.disp ++ rest) = some (m.disp, rest) := by
  unfold DispSize.of
  split
  · next hnone => simp [DispSize.mode, DispSize.bytes, takeDisp, hnone.1]
  split
  · next hbyte =>
    have hlow := toInt32_low_byte hbyte.1 hbyte.2
    simp [DispSize.mode, DispSize.bytes, takeDisp, hlow]
  · simp [DispSize.mode, DispSize.bytes, takeDisp, takeInt32_ofInt32]

/-- The form without a displacement is never used where it means something else. -/
theorem mode_of_ne (m : Mem) : ¬((DispSize.of m).mode = 0 ∧ m.base.number.val % 8 = 5) := by
  unfold DispSize.of
  split
  · next hnone => exact fun h => hnone.2 h.2
  split <;> simp [DispSize.mode]

theorem takeMemory_pieces (reg : Fin 16) (m : Mem) (rest : List UInt8) :
    takeMemory ⟨(DispSize.of m).mode, reg, m.base.number⟩
      ((if m.base.number.val % 8 = 4 then [0x24] else []) ++
        ((DispSize.of m).bytes m.disp ++ rest)) = some (m, rest) := by
  have hmode := mode_of_ne m
  have hdisp := takeDisp_bytes m rest
  unfold takeMemory
  by_cases hsp : m.base.number.val % 8 = 4
  · simp [hsp, hdisp]
  · simp [hmode, hsp, hdisp]

theorem flatten_memoryPieces (reg : Fin 16) (m : Mem) :
    (memoryPieces reg m).flatten = modRM (DispSize.of m).mode reg.val m.base.number.val ::
      ((if m.base.number.val % 8 = 4 then [0x24] else []) ++ (DispSize.of m).bytes m.disp) := by
  simp [memoryPieces]

/-! ### Vector instructions -/

theorem decodeVector_sse (op : SseOp) (dst src : Xmm) (rest : List UInt8) :
    decodeVector op.mandatory (rex false dst.number src.number ++
      ([0x0f, op.opcode] ++ ([modRM 3 dst.number.val src.number.val] ++ rest))) =
        some (.sse op dst src, rest) := by
  have hsplit := Rex.split_rex false dst.number src.number
    (b := 0x0f) (op.opcode :: modRM 3 dst.number.val src.number.val :: rest) (by decide)
  have hoperands := Operands.ofByte_modRM false 3 (by decide) dst.number src.number
  have hop := SseOp.ofBytes?_bytes op
  unfold decodeVector
  simp only [List.cons_append, List.nil_append, hsplit, hoperands]
  cases op <;> simp_all [SseOp.mandatory, SseOp.opcode]

theorem decodeVector_sseLoad (op : SseOp) (dst : Xmm) (src : Mem) (rest : List UInt8) :
    decodeVector op.mandatory (rex false dst.number src.base.number ++
      ([0x0f, op.opcode] ++ ((memoryPieces dst.number src).flatten ++ rest))) =
        some (.sseLoad op dst src, rest) := by
  have hsplit := Rex.split_rex false dst.number src.base.number (b := 0x0f)
    (op.opcode :: ((memoryPieces dst.number src).flatten ++ rest)) (by decide)
  have hlt := mode_lt (DispSize.of src)
  have hoperands := Operands.ofByte_modRM false _ (Nat.lt_trans hlt (by decide)) dst.number
    src.base.number
  have hmem := takeMemory_pieces dst.number src rest
  have hmode : (DispSize.of src).mode ≠ 3 := Nat.ne_of_lt hlt
  have hop := SseOp.ofBytes?_bytes op
  unfold decodeVector
  rw [flatten_memoryPieces] at hsplit ⊢
  simp only [List.cons_append, List.nil_append, List.append_assoc] at hsplit ⊢
  simp only [hsplit, hoperands]
  cases op <;> simp_all [SseOp.mandatory, SseOp.opcode]

theorem decodeVector_store (dst : Mem) (src : Xmm) (rest : List UInt8) :
    decodeVector 0xf2 (rex false src.number dst.base.number ++
      ([0x0f, 0x11] ++ ((memoryPieces src.number dst).flatten ++ rest))) =
        some (.store dst src, rest) := by
  have hsplit := Rex.split_rex false src.number dst.base.number (b := 0x0f)
    (0x11 :: ((memoryPieces src.number dst).flatten ++ rest)) (by decide)
  have hoperands := Operands.ofByte_modRM false _ (Nat.lt_trans (mode_lt (DispSize.of dst))
    (by decide)) src.number dst.base.number
  have hmem := takeMemory_pieces src.number dst rest
  unfold decodeVector
  rw [flatten_memoryPieces] at hsplit ⊢
  simp only [List.cons_append, List.nil_append, List.append_assoc] at hsplit ⊢
  simp [hsplit, hoperands, hmem]

theorem decodeVector_compare (dst src : Xmm) (predicate : Predicate) (rest : List UInt8) :
    decodeVector 0xf2 (rex false dst.number src.number ++
      ([0x0f, 0xc2, modRM 3 dst.number.val src.number.val, predicate.byte] ++ rest)) =
        some (.compare dst src predicate, rest) := by
  have hsplit := Rex.split_rex false dst.number src.number (b := 0x0f)
    (0xc2 :: modRM 3 dst.number.val src.number.val :: predicate.byte :: rest) (by decide)
  have hoperands := Operands.ofByte_modRM false 3 (by decide) dst.number src.number
  unfold decodeVector
  simp only [List.cons_append, List.nil_append, hsplit, hoperands]
  cases predicate <;> simp [Predicate.byte]

/-! ### General instructions -/

theorem decodeWide_moveImm (dst : Gpr) (imm : UInt64) (rest : List UInt8) :
    decodeWide (Rex.of true noRegister dst.number)
      ((0xb8 + dst.number.val % 8).toUInt8 :: (Bytes.ofWord imm ++ rest)) =
        some (.moveImm dst imm, rest) := by
  have hbyte : ((0xb8 + dst.number.val % 8).toUInt8).toNat = 0xb8 + dst.number.val % 8 := by
    simp only [Nat.toUInt8, UInt8.toNat_ofNat']
    omega
  have hreg := registerNumber_of dst.number ((0xb8 + dst.number.val % 8).toUInt8).toNat (by omega)
  have hword := takeWord_ofWord imm rest
  generalize (0xb8 + dst.number.val % 8).toUInt8 = opcode at hbyte hreg ⊢
  unfold decodeWide
  split
  · next hcons =>
    rw [(List.cons.inj hcons).1, show (0x81 : UInt8).toNat = 0x81 from rfl] at hbyte
    omega
  · next hcons =>
    rw [(List.cons.inj hcons).1, show (0x89 : UInt8).toNat = 0x89 from rfl] at hbyte
    omega
  · next hcons =>
    obtain ⟨rfl, rfl⟩ := List.cons.inj hcons
    have hlow : opcode.toNat / 8 = 0xb8 / 8 := by omega
    simp only [hlow, if_true, hword]
    rw [Rex.of, hreg]
    rfl
  · next hnil => cases hnil

theorem decodeWide_move (dst src : Gpr) (rest : List UInt8) :
    decodeWide (Rex.of true src.number dst.number)
      (0x89 :: modRM 3 src.number.val dst.number.val :: rest) = some (.move dst src, rest) := by
  have hoperands := Operands.ofByte_modRM true 3 (by decide) src.number dst.number
  simp [decodeWide, hoperands]

theorem decodePlain_opcode (r : Rex) {opcode : UInt8} (rest : List UInt8)
    (hop : opcode.toNat / 8 = 0x50 / 8 ∨ opcode.toNat / 8 = 0x58 / 8) :
    decodePlain r (opcode :: rest) =
      if opcode.toNat / 8 = 0x50 / 8 then
        some (.push ⟨registerNumber r.rm opcode.toNat⟩, rest)
      else some (.pop ⟨registerNumber r.rm opcode.toNat⟩, rest) := by
  unfold decodePlain
  split
  · next hcons =>
    rw [(List.cons.inj hcons).1, show (0xc3 : UInt8).toNat = 0xc3 from rfl] at hop
    omega
  · next hcons =>
    rw [(List.cons.inj hcons).1, show (0xe9 : UInt8).toNat = 0xe9 from rfl] at hop
    omega
  · next hcons =>
    rw [(List.cons.inj hcons).1, show (0x0f : UInt8).toNat = 0x0f from rfl] at hop
    omega
  · next hcons =>
    rw [(List.cons.inj hcons).1, show (0xff : UInt8).toNat = 0xff from rfl] at hop
    omega
  · next hcons =>
    obtain ⟨rfl, rfl⟩ := List.cons.inj hcons
    split
    · rfl
    · next hpush => rw [if_pos (hop.resolve_left hpush)]
  · next hnil => cases hnil

theorem decodePlain_push (src : Gpr) (rest : List UInt8) :
    decodePlain (Rex.of false noRegister src.number) ((0x50 + src.number.val % 8).toUInt8 :: rest) =
      some (.push src, rest) := by
  have hbyte : ((0x50 + src.number.val % 8).toUInt8).toNat = 0x50 + src.number.val % 8 := by
    simp only [Nat.toUInt8, UInt8.toNat_ofNat']
    omega
  have hreg := registerNumber_of src.number ((0x50 + src.number.val % 8).toUInt8).toNat (by omega)
  rw [decodePlain_opcode _ _ (by omega), if_pos (by omega), Rex.of, hreg]

theorem decodePlain_pop (dst : Gpr) (rest : List UInt8) :
    decodePlain (Rex.of false noRegister dst.number) ((0x58 + dst.number.val % 8).toUInt8 :: rest) =
      some (.pop dst, rest) := by
  have hbyte : ((0x58 + dst.number.val % 8).toUInt8).toNat = 0x58 + dst.number.val % 8 := by
    simp only [Nat.toUInt8, UInt8.toNat_ofNat']
    omega
  have hreg := registerNumber_of dst.number ((0x58 + dst.number.val % 8).toUInt8).toNat (by omega)
  rw [decodePlain_opcode _ _ (by omega), if_neg (by omega), Rex.of, hreg]

theorem decodePlain_call (target : Gpr) (rest : List UInt8) :
    decodePlain (Rex.of false noRegister target.number)
      (0xff :: modRM 3 2 target.number.val :: rest) = some (.call target, rest) := by
  have hbyte := toNat_modRM 3 (by decide) 2 target.number.val
  have hlow : (modRM 3 2 target.number.val).toNat / 8 = 0xd0 / 8 := by omega
  have hreg := registerNumber_of target.number (modRM 3 2 target.number.val).toNat (by omega)
  simp [decodePlain, hlow, Rex.of, hreg]

/-- Without a mandatory byte in front, the byte for high registers decides how to go on. -/
theorem decode_rex (wide : Bool) (reg rm : Fin 16) {b : UInt8} (rest : List UInt8)
    (hrex : b.toNat / 16 ≠ 4) (hb : b.toNat ≠ 0xf2) (hb' : b.toNat ≠ 0x66) :
    decode (rex wide reg rm ++ b :: rest) =
      if wide then decodeWide (Rex.of wide reg rm) (b :: rest)
      else decodePlain (Rex.of wide reg rm) (b :: rest) := by
  have hsplit := Rex.split_rex wide reg rm rest hrex
  have hfirst : ∀ tail, rex wide reg rm ++ b :: rest ≠ 0xf2 :: tail ∧
      rex wide reg rm ++ b :: rest ≠ 0x66 :: tail := by
    have hw : wide.toNat ≤ 1 := Bool.toNat_le wide
    have hbyte := toNat_rexByte wide reg rm
    intro tail
    unfold rex
    split
    · refine ⟨fun h => hb ?_, fun h => hb' ?_⟩
      · rw [(List.cons.inj h).1]
        rfl
      · rw [(List.cons.inj h).1]
        rfl
    · refine ⟨fun h => ?_, fun h => ?_⟩
      · rw [(List.cons.inj h).1, show (0xf2 : UInt8).toNat = 0xf2 from rfl] at hbyte
        omega
      · rw [(List.cons.inj h).1, show (0x66 : UInt8).toNat = 0x66 from rfl] at hbyte
        omega
  unfold decode
  split
  · next h => exact absurd h (hfirst _).1
  · next h => exact absurd h (hfirst _).2
  · rw [hsplit]
    rfl

theorem decode_mandatory (op : SseOp) (rest : List UInt8) :
    decode (op.mandatory :: rest) = decodeVector op.mandatory rest := by
  cases op <;> rfl

/-! ### All instructions -/

/-- An instruction is read back from its bytes, whatever follows them. -/
theorem decode_encode_append (i : Instr) (rest : List UInt8) :
    decode (i.encode ++ rest) = some (i, rest) := by
  -- The first byte behind the prefixes tells the groups apart, and the register fields the rest.
  cases i with
  | sse op dst src =>
    have h := decodeVector_sse op dst src rest
    simpa [Instr.encode, Instr.pieces, decode_mandatory] using h
  | sseLoad op dst src =>
    have h := decodeVector_sseLoad op dst src rest
    simpa [Instr.encode, Instr.pieces, decode_mandatory] using h
  | store dst src =>
    have h := decodeVector_store dst src rest
    simpa [Instr.encode, Instr.pieces, decode] using h
  | compare dst src predicate =>
    have h := decodeVector_compare dst src predicate rest
    simpa [Instr.encode, Instr.pieces, decode] using h
  | moveImm dst imm =>
    have hbyte : ((0xb8 + dst.number.val % 8).toUInt8).toNat = 0xb8 + dst.number.val % 8 := by
      simp only [Nat.toUInt8, UInt8.toNat_ofNat']
      omega
    have hrex := decode_rex true noRegister dst.number (Bytes.ofWord imm ++ rest)
      (b := (0xb8 + dst.number.val % 8).toUInt8) (by omega) (by omega) (by omega)
    rw [if_pos rfl, decodeWide_moveImm] at hrex
    simpa [Instr.encode, Instr.pieces] using hrex
  | move dst src =>
    have hrex := decode_rex true src.number dst.number
      (modRM 3 src.number.val dst.number.val :: rest) (b := 0x89) (by decide) (by decide) (by decide)
    rw [if_pos rfl, decodeWide_move] at hrex
    simpa [Instr.encode, Instr.pieces] using hrex
  | call target =>
    have hrex := decode_rex false noRegister target.number
      (modRM 3 2 target.number.val :: rest) (b := 0xff) (by decide) (by decide) (by decide)
    rw [if_neg (by decide), decodePlain_call] at hrex
    simpa [Instr.encode, Instr.pieces] using hrex
  | push src =>
    have hbyte : ((0x50 + src.number.val % 8).toUInt8).toNat = 0x50 + src.number.val % 8 := by
      simp only [Nat.toUInt8, UInt8.toNat_ofNat']
      omega
    have hrex := decode_rex false noRegister src.number rest
      (b := (0x50 + src.number.val % 8).toUInt8) (by omega) (by omega) (by omega)
    rw [if_neg (by decide), decodePlain_push] at hrex
    simpa [Instr.encode, Instr.pieces] using hrex
  | pop dst =>
    have hbyte : ((0x58 + dst.number.val % 8).toUInt8).toNat = 0x58 + dst.number.val % 8 := by
      simp only [Nat.toUInt8, UInt8.toNat_ofNat']
      omega
    have hrex := decode_rex false noRegister dst.number rest
      (b := (0x58 + dst.number.val % 8).toUInt8) (by omega) (by omega) (by omega)
    rw [if_neg (by decide), decodePlain_pop] at hrex
    simpa [Instr.encode, Instr.pieces] using hrex
  | reserve bytes =>
    have himm := takeInt32_ofInt32 bytes rest
    simp [Instr.encode, Instr.pieces, decode, Rex.split, Rex.ofByte, decodeWide, himm]
  | free bytes =>
    have himm := takeInt32_ofInt32 bytes rest
    have hne : modRM 3 0 Gpr.rsp.number.val ≠ modRM 3 5 Gpr.rsp.number.val := by decide
    simp [Instr.encode, Instr.pieces, decode, Rex.split, Rex.ofByte, decodeWide, himm, hne]
  | ret => simp [Instr.encode, Instr.pieces, decode, Rex.split, decodePlain]
  | jumpIfZero offset =>
    have himm := takeInt32_ofInt32 offset rest
    simp [Instr.encode, Instr.pieces, decode, Rex.split, decodePlain, himm]
  | jump offset =>
    have himm := takeInt32_ofInt32 offset rest
    simp [Instr.encode, Instr.pieces, decode, Rex.split, decodePlain, himm]

theorem length_rex_le (wide : Bool) (reg rm : Fin 16) : (rex wide reg rm).length ≤ 1 := by
  unfold rex
  split <;> simp

theorem length_memoryPieces_le (reg : Fin 16) (m : Mem) :
    (memoryPieces reg m).flatten.length ≤ 6 := by
  have hdisp : ((DispSize.of m).bytes m.disp).length ≤ 4 := by
    cases DispSize.of m <;> simp [DispSize.bytes]
  have hsib : (if m.base.number.val % 8 = 4 then [(0x24 : UInt8)] else []).length ≤ 1 := by
    split <;> simp
  rw [flatten_memoryPieces, List.length_cons, List.length_append]
  omega

theorem length_encode_le (i : Instr) : i.encode.length ≤ 10 := by
  cases i with
  | sse op dst src =>
    have hrex := length_rex_le false dst.number src.number
    simp [Instr.encode, Instr.pieces]
    omega
  | sseLoad op dst src =>
    have hrex := length_rex_le false dst.number src.base.number
    have hmem := length_memoryPieces_le dst.number src
    rw [List.length_flatten] at hmem
    simp [Instr.encode, Instr.pieces]
    omega
  | store dst src =>
    have hrex := length_rex_le false src.number dst.base.number
    have hmem := length_memoryPieces_le src.number dst
    rw [List.length_flatten] at hmem
    simp [Instr.encode, Instr.pieces]
    omega
  | compare dst src predicate =>
    have hrex := length_rex_le false dst.number src.number
    simp [Instr.encode, Instr.pieces]
    omega
  | moveImm dst imm =>
    have hrex := length_rex_le true noRegister dst.number
    simp [Instr.encode, Instr.pieces]
    omega
  | move dst src =>
    have hrex := length_rex_le true src.number dst.number
    simp [Instr.encode, Instr.pieces]
    omega
  | call target =>
    have hrex := length_rex_le false noRegister target.number
    simp [Instr.encode, Instr.pieces]
    omega
  | push src =>
    have hrex := length_rex_le false noRegister src.number
    simp [Instr.encode, Instr.pieces]
    omega
  | pop dst =>
    have hrex := length_rex_le false noRegister dst.number
    simp [Instr.encode, Instr.pieces]
    omega
  | reserve bytes => simp [Instr.encode, Instr.pieces]
  | free bytes => simp [Instr.encode, Instr.pieces]
  | ret => simp [Instr.encode, Instr.pieces]
  | jumpIfZero offset => simp [Instr.encode, Instr.pieces]
  | jump offset => simp [Instr.encode, Instr.pieces]

theorem encode_ne_nil (i : Instr) : i.encode ≠ [] := by
  intro hnil
  have h := decode_encode_append i []
  rw [hnil] at h
  cases h

end ScalarJit.X86
