import ScalarJit.Proofs.Outcome
import ScalarJit.Proofs.X86.Decode
import ScalarJit.X86.Assembler

/-! # Reading back what was assembled

Instructions are asked for one after another. If all of them fit into the buffer, its bytes have one
reading, and that is the instructions that were asked for; the places that were answered on the way
are those of the operands that they stand for. -/

namespace ScalarJit.X86

/-! ### Sequences of instructions -/

def encodeAll (code : List Instr) : List UInt8 := code.flatMap (·.encode)

@[simp]
theorem encodeAll_nil : encodeAll [] = [] := rfl

@[simp]
theorem encodeAll_cons (i : Instr) (code : List Instr) :
    encodeAll (i :: code) = i.encode ++ encodeAll code := rfl

@[simp]
theorem encodeAll_append (code more : List Instr) :
    encodeAll (code ++ more) = encodeAll code ++ encodeAll more := List.flatMap_append

/-- Every instruction takes at least one byte, so there are enough steps. -/
theorem decodeAllWithin_encodeAll {bound : Nat} (code : List Instr)
    (hbound : (encodeAll code).length ≤ bound) :
    decodeAllWithin bound (encodeAll code) = some code := by
  induction code generalizing bound with
  | nil => cases bound <;> rfl
  | cons i code ih =>
    have hpos : 0 < i.encode.length := List.length_pos_iff.2 (encode_ne_nil i)
    rw [encodeAll_cons, List.length_append] at hbound
    obtain ⟨b, rest, hb⟩ := List.exists_cons_of_ne_nil (encode_ne_nil i)
    have hdecode := decode_encode_append i (encodeAll code)
    cases bound with
    | zero => omega
    | succ bound =>
      have hrest : decodeAllWithin bound (encodeAll code) = some code := ih (by omega)
      rw [encodeAll_cons, hb, List.cons_append, decodeAllWithin, ← List.cons_append, ← hb, hdecode]
      · simp only [Option.bind_eq_bind, Option.bind_some, hrest]
        rfl
      · exact List.cons_ne_nil _ _

theorem decodeAll_encodeAll (code : List Instr) : decodeAll (encodeAll code) = some code :=
  decodeAllWithin_encodeAll code (Nat.le_refl _)

/-! ### Requests -/

inductive Request where
  | instr (i : Instr)
  | moveImm (dst : Gpr) (imm : UInt64)
  | reserveStack (bytes : Nat)
  | freeStack (bytes : Nat)
  | jumpIfZero
  | jump
deriving DecidableEq, Repr, Inhabited

inductive Answer where
  | done
  | immediate (offset : Nat)
  | displacement (fixup : Fixup)
deriving DecidableEq, Repr, Inhabited

namespace Request

/-- The instruction that is asked for. Branches start out with no displacement. -/
def meaning : Request → Instr
  | .instr i => i
  | .moveImm dst imm => .moveImm dst imm
  | .reserveStack bytes => .reserve (Int32.ofNat bytes)
  | .freeStack bytes => .free (Int32.ofNat bytes)
  | .jumpIfZero => .jumpIfZero 0
  | .jump => .jump 0

/-- Adjustments of the stack pointer have to be signed words. -/
def Encodable : Request → Prop
  | .reserveStack bytes | .freeStack bytes => bytes < 0x80000000
  | _ => True

def run : Request → AsmM Answer
  | .instr i => do
    Assembler.emit i
    return .done
  | .moveImm dst imm => return .immediate (← Assembler.moveImm dst imm)
  | .reserveStack bytes => do
    Assembler.reserveStack bytes
    return .done
  | .freeStack bytes => do
    Assembler.freeStack bytes
    return .done
  | .jumpIfZero => return .displacement (← Assembler.jumpIfZero)
  | .jump => return .displacement (← Assembler.jump)

def answerAt (position : Nat) : Request → Answer
  | .moveImm .. => .immediate (position - 8)
  | .jumpIfZero | .jump => .displacement ⟨position - 4⟩
  | _ => .done

end Request

def assemble : List Request → AsmM (List Answer)
  | [] => return []
  | request :: rest => do
    let answer ← request.run
    let answers ← assemble rest
    return answer :: answers

def meanings (requests : List Request) : List Instr := requests.map (·.meaning)

def endOf (code : List Instr) (index : Nat) : Nat := (encodeAll (code.take (index + 1))).length

/-! ### Steps -/

structure Adds (a b : Assembler) (bytes : List UInt8) : Prop where
  code : b.code.toList = a.code.toList ++ bytes
  limit : b.limit = a.limit
  room : a.code.size + bytes.length ≤ a.limit

theorem Adds.size {a b : Assembler} {bytes : List UInt8} (h : Adds a b bytes) :
    b.code.size = a.code.size + bytes.length := by
  have hlen := congrArg List.length h.code
  rw [List.length_append, Array.length_toList, Array.length_toList] at hlen
  exact hlen

theorem Adds.trans {a b c : Assembler} {bytes more : List UInt8} (h : Adds a b bytes)
    (h' : Adds b c more) : Adds a c (bytes ++ more) := by
  have hsize := h.size
  have hroom := h'.room
  have hlimit := h.limit
  refine ⟨?_, h'.limit.trans h.limit, ?_⟩
  · rw [h'.code, h.code, List.append_assoc]
  · rw [List.length_append]
    omega

theorem ends_append_adds {bytes : List UInt8} {a : Assembler} :
    Ends (Assembler.append bytes) a (fun _ b => Adds a b bytes)
      fun _ _ => a.limit < a.code.size + bytes.length := by
  unfold Ends Assembler.append
  by_cases hroom : a.limit < a.code.size + bytes.length
  · simp only [hroom, if_true]
  · simp only [hroom, if_false]
    exact ⟨by simp, rfl, Nat.le_of_not_lt hroom⟩

theorem ends_appendAll_adds {pieces : List (List UInt8)} {a : Assembler}
    (ha : a.code.size ≤ a.limit) :
    Ends (Assembler.appendAll pieces) a (fun _ b => Adds a b pieces.flatten)
      fun _ _ => a.limit < a.code.size + pieces.flatten.length := by
  induction pieces generalizing a with
  | nil => exact ⟨by simp, rfl, by simpa using ha⟩
  | cons piece rest ih =>
    rw [Assembler.appendAll, List.flatten_cons, List.length_append]
    refine (ends_bind _ _).2 (ends_append_adds.mono ?_ fun _ _ h => by omega)
    intro _ b hb
    have hsize := hb.size
    have hroom := hb.room
    have hlimit := hb.limit
    refine (ih (by omega)).mono ?_ fun _ _ h => by omega
    exact fun _ c hc => hb.trans hc

theorem ends_emit {i : Instr} {a : Assembler} (ha : a.code.size ≤ a.limit) :
    Ends (Assembler.emit i) a (fun _ b => Adds a b i.encode)
      fun _ _ => a.limit < a.code.size + i.encode.length := ends_appendAll_adds ha

theorem ends_adjust {bytes : Nat} {make : Int32 → Instr} {a : Assembler}
    (ha : a.code.size ≤ a.limit) :
    Ends (do Assembler.emit (make (← Assembler.adjustment bytes))) a
      (fun _ b => bytes < 0x80000000 ∧ Adds a b (make (Int32.ofNat bytes)).encode)
      fun _ _ => bytes < 0x80000000 →
        a.limit < a.code.size + (make (Int32.ofNat bytes)).encode.length := by
  rw [ends_bind, Assembler.adjustment]
  by_cases hbytes : bytes < 0x80000000
  · rw [if_pos hbytes, ends_pure]
    exact (ends_emit ha).mono (fun _ _ hb => ⟨hbytes, hb⟩) fun _ _ h _ => h
  · rw [if_neg hbytes, ends_throw]
    exact fun h => absurd h hbytes

theorem ends_request {request : Request} {a : Assembler} (ha : a.code.size ≤ a.limit) :
    Ends request.run a
      (fun answer b => request.Encodable ∧ Adds a b request.meaning.encode ∧
        answer = request.answerAt b.code.size)
      fun _ _ => request.Encodable →
        a.limit < a.code.size + request.meaning.encode.length := by
  cases request with
  | instr i =>
    refine (ends_bind _ _).2 ((ends_emit ha).mono ?_ fun _ _ h _ => h)
    exact fun _ b hb => ⟨trivial, hb, rfl⟩
  | moveImm dst imm =>
    refine (ends_bind _ _).2 ((ends_bind _ _).2 ((ends_emit ha).mono ?_ fun _ _ h _ => h))
    exact fun _ b hb => ⟨trivial, hb, rfl⟩
  | reserveStack bytes =>
    refine (ends_bind _ _).2 ((ends_adjust ha).mono ?_ fun _ _ h => h)
    exact fun _ b hb => ⟨hb.1, hb.2, rfl⟩
  | freeStack bytes =>
    refine (ends_bind _ _).2 ((ends_adjust ha).mono ?_ fun _ _ h => h)
    exact fun _ b hb => ⟨hb.1, hb.2, rfl⟩
  | jumpIfZero =>
    refine (ends_bind _ _).2 ((ends_bind _ _).2 ((ends_emit ha).mono ?_ fun _ _ h _ => h))
    exact fun _ b hb => ⟨trivial, hb, rfl⟩
  | jump =>
    refine (ends_bind _ _).2 ((ends_bind _ _).2 ((ends_emit ha).mono ?_ fun _ _ h _ => h))
    exact fun _ b hb => ⟨trivial, hb, rfl⟩

/-! ### Runs -/

def answersFrom : Nat → List Request → List Answer
  | _, [] => []
  | position, request :: rest =>
    let next := position + request.meaning.encode.length
    request.answerAt next :: answersFrom next rest

theorem getElem?_answersFrom (position : Nat) (requests : List Request) (index : Nat) :
    (answersFrom position requests)[index]? =
      requests[index]?.map (·.answerAt (position + endOf (meanings requests) index)) := by
  induction requests generalizing position index with
  | nil => rfl
  | cons request rest ih =>
    cases index with
    | zero => simp [answersFrom, endOf, meanings]
    | succ index =>
      have hend : endOf (meanings (request :: rest)) (index + 1) =
          request.meaning.encode.length + endOf (meanings rest) index := by
        simp [endOf, meanings]
      rw [answersFrom, List.getElem?_cons_succ, ih, List.getElem?_cons_succ, hend, Nat.add_assoc]

theorem ends_assemble {requests : List Request} {a : Assembler} (ha : a.code.size ≤ a.limit) :
    Ends (assemble requests) a
      (fun answers b => (∀ r ∈ requests, r.Encodable) ∧ Adds a b (encodeAll (meanings requests)) ∧
        answers = answersFrom a.code.size requests)
      fun _ _ => (∀ r ∈ requests, r.Encodable) →
        a.limit < a.code.size + (encodeAll (meanings requests)).length := by
  induction requests generalizing a with
  | nil =>
    have hnone : Adds a a (encodeAll (meanings [])) :=
      ⟨by simp [meanings], rfl, by simpa [meanings] using ha⟩
    exact ⟨fun r hr => absurd hr List.not_mem_nil, hnone, rfl⟩
  | cons request rest ih =>
    have hlength : (encodeAll (meanings (request :: rest))).length =
        request.meaning.encode.length + (encodeAll (meanings rest)).length := by
      simp [meanings]
    rw [assemble, ends_bind, hlength]
    refine (ends_request ha).mono ?_ ?_
    · rintro _ b ⟨hone, hb, rfl⟩
      have hsize := hb.size
      have hroom := hb.room
      have hlimit := hb.limit
      rw [ends_bind]
      refine (ih (by omega)).mono ?_ ?_
      · rintro _ c ⟨hall, hc, rfl⟩
        refine ⟨?_, hb.trans hc, ?_⟩
        · intro r hr
          rcases List.mem_cons.1 hr with rfl | hr
          · exact hone
          · exact hall r hr
        · rw [answersFrom, hsize]
      · intro _ _ h hall
        have hrest := h fun r hr => hall r (List.mem_cons_of_mem _ hr)
        omega
    · intro _ _ h hall
      have hthis := h (hall request List.mem_cons_self)
      omega

theorem take_drop_endOf {code : List Instr} {index width : Nat} {i : Instr} {before operand : List UInt8}
    (hi : code[index]? = some i) (hencode : i.encode = before ++ operand)
    (hwidth : operand.length = width) :
    width ≤ endOf code index ∧
      ((encodeAll code).drop (endOf code index - width)).take width = operand := by
  obtain ⟨hlt, hget⟩ := List.getElem?_eq_some_iff.1 hi
  have htake : code.take (index + 1) = code.take index ++ [i] := by
    rw [← hget, List.take_succ_eq_append_getElem hlt]
  have hend : endOf code index = (encodeAll (code.take index) ++ before).length + width := by
    rw [endOf, htake, encodeAll_append, encodeAll_cons, encodeAll_nil, hencode]
    simp only [List.append_nil, List.length_append]
    omega
  have hall : encodeAll code = (encodeAll (code.take index) ++ before) ++
      (operand ++ encodeAll (code.drop (index + 1))) := by
    conv => lhs; rw [← List.take_append_drop (index + 1) code, htake]
    simp [hencode]
  refine ⟨by omega, ?_⟩
  rw [hend, Nat.add_sub_cancel, hall, List.drop_left, ← hwidth, List.take_left]

/-- Requests are met exactly if their instructions fit into the buffer and their adjustments are
signed words. Then the bytes of the buffer read back as the instructions that were asked for, with
their operands, and nothing is left over; and an answer to a load of an immediate says where its eight
bytes are. -/
theorem decodeAll_assemble (limit : Nat) (requests : List Request) :
    ((∃ answers a, assemble requests (.empty limit) = .ok answers a) ↔
      (∀ r ∈ requests, r.Encodable) ∧ (encodeAll (meanings requests)).length ≤ limit) ∧
    ∀ answers a, assemble requests (.empty limit) = .ok answers a →
      decodeAll a.code.toList = some (meanings requests) ∧
      (∀ bytes, .reserveStack bytes ∈ requests ∨ .freeStack bytes ∈ requests →
        (Int32.ofNat bytes).toInt = bytes) ∧
      ∀ index dst imm, requests[index]? = some (.moveImm dst imm) →
        ∃ offset, answers[index]? = some (.immediate offset) ∧
          offset + 8 = endOf (meanings requests) index ∧
          (a.code.toList.drop offset).take 8 = Bytes.ofWord imm := by
  have hstart : (Assembler.empty limit).code.size ≤ (Assembler.empty limit).limit := Nat.zero_le _
  -- One fact on the run gives both directions: it fails only where a request or the limit says so.
  have hends := ends_iff.1 (@ends_assemble requests _ hstart)
  refine ⟨⟨?_, ?_⟩, ?_⟩
  · rintro ⟨answers, a, hrun⟩
    obtain ⟨hall, hadds, -⟩ := hends.1 answers a hrun
    have hroom : 0 + (encodeAll (meanings requests)).length ≤ limit := hadds.room
    exact ⟨hall, by omega⟩
  · rintro ⟨hall, hroom⟩
    cases hrun : assemble requests (.empty limit) with
    | ok answers a => exact ⟨answers, a, rfl⟩
    | error fault a =>
      have hover : limit < 0 + (encodeAll (meanings requests)).length :=
        hends.2 fault a hrun hall
      omega
  · intro answers a hrun
    obtain ⟨hall, hadds, rfl⟩ := hends.1 answers a hrun
    have hcode : a.code.toList = encodeAll (meanings requests) := hadds.code
    refine ⟨by rw [hcode, decodeAll_encodeAll], ?_, ?_⟩
    · rintro bytes (hmem | hmem)
      · exact Int32.toInt_ofNat_of_lt (hall _ hmem)
      · exact Int32.toInt_ofNat_of_lt (hall _ hmem)
    · intro index dst imm hrequest
      have hmeaning : (meanings requests)[index]? = some (.moveImm dst imm) := by
        rw [meanings, List.getElem?_map, hrequest]
        rfl
      have hencode : (Instr.moveImm dst imm).encode =
          (rex true noRegister dst.number ++ [(0xb8 + dst.number.val % 8).toUInt8]) ++
            Bytes.ofWord imm := by
        simp [Instr.encode, Instr.pieces]
      obtain ⟨hle, hbytes⟩ := take_drop_endOf hmeaning hencode (Bytes.length_ofWord imm)
      refine ⟨endOf (meanings requests) index - 8, ?_, by omega, ?_⟩
      · rw [getElem?_answersFrom, hrequest]
        simp [Request.answerAt, Assembler.empty]
      · rw [hcode]
        exact hbytes

def edges : List Request :=
  let high : Xmm := ⟨⟨15, by decide⟩⟩
  [.instr (.store ⟨.rsp, 0⟩ high), .instr (.sseLoad .movSd high ⟨.rbp, 0⟩),
    .instr (.sseLoad .addSd .result ⟨⟨13, by decide⟩, 127⟩),
    .instr (.store ⟨⟨12, by decide⟩, -129⟩ .result), .moveImm ⟨9, by decide⟩ 0x48,
    .reserveStack 0x7fffffff, .jumpIfZero, .instr (.compare high .result .lessOrEqual)]

theorem decodeAll_assemble_edges : ∃ answers a, assemble edges (.empty 57) = .ok answers a ∧
    decodeAll a.code.toList = some (meanings edges) ∧ answers[4]? = some (.immediate 30) ∧
      (a.code.toList.drop 30).take 8 = Bytes.ofWord 0x48 := by
  obtain ⟨hfits, hreads⟩ := decodeAll_assemble 57 edges
  have hencodable : ∀ r ∈ edges, r.Encodable := by simp [edges, Request.Encodable]
  obtain ⟨answers, a, hrun⟩ := hfits.2 ⟨hencodable, by decide⟩
  obtain ⟨hdecode, -, himm⟩ := hreads answers a hrun
  obtain ⟨offset, hanswer, hend, hbytes⟩ := himm 4 ⟨9⟩ 0x48 rfl
  have hoffset : offset = 30 := by
    have hlast : endOf (meanings edges) 4 = 38 := by decide
    omega
  subst hoffset
  exact ⟨answers, a, hrun, hdecode, hanswer, hbytes⟩

end ScalarJit.X86
