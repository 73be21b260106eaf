import ScalarJit.Proofs.Codegen.Branch
import ScalarJit.Proofs.Image.Memory
import ScalarJit.Proofs.X86.Assembly

/-! # What a failed call leaves behind

An assembler goes on after calls that fail. Whatever was asked of it before, its buffer keeps to the
limit, an instruction that does not fit leaves only its first bytes, and a branch that is pointed at a
target changes nothing but its own displacement. -/

namespace ScalarJit.X86

/-! ### Instructions that do not fit -/

/-- Only the first of some bytes were added, because there is no room for all of them. -/
structure CutShort (a : Assembler) (bytes : List UInt8) (fault : EncodeFault) (b : Assembler) : Prop where
  fault : fault = .overrun a.limit
  beyond : a.limit < a.code.size + bytes.length
  part : ∃ front, front <+: bytes ∧ front ≠ bytes ∧ Adds a b front

theorem Adds.refl {a : Assembler} (h : a.code.size ≤ a.limit) : Adds a a [] := ⟨by simp, rfl, by simpa using h⟩

theorem Adds.size_le {a b : Assembler} {bytes : List UInt8} (h : Adds a b bytes) :
    b.code.size ≤ b.limit := by
  have hroom := h.room
  rw [h.size, h.limit]
  exact hroom

theorem CutShort.prepend {a b c : Assembler} {bytes more : List UInt8} {fault : EncodeFault}
    (hadds : Adds a b bytes) (h : CutShort b more fault c) : CutShort a (bytes ++ more) fault c := by
  obtain ⟨front, hfront, hne, hpart⟩ := h.part
  have hsize := hadds.size
  have hover := h.beyond
  have hlimit := hadds.limit
  refine ⟨hlimit ▸ h.fault, ?_, bytes ++ front, ?_, ?_, hadds.trans hpart⟩
  · rw [List.length_append]
    omega
  · exact (List.prefix_append_right_inj bytes).2 hfront
  · exact fun heq => hne (List.append_cancel_left heq)

theorem CutShort.append {a b : Assembler} {bytes : List UInt8} {fault : EncodeFault}
    (h : CutShort a bytes fault b) (more : List UInt8) : CutShort a (bytes ++ more) fault b := by
  obtain ⟨front, hfront, hne, hpart⟩ := h.part
  have hover := h.beyond
  refine ⟨h.fault, ?_, front, hfront.trans (List.prefix_append bytes more), ?_, hpart⟩
  · rw [List.length_append]
    omega
  · rintro rfl
    have hlength := hfront.length_le
    rw [List.length_append] at hlength
    have hnil : more = [] := List.eq_nil_of_length_eq_zero (by omega)
    exact hne (by rw [hnil, List.append_nil])

theorem ends_append_cut {bytes : List UInt8} {a : Assembler} (ha : a.code.size ≤ a.limit) :
    Ends (Assembler.append bytes) a (fun _ b => Adds a b bytes) fun fault b => CutShort a bytes fault b := by
  unfold Ends Assembler.append
  by_cases hroom : a.limit < a.code.size + bytes.length
  · simp only [hroom, if_true]
    refine ⟨rfl, hroom, [], List.nil_prefix, ?_, Adds.refl ha⟩
    rintro rfl
    simp only [List.length_nil] at hroom
    omega
  · simp only [hroom, if_false]
    exact ⟨by simp, rfl, Nat.le_of_not_lt hroom⟩

/-- Pieces are appended one by one, but what they leave is a matter of all of them together. -/
theorem ends_appendAll_cut {pieces : List (List UInt8)} {a : Assembler} (ha : a.code.size ≤ a.limit) :
    Ends (Assembler.appendAll pieces) a (fun _ b => Adds a b pieces.flatten)
      fun fault b => CutShort a pieces.flatten fault b := by
  induction pieces generalizing a with
  | nil => exact Adds.refl ha
  | cons piece rest ih =>
    rw [Assembler.appendAll, List.flatten_cons, ends_bind]
    refine (ends_append_cut ha).mono ?_ fun _ _ h => h.append _
    intro _ b hb
    exact (ih hb.size_le).mono (fun _ c hc => hb.trans hc) fun _ _ h => h.prepend hb

/-- How a request can fail: its instruction does not fit, or its adjustment is no signed word. -/
def Request.Fails (request : Request) (a : Assembler) (fault : EncodeFault) (b : Assembler) : Prop :=
  request.Encodable ∧ CutShort a request.meaning.encode fault b ∨
    ∃ bytes, (request = .reserveStack bytes ∨ request = .freeStack bytes) ∧ 0x80000000 ≤ bytes ∧
      fault = .adjustmentTooLarge bytes ∧ b = a

theorem ends_adjust_cut {bytes : Nat} {make : Int32 → Instr} {a : Assembler}
    (ha : a.code.size ≤ a.limit) :
    Ends (do Assembler.emit (make (← Assembler.adjustment bytes))) a
      (fun _ b => Adds a b (make (Int32.ofNat bytes)).encode)
      fun fault b => bytes < 0x80000000 ∧ CutShort a (make (Int32.ofNat bytes)).encode fault b ∨
        0x80000000 ≤ bytes ∧ fault = .adjustmentTooLarge bytes ∧ b = a := by
  rw [ends_bind, Assembler.adjustment]
  by_cases hbytes : bytes < 0x80000000
  · rw [if_pos hbytes, ends_pure]
    exact (ends_appendAll_cut ha).mono (fun _ _ hb => hb) fun _ _ h => .inl ⟨hbytes, h⟩
  · rw [if_neg hbytes, ends_throw]
    exact .inr ⟨Nat.le_of_not_lt hbytes, rfl, rfl⟩

theorem ends_request_fails {request : Request} {a : Assembler} (ha : a.code.size ≤ a.limit) :
    Ends request.run a (fun _ _ => True) fun fault b => request.Fails a fault b := by
  have hemit (i : Instr) : Ends (Assembler.emit i) a (fun _ _ => True)
      fun fault b => CutShort a i.encode fault b :=
    (ends_appendAll_cut ha).mono (fun _ _ _ => trivial) fun _ _ h => h
  cases request with
  | instr i => exact (ends_bind _ _).2 ((hemit i).mono (fun _ _ h => h) fun _ _ h => .inl ⟨trivial, h⟩)
  | moveImm dst imm =>
    refine (ends_bind _ _).2 ((ends_bind _ _).2 ?_)
    exact (hemit _).mono (fun _ _ h => h) fun _ _ h => .inl ⟨trivial, h⟩
  | reserveStack bytes =>
    refine (ends_bind _ _).2 ((ends_adjust_cut ha).mono (fun _ _ _ => trivial) fun _ _ h => ?_)
    rcases h with h | ⟨hbytes, hfault, hb⟩
    · exact .inl h
    · exact .inr ⟨bytes, .inl rfl, hbytes, hfault, hb⟩
  | freeStack bytes =>
    refine (ends_bind _ _).2 ((ends_adjust_cut ha).mono (fun _ _ _ => trivial) fun _ _ h => ?_)
    rcases h with h | ⟨hbytes, hfault, hb⟩
    · exact .inl h
    · exact .inr ⟨bytes, .inr rfl, hbytes, hfault, hb⟩
  | jumpIfZero =>
    refine (ends_bind _ _).2 ((ends_bind _ _).2 ?_)
    exact (hemit _).mono (fun _ _ h => h) fun _ _ h => .inl ⟨trivial, h⟩
  | jump =>
    refine (ends_bind _ _).2 ((ends_bind _ _).2 ?_)
    exact (hemit _).mono (fun _ _ h => h) fun _ _ h => .inl ⟨trivial, h⟩

/-! ### Branches in the code -/

def IsJump (branch : Int32 → Instr) : Prop := branch = .jumpIfZero ∨ branch = .jump

theorem IsJump.opcode {branch : Int32 → Instr} (h : IsJump branch) :
    ∃ opcode, Codegen.IsBranch branch opcode := by
  rcases h with rfl | rfl
  · exact ⟨_, Codegen.isBranch_jumpIfZero⟩
  · exact ⟨_, Codegen.isBranch_jump⟩

theorem IsJump.length_encode {branch : Int32 → Instr} (h : IsJump branch) (offset other : Int32) :
    (branch offset).encode.length = (branch other).encode.length := by
  obtain ⟨opcode, hopcode⟩ := h.opcode
  rw [hopcode.length_encode, hopcode.length_encode]

/-- A branch stands in the code between `front` and `rest`, and a fixup says where its displacement
is. -/
structure Fixup.Within (fixup : Fixup) (branch : Int32 → Instr) (offset : Int32)
    (code front rest : List UInt8) : Prop where
  isJump : IsJump branch
  code : code = front ++ ((branch offset).encode ++ rest)
  site : front.length + (branch offset).encode.length = fixup.site + 4

theorem Fixup.Within.append {fixup : Fixup} {branch : Int32 → Instr} {offset : Int32}
    {code front rest : List UInt8} (h : fixup.Within branch offset code front rest)
    (more : List UInt8) : fixup.Within branch offset (code ++ more) front (rest ++ more) :=
  ⟨h.isJump, by rw [h.code]; simp, h.site⟩

theorem Fixup.Within.le_length {fixup : Fixup} {branch : Int32 → Instr} {offset : Int32}
    {code front rest : List UInt8} (h : fixup.Within branch offset code front rest) :
    fixup.site + 4 ≤ code.length := by
  have hsite := h.site
  rw [h.code, List.length_append, List.length_append]
  omega

theorem Fixup.Within.toList_overwrite {fixup : Fixup} {branch : Int32 → Instr} {offset : Int32}
    {buffer : Array UInt8} {front rest : List UInt8}
    (h : fixup.Within branch offset buffer.toList front rest) (other : Int32) :
    fixup.Within branch other (Bytes.overwrite buffer fixup.site (Bytes.ofInt32 other)).toList
      front rest := by
  obtain ⟨opcode, hopcode⟩ := h.isJump.opcode
  have hlength := h.isJump.length_encode other offset
  have hsite : (front ++ opcode).length = fixup.site := by
    have hend := h.site
    rw [hopcode.length_encode] at hend
    rw [List.length_append]
    omega
  have hcode : buffer.toList = (front ++ opcode) ++ (Bytes.ofInt32 offset ++ rest) := by
    rw [h.code, hopcode offset]
    simp
  have hover := Bytes.toList_overwrite (Bytes.ofInt32 other) hcode (by simp)
  rw [hsite] at hover
  refine ⟨h.isJump, ?_, ?_⟩
  · rw [hover, hopcode other]
    simp
  · rw [hlength, h.site]

/-- The fixups of branches of the code, the last first: the others stand in front of it. -/
def Branches : List Fixup → List UInt8 → Prop
  | [], _ => True
  | fixup :: earlier, code =>
    ∃ branch offset front rest, fixup.Within branch offset code front rest ∧ Branches earlier front

theorem Branches.append {fixups : List Fixup} {code : List UInt8} (h : Branches fixups code)
    (more : List UInt8) : Branches fixups (code ++ more) := by
  cases fixups with
  | nil => trivial
  | cons fixup earlier =>
    obtain ⟨branch, offset, front, rest, hwithin, hearlier⟩ := h
    exact ⟨branch, offset, front, rest ++ more, hwithin.append more, hearlier⟩

theorem Branches.repoint {fixups : List Fixup} {fixup : Fixup} {code : List UInt8}
    (h : Branches fixups code) (hmem : fixup ∈ fixups) :
    ∃ branch offset front rest, fixup.Within branch offset code front rest ∧
      ∀ other code', fixup.Within branch other code' front rest → Branches fixups code' := by
  induction fixups generalizing code with
  | nil => cases hmem
  | cons last earlier ih =>
    obtain ⟨branch, offset, front, rest, hwithin, hearlier⟩ := h
    rcases List.mem_cons.1 hmem with rfl | hmem
    · exact ⟨branch, offset, front, rest, hwithin, fun other code' h' =>
        ⟨branch, other, front, rest, h', hearlier⟩⟩
    · -- the branch lies in front of the last one, which moves along unchanged
      obtain ⟨branch', offset', front', rest', hwithin', hrest⟩ := ih hearlier hmem
      have hcode := hwithin.code
      refine ⟨branch', offset', front', rest' ++ ((branch offset).encode ++ rest), ?_, ?_⟩
      · rw [hcode]
        exact hwithin'.append _
      · intro other code' h'
        have hfront : fixup.Within branch' other (front' ++ ((branch' other).encode ++ rest')) front' rest' :=
          ⟨h'.isJump, rfl, h'.site⟩
        refine ⟨branch, offset, front' ++ ((branch' other).encode ++ rest'), rest, ⟨hwithin.isJump, ?_, ?_⟩,
          hrest other _ hfront⟩
        · rw [h'.code]
          simp
        · have hsame := h'.isJump.length_encode other offset'
          rw [← hwithin.site, hwithin'.code]
          simp [hsame]

/-! ### Pointing a branch -/

/-- How far a target is from the end of a branch, with positions as signed words of 64 bits. -/
def Fixup.distance (fixup : Fixup) (target : Nat) : Int :=
  Int.bmod target 0x10000000000000000 - ((fixup.site + 4 : Nat) : Int)

theorem bmod_of_lt {target : Nat} (h : target < 0x8000000000000000) :
    Int.bmod (target : Int) 0x10000000000000000 = target := by
  simp only [Int.bmod]
  omega

theorem distance_eq (fixup : Fixup) (target : Nat) : fixup.distance target =
    Int.bmod target 0x10000000000000000 - ((fixup.site + 4 : Nat) : Int) := by
  unfold Fixup.distance
  rfl

theorem distance_of_lt {fixup : Fixup} {target : Nat} (h : target < 0x8000000000000000) :
    fixup.distance target = (target : Int) - ((fixup.site + 4 : Nat) : Int) := by
  rw [distance_eq, bmod_of_lt h]

theorem patch_apply (fixup : Fixup) (target : Nat) (a : Assembler) :
    Assembler.patch fixup target a =
      if -0x80000000 ≤ fixup.distance target ∧ fixup.distance target < 0x80000000 then
        .ok () ⟨Bytes.overwrite a.code fixup.site (Bytes.ofInt32 (Int32.ofInt (fixup.distance target))),
          a.limit⟩
      else .error (.branchOutOfRange fixup.site target) a := by
  unfold Assembler.patch
  rw [distance_eq]

-- its numerals are too large for the checks of types to look inside
attribute [local irreducible] Assembler.patch Fixup.distance

section

-- nor are stores to be taken apart byte by byte
attribute [local irreducible] Bytes.overwrite

theorem ends_patch_overwrites (fixup : Fixup) (target : Nat) (a : Assembler) :
    Ends (Assembler.patch fixup target) a
      (fun _ b => ∃ offset : Int32, offset.toInt = fixup.distance target ∧
        b = ⟨Bytes.overwrite a.code fixup.site (Bytes.ofInt32 offset), a.limit⟩)
      fun fault b => fault = .branchOutOfRange fixup.site target ∧ b = a ∧
        ¬(-0x80000000 ≤ fixup.distance target ∧ fixup.distance target < 0x80000000) := by
  have hrun := patch_apply fixup target a
  by_cases hreach : -0x80000000 ≤ fixup.distance target ∧ fixup.distance target < 0x80000000
  · rw [if_pos hreach] at hrun
    exact (ends_of_ok hrun).2 ⟨_, Int32.toInt_ofInt_of_le (by omega) (by omega), rfl⟩
  · rw [if_neg hreach] at hrun
    exact (ends_of_error hrun).2 ⟨rfl, rfl, hreach⟩

/-! ### Call after call -/

structure Session where
  asm : Assembler
  fixups : List Fixup
deriving DecidableEq, Repr, Inhabited

inductive Call where
  | emit (request : Request)
  | patch (fixup : Fixup) (target : Nat)
deriving DecidableEq, Repr, Inhabited

/-- Only branches that were handed out are pointed, and only at code that is there. -/
def Call.Allowed (s : Session) : Call → Prop
  | .emit _ => True
  | .patch fixup target => fixup ∈ s.fixups ∧ target ≤ s.asm.code.size

def Call.run : Call → AsmM Answer
  | .emit request => request.run
  | .patch fixup target => do
    Assembler.patch fixup target
    return .done

def Session.start (limit : Nat) : Session := ⟨.empty limit, []⟩

/-- The session goes on behind a call whether or not it failed. -/
def Session.after (s : Session) (call : Call) : Session :=
  match call.run s.asm with
  | .ok (.displacement fixup) asm => ⟨asm, fixup :: s.fixups⟩
  | .ok _ asm => ⟨asm, s.fixups⟩
  | .error _ asm => ⟨asm, s.fixups⟩

inductive Session.Reached (limit : Nat) : Session → Prop where
  | start : Reached limit (.start limit)
  | call {s : Session} (h : Reached limit s) {call : Call} (hallowed : call.Allowed s) :
    Reached limit (s.after call)

structure Session.Sound (limit : Nat) (s : Session) : Prop where
  limit : s.asm.limit = limit
  room : s.asm.code.size ≤ s.asm.limit
  branches : Branches s.fixups s.asm.code.toList

theorem Session.Sound.adds {limit : Nat} {s : Session} {b : Assembler} {bytes : List UInt8}
    (h : s.Sound limit) (hadds : Adds s.asm b bytes) : Session.Sound limit ⟨b, s.fixups⟩ :=
  ⟨hadds.limit.trans h.limit, hadds.size_le, by
    show Branches s.fixups b.code.toList
    rw [hadds.code]
    exact h.branches.append bytes⟩

theorem Session.Sound.hands_out {limit : Nat} {s : Session} {b : Assembler} {branch : Int32 → Instr}
    (h : s.Sound limit) (hjump : IsJump branch) (hadds : Adds s.asm b (branch 0).encode) :
    Session.Sound limit ⟨b, ⟨b.code.size - 4⟩ :: s.fixups⟩ := by
  obtain ⟨opcode, hopcode⟩ := hjump.opcode
  have hlength := hopcode.length_encode 0
  have hsize := hadds.size
  refine ⟨hadds.limit.trans h.limit, hadds.size_le, branch, 0, s.asm.code.toList, [], ⟨hjump, ?_, ?_⟩,
    h.branches⟩
  · rw [List.append_nil]
    exact hadds.code
  · show s.asm.code.toList.length + (branch 0).encode.length = b.code.size - 4 + 4
    rw [Array.length_toList]
    omega

theorem Session.Sound.emit {limit : Nat} {s : Session} (h : s.Sound limit) (request : Request) :
    (s.after (.emit request)).Sound limit := by
  have hroom := h.room
  have hok := ends_iff.1 (@ends_request request s.asm hroom)
  have hfail := ends_iff.1 (@ends_request_fails request s.asm hroom)
  rw [Session.after, Call.run]
  cases hrun : request.run s.asm with
  | ok answer b =>
    obtain ⟨-, hadds, rfl⟩ := hok.1 answer b hrun
    cases request with
    | jumpIfZero => exact h.hands_out (.inl rfl) hadds
    | jump => exact h.hands_out (.inr rfl) hadds
    | _ => exact h.adds hadds
  | error fault b =>
    rcases hfail.2 fault b hrun with ⟨-, hcut⟩ | ⟨_, -, -, -, rfl⟩
    · obtain ⟨front, -, -, hadds⟩ := hcut.part
      exact h.adds hadds
    · exact h

theorem Session.Sound.patch {limit : Nat} {s : Session} (h : s.Sound limit) {fixup : Fixup}
    (hmem : fixup ∈ s.fixups) (target : Nat) : (s.after (.patch fixup target)).Sound limit := by
  obtain ⟨branch, offset, front, rest, hwithin, hkeeps⟩ := h.branches.repoint hmem
  have hends : Ends (Call.patch fixup target).run s.asm
      (fun answer b => answer = .done ∧ Session.Sound limit ⟨b, s.fixups⟩) fun _ b => b = s.asm := by
    rw [Call.run, ends_bind]
    refine (ends_patch_overwrites fixup target s.asm).mono ?_ fun _ _ h => h.2.1
    rintro _ b ⟨other, -, rfl⟩
    refine ⟨rfl, h.limit, ?_, hkeeps other _ (hwithin.toList_overwrite other)⟩
    show (Bytes.overwrite s.asm.code fixup.site (Bytes.ofInt32 other)).size ≤ s.asm.limit
    rw [Bytes.size_overwrite]
    exact h.room
  rw [ends_iff] at hends
  rw [Session.after]
  cases hrun : (Call.patch fixup target).run s.asm with
  | ok answer b =>
    obtain ⟨rfl, hsound⟩ := hends.1 answer b hrun
    exact hsound
  | error fault b =>
    obtain rfl := hends.2 fault b hrun
    exact h

theorem Session.Reached.sound {limit : Nat} {s : Session} (h : Session.Reached limit s) : s.Sound limit := by
  induction h with
  | start => exact ⟨rfl, Nat.zero_le _, trivial⟩
  | @call s _ call hallowed ih =>
    cases call with
    | emit request => exact ih.emit request
    | patch fixup target => exact ih.patch hallowed.1 target

/-! ### What calls leave behind -/

/-- A request is met, or what it leaves is contained. It overruns exactly if its instruction does not
fit, and nothing that was there before is touched. -/
theorem contained_request {request : Request} {a : Assembler} (ha : a.code.size ≤ a.limit) :
    (∀ answer b, request.run a = .ok answer b →
      request.Encodable ∧ Adds a b request.meaning.encode ∧ answer = request.answerAt b.code.size) ∧
    (∀ fault b, request.run a = .error fault b → request.Fails a fault b) ∧
    ((∃ b, request.run a = .error (.overrun a.limit) b) ↔
      request.Encodable ∧ a.limit < a.code.size + request.meaning.encode.length) := by
  have hok := (ends_iff.1 (@ends_request request a ha)).1
  have hfail := (ends_iff.1 (@ends_request_fails request a ha)).2
  refine ⟨hok, hfail, ?_, ?_⟩
  · rintro ⟨b, hrun⟩
    rcases hfail _ b hrun with ⟨hencodable, hcut⟩ | ⟨_, -, -, hfault, -⟩
    · exact ⟨hencodable, hcut.beyond⟩
    · cases hfault
  · rintro ⟨hencodable, hover⟩
    cases hrun : request.run a with
    | ok answer b =>
      have hroom := (hok answer b hrun).2.1.room
      omega
    | error fault b =>
      rcases hfail fault b hrun with ⟨-, hcut⟩ | ⟨bytes, hrequest, hbytes, -, -⟩
      · exact ⟨b, by rw [hcut.fault]⟩
      · rcases hrequest with rfl | rfl <;> exact absurd hencodable (Nat.not_lt.2 hbytes)

/-- A branch that was handed out is in the code. Pointing it fails and leaves the code, or replaces its
displacement and nothing else; then its end and its displacement make up the target. -/
theorem contained_patch {limit : Nat} {s : Session} (h : s.Sound limit) {fixup : Fixup}
    (hmem : fixup ∈ s.fixups) (target : Nat) :
    fixup.site + 4 ≤ s.asm.code.size ∧
    (∀ fault b, Assembler.patch fixup target s.asm = .error fault b →
      b = s.asm ∧ fault = .branchOutOfRange fixup.site target ∧
        ¬(-0x80000000 ≤ fixup.distance target ∧ fixup.distance target < 0x80000000)) ∧
    ∀ b, Assembler.patch fixup target s.asm = .ok () b →
      b.limit = limit ∧ b.code.size = s.asm.code.size ∧
      (∀ i, i < fixup.site ∨ fixup.site + 4 ≤ i → b.code[i]? = s.asm.code[i]?) ∧
      ∃ branch old new front rest, fixup.Within branch old s.asm.code.toList front rest ∧
        fixup.Within branch new b.code.toList front rest ∧ new.toInt = fixup.distance target := by
  obtain ⟨branch, old, front, rest, hwithin, -⟩ := h.branches.repoint hmem
  obtain ⟨hok, hfail⟩ := ends_iff.1 (ends_patch_overwrites fixup target s.asm)
  refine ⟨?_, ?_, ?_⟩
  · have hlength := hwithin.le_length
    rwa [Array.length_toList] at hlength
  · intro fault b hrun
    obtain ⟨hfault, hb, hfar⟩ := hfail fault b hrun
    exact ⟨hb, hfault, hfar⟩
  · intro b hrun
    obtain ⟨new, hnew, rfl⟩ := hok () b hrun
    refine ⟨h.limit, Bytes.size_overwrite _ _ _, fun i hi => ?_, branch, old, new, front, rest, hwithin,
      hwithin.toList_overwrite new, hnew⟩
    rw [Bytes.getElem?_overwrite, if_neg]
    rw [Bytes.length_ofInt32]
    omega

/-- Failures are contained. After any calls, of which any may have failed, the code keeps to the
limit. An instruction overruns exactly if it does not fit as a whole, and then only some of its first
bytes are added; an adjustment that is no signed word changes nothing; and what was emitted before
stays. Pointing a branch that was handed out stays within the code, and either fails and changes
nothing or changes only the four bytes of the displacement, and leads to the target. -/
theorem reached_contained {limit : Nat} {s : Session} (h : Session.Reached limit s) :
    s.asm.limit = limit ∧ s.asm.code.size ≤ limit ∧
    (∀ request : Request,
      (∀ answer b, request.run s.asm = .ok answer b → request.Encodable ∧
        Adds s.asm b request.meaning.encode ∧ answer = request.answerAt b.code.size) ∧
      (∀ fault b, request.run s.asm = .error fault b → request.Fails s.asm fault b) ∧
      ((∃ b, request.run s.asm = .error (.overrun limit) b) ↔
        request.Encodable ∧ limit < s.asm.code.size + request.meaning.encode.length)) ∧
    ∀ fixup ∈ s.fixups, ∀ target ≤ s.asm.code.size, fixup.site + 4 ≤ s.asm.code.size ∧
      (∀ fault b, Assembler.patch fixup target s.asm = .error fault b →
        b = s.asm ∧ fault = .branchOutOfRange fixup.site target ∧
          ¬(-0x80000000 ≤ fixup.distance target ∧ fixup.distance target < 0x80000000)) ∧
      ∀ b, Assembler.patch fixup target s.asm = .ok () b →
        b.limit = limit ∧ b.code.size = s.asm.code.size ∧
        (∀ i, i < fixup.site ∨ fixup.site + 4 ≤ i → b.code[i]? = s.asm.code[i]?) ∧
        ∃ branch old new front rest, fixup.Within branch old s.asm.code.toList front rest ∧
          fixup.Within branch new b.code.toList front rest ∧ new.toInt = fixup.distance target ∧
          -- no buffer in memory is longer than this
          (target < 0x8000000000000000 → ((fixup.site + 4 : Nat) : Int) + new.toInt = target) := by
  have hsound := h.sound
  have hlimit := hsound.limit
  refine ⟨hlimit, hlimit ▸ hsound.room, fun request => ?_, fun fixup hmem target _ => ?_⟩
  · have hrequest := @contained_request request s.asm hsound.room
    rwa [hlimit] at hrequest
  · obtain ⟨hsite, hfail, hok⟩ := contained_patch hsound hmem target
    refine ⟨hsite, hfail, fun b hrun => ?_⟩
    obtain ⟨hb, hsize, hframe, branch, old, new, front, rest, hold, hwithin, hnew⟩ := hok b hrun
    refine ⟨hb, hsize, hframe, branch, old, new, front, rest, hold, hwithin, hnew, fun hshort => ?_⟩
    rw [hnew, distance_of_lt hshort]
    omega

end

def torn : Session :=
  (((Session.start 14).after (.emit .jump)).after (.emit (.reserveStack 0x80000000))).after
    (.emit (.moveImm .rax 7))

theorem reached_contained_torn :
    torn = ⟨⟨#[0xe9, 0, 0, 0, 0, 0x48, 0xb8], 14⟩, [⟨1⟩]⟩ ∧
    (∃ b, (Request.moveImm .rax 7).run torn.asm = .error (.overrun 14) b) ∧
    ∃ b, Assembler.patch ⟨1⟩ 7 torn.asm = .ok () b ∧ b.code = #[0xe9, 2, 0, 0, 0, 0x48, 0xb8] ∧
      ∃ branch new front rest, Fixup.Within ⟨1⟩ branch new b.code.toList front rest ∧
        ((1 + 4 : Nat) : Int) + new.toInt = (7 : Nat) := by
  have hjump : Session.Reached 14 ((Session.start 14).after (.emit .jump)) := .call .start trivial
  have hreserve := @Session.Reached.call 14 _ hjump (.emit (.reserveStack 0x80000000)) trivial
  have hreached : Session.Reached 14 torn := hreserve.call trivial
  have htorn : torn = ⟨⟨#[0xe9, 0, 0, 0, 0, 0x48, 0xb8], 14⟩, [⟨1⟩]⟩ := by decide +kernel
  obtain ⟨-, -, hrequest, hpatch⟩ := reached_contained hreached
  rw [htorn] at hrequest hpatch ⊢
  obtain ⟨-, -, hok⟩ := hpatch ⟨1⟩ (List.mem_singleton_self _) 7 (Nat.le_refl 7)
  have hrun : Assembler.patch ⟨1⟩ 7 ⟨#[0xe9, 0, 0, 0, 0, 0x48, 0xb8], 14⟩ =
      .ok () ⟨#[0xe9, 2, 0, 0, 0, 0x48, 0xb8], 14⟩ := by
    have htwo : Fixup.distance ⟨1⟩ 7 = 2 := distance_of_lt (by decide)
    rw [patch_apply, htwo]
    rfl
  obtain ⟨-, -, -, branch, _, new, front, rest, -, hwithin, -, hnew⟩ := hok _ hrun
  exact ⟨rfl, (hrequest _).2.2.2 ⟨trivial, by decide⟩, _, hrun, rfl, branch, new, front, rest, hwithin,
    hnew (by decide)⟩

end ScalarJit.X86
