import ScalarJit.Proofs.Codegen.Function
import ScalarJit.Proofs.X86.Assembly

/-! # Listings

The tree of a function gives its instructions, and so the displacements of its branches. Where links
lead does not show in instructions as they are emitted. -/

namespace ScalarJit

open X86 (Instr encodeAll)

namespace X86

def startOf (code : List Instr) (index : Nat) : Nat := (encodeAll (code.take index)).length

/-- The code of two cases: a branch on zero leads right behind the jump that ends the first, and that
jump leads right behind the second. -/
def fork (onTrue onFalse : List Instr) : List Instr :=
  .jumpIfZero (Int32.ofNat ((encodeAll onTrue).length + 5)) ::
    (onTrue ++ .jump (Int32.ofNat (encodeAll onFalse).length) :: onFalse)

/-- A branch leads to the start of an instruction. -/
def Leads (code : List Instr) (index target : Nat) : Prop :=
  ∃ offset : Int32, (code[index]? = some (.jumpIfZero offset) ∨ code[index]? = some (.jump offset)) ∧
    (startOf code target : Int) = startOf code (index + 1) + offset.toInt

theorem length_encode_jump (offset : Int32) : (Instr.jump offset).encode.length = 5 := rfl

theorem startOf_append (code more : List Instr) :
    startOf (code ++ more) code.length = (encodeAll code).length := by
  rw [startOf, List.take_left]

theorem leads_over {before skipped after : List Instr} {branch : Int32 → Instr}
    (hbranch : branch = .jumpIfZero ∨ branch = .jump) (hsize : (encodeAll skipped).length < 0x80000000) :
    Leads (before ++ (branch (Int32.ofNat (encodeAll skipped).length) :: (skipped ++ after)))
      before.length (before.length + (skipped.length + 1)) := by
  refine ⟨Int32.ofNat (encodeAll skipped).length, ?_, ?_⟩
  · rw [List.getElem?_append_right (Nat.le_refl _), Nat.sub_self]
    rcases hbranch with rfl | rfl
    · exact .inl rfl
    · exact .inr rfl
  · have hnext := startOf_append (before ++ [branch (Int32.ofNat (encodeAll skipped).length)])
      (skipped ++ after)
    have hend := startOf_append
      (before ++ (branch (Int32.ofNat (encodeAll skipped).length) :: skipped)) after
    simp only [List.append_assoc, List.cons_append, List.nil_append, List.length_append,
      List.length_cons, List.length_nil] at hnext hend
    rw [hnext, hend, Int32.toInt_ofNat_of_lt hsize]
    simp only [encodeAll_append, encodeAll_cons, encodeAll_nil, List.length_append, List.length_nil]
    omega

theorem leads_fork {before onTrue onFalse after : List Instr}
    (hsize : (encodeAll (fork onTrue onFalse)).length < 0x80000000) :
    Leads (before ++ (fork onTrue onFalse ++ after)) before.length
        (before.length + (onTrue.length + 2)) ∧
      Leads (before ++ (fork onTrue onFalse ++ after)) (before.length + (onTrue.length + 1))
        (before.length + (onTrue.length + 1) + (onFalse.length + 1)) := by
  rw [fork, encodeAll_cons, encodeAll_append, encodeAll_cons] at hsize
  simp only [List.length_append] at hsize
  constructor
  · have hskipped : (encodeAll (onTrue ++ [.jump (Int32.ofNat (encodeAll onFalse).length)])).length =
        (encodeAll onTrue).length + 5 := by
      rw [encodeAll_append, List.length_append, encodeAll_cons, encodeAll_nil, List.append_nil,
        length_encode_jump]
    rw [length_encode_jump] at hsize
    have hover := @leads_over before (onTrue ++ [.jump (Int32.ofNat (encodeAll onFalse).length)])
      (onFalse ++ after) .jumpIfZero (.inl rfl) (by omega)
    rw [hskipped] at hover
    simpa [fork] using hover
  · have hover := @leads_over (before ++
        (.jumpIfZero (Int32.ofNat ((encodeAll onTrue).length + 5)) :: onTrue)) onFalse after .jump
      (.inr rfl) (by omega)
    simpa [fork] using hover

end X86

namespace Codegen

def emittedAll (items : List Item) : List Instr := items.map (·.emitted)

theorem emittedAll_append (items more : List Item) :
    emittedAll (items ++ more) = emittedAll items ++ emittedAll more := List.map_append

theorem bytesOf_eq (items : List Item) : bytesOf items = encodeAll (emittedAll items) := by
  rw [bytesOf, encodeAll, emittedAll, List.flatMap_map]

/-! ### Listings of expressions -/

def variableMem (ctx : Context) (var : VarRef) : X86.Mem :=
  slotMem (((declaration? ctx.function.blocks var).map (·.slot)).getD 0)

theorem listing_variable {ctx : Context} {var : VarRef} {v : Variable}
    (hv : declaration? ctx.function.blocks var = some v) : variableMem ctx var = slotMem v.slot := by
  rw [variableMem, hv]
  rfl

def target? (ctx : Context) (callee : String) : Option Target :=
  ((ctx.sections.lookup callee).map .code).or
    ((Intrinsic.ofName? callee).map fun i => .host (.intrinsic i))

theorem Resolves.target?_eq {ctx : Context} {callee : String} {t : Target}
    (h : Resolves ctx callee t) : target? ctx callee = some t := by
  cases h with
  | code hid =>
    rw [target?, hid]
    rfl
  | host hs hi =>
    rw [target?, hs, hi]
    rfl

def conditionalListing (k : Nat) (condition onTrue onFalse : List Instr) : List Instr :=
  condition ++ (.sse .xorPd (reg (k + 1)) (reg (k + 1)) :: .sse .uComISd (reg k) (reg (k + 1)) ::
    X86.fork onTrue onFalse)

theorem emittedAll_conditionalItems (k : Nat) (condition onTrue onFalse : List Item) :
    emittedAll (conditionalItems k condition onTrue onFalse) =
      conditionalListing k (emittedAll condition) (emittedAll onTrue) (emittedAll onFalse) := by
  simp [conditionalItems, testItems, conditionalListing, X86.fork, emittedAll, Item.emitted, sizeOf,
    bytesOf, encodeAll, List.flatMap_map]

theorem emittedAll_comparisonItems {ctx : Context} (predicate : X86.Predicate) (swapped : Bool)
    (offset k : Nat) :
    emittedAll (comparisonItems ctx predicate swapped offset k) =
      emittedAll (comparisonItems ctx predicate swapped 0 k) := by
  cases swapped <;> rfl

variable [HostAddresses]

def operationListing (ctx : Context) (op : BinaryOp) (k : Nat) : List Instr :=
  match Lowering.of op with
  | .arithmetic sse => [.sse sse (reg k) (reg (k + 1))]
  | .comparison predicate swapped => emittedAll (comparisonItems ctx predicate swapped 0 k)
  | .power => emittedAll (callItems (.host .power) k 2 true)

def callListing (ctx : Context) (callee : String) (k count : Nat) (returns : Bool) : List Instr :=
  ((target? ctx callee).map fun t => emittedAll (callItems t k count returns)).getD []

mutual

/-- The code of an expression when `k` values are held, given that of blocks. -/
def listing (ctx : Context) (blocks : BlockId → Nat → List Instr) (k : Nat) : Expr → List Instr
  | .literal _ => emittedAll (constantItems ctx 0 k)
  | .read _ var _ _ => [.sseLoad .movSd (reg k) (variableMem ctx var)]
  | .write _ var value => listing ctx blocks k value ++ [.store (variableMem ctx var) (reg k)]
  | .bind _ var value => listing ctx blocks k value ++ [.store (variableMem ctx var) (reg k)]
  | .binary op lhs rhs =>
    listing ctx blocks k lhs ++ (listing ctx blocks (k + 1) rhs ++ operationListing ctx op k)
  | .unary .plus operand => listing ctx blocks k operand
  | .unary .minus operand => listing ctx blocks k operand ++
      (emittedAll (constantItems ctx 0 (k + 1)) ++ [.sse .xorPd (reg k) (reg (k + 1))])
  | .call callee args ty =>
    argumentListing ctx blocks k args ++ callListing ctx callee k args.length (!ty.isVoid)
  | .leave => emittedAll (returnItems none)
  | .leaveWith value => listing ctx blocks k value ++ emittedAll (returnItems (some k))
  | .ifThen condition onTrue =>
    conditionalListing k (listing ctx blocks k condition) (listing ctx blocks k onTrue)
      (emittedAll (missingItems onTrue.hasValue k))
  | .ifThenElse condition onTrue onFalse =>
    conditionalListing k (listing ctx blocks k condition) (listing ctx blocks k onTrue)
      (listing ctx blocks k onFalse)
  | .block id _ => blocks id k

/-- The code of arguments, each of which is held while the next is evaluated. -/
def argumentListing (ctx : Context) (blocks : BlockId → Nat → List Instr) (k : Nat) :
    List Expr → List Instr
  | [] => []
  | e :: rest => listing ctx blocks k e ++ argumentListing ctx blocks (k + 1) rest

end

def statementListing (ctx : Context) (blocks : BlockId → Nat → List Instr) (k : Nat)
    (list : List Expr) : List Instr := list.flatMap (listing ctx blocks k)

def blockListing (ctx : Context) : Nat → BlockId → Nat → List Instr
  | 0, _, _ => []
  | depth + 1, id, k =>
    match ctx.function.blocks[id]? with
    | some b => statementListing ctx (blockListing ctx depth) k b.statements
    | none => []

def functionListing (ctx : Context) : List Instr :=
  let f := ctx.function
  let frame := if 0 < frameSize f then [Instr.reserve (Int32.ofNat (frameSize f))] else []
  [.push .rbp, .move .rbp .rsp] ++ (frame ++ (emittedAll (storeItems f 0 f.signature.args.length) ++
    (listing ctx (blockListing ctx f.blocks.length) 0 f.body ++
      emittedAll (returnItems (if f.body.hasValue then some 0 else none)))))

/-! ### What is emitted is what is listed -/

section
variable {ctx : Context} {pool : Pool}

def Phrase.listing (ctx : Context) (d k : Nat) : Phrase → List Instr
  | .expr e => Codegen.listing ctx (blockListing ctx d) k e
  | .arguments args => argumentListing ctx (blockListing ctx d) k args
  | .statements _ list => statementListing ctx (blockListing ctx d) k list

theorem listing_pair {d k : Nat} {op : BinaryOp} {lhs rhs : Expr} :
    (Phrase.expr (.binary op lhs rhs)).listing ctx d k =
      (Phrase.arguments [lhs, rhs]).listing ctx d k ++ operationListing ctx op k := by
  simp [Phrase.listing, Codegen.listing, argumentListing]

theorem Lowers.listing {d k : Nat} {phrase : Phrase} {items : List Item}
    (h : Lowers ctx pool d k phrase items) : emittedAll items = phrase.listing ctx d k := by
  induction h with
  | literal => rfl
  | read _ hv =>
    rw [Phrase.listing, Codegen.listing, listing_variable hv]
    rfl
  | write _ hv _ _ ih =>
    rw [emittedAll_append, ih, Phrase.listing, Phrase.listing, Codegen.listing, listing_variable hv]
    rfl
  | bind _ hv _ _ ih =>
    rw [emittedAll_append, ih, Phrase.listing, Phrase.listing, Codegen.listing, listing_variable hv]
    rfl
  | arithmetic _ hop _ ih =>
    rw [emittedAll_append, ih, listing_pair, operationListing, hop]
    rfl
  | comparison _ hop _ _ ih =>
    rw [emittedAll_append, ih, listing_pair, operationListing, hop, emittedAll_comparisonItems]
  | power _ hop _ ih => rw [emittedAll_append, ih, listing_pair, operationListing, hop]
  | plus _ ih =>
    rw [Phrase.listing, Codegen.listing]
    exact ih
  | minus _ _ _ _ ih =>
    rw [emittedAll_append, ih, Phrase.listing, Phrase.listing, Codegen.listing]
    rfl
  | call ht _ _ _ _ ih =>
    rw [emittedAll_append, ih, Phrase.listing, Phrase.listing, Codegen.listing, callListing,
      ht.target?_eq]
    rfl
  | leave =>
    rw [Phrase.listing, Codegen.listing]
  | leaveWith _ _ _ ih =>
    rw [emittedAll_append, ih, Phrase.listing, Phrase.listing, Codegen.listing]
  | ifThen _ _ _ _ _ ihc iht =>
    rw [emittedAll_conditionalItems, ihc, iht, Phrase.listing, Phrase.listing, Phrase.listing,
      Codegen.listing]
  | ifThenElse _ _ _ _ _ _ _ _ ihc iht ihf =>
    rw [emittedAll_conditionalItems, ihc, iht, ihf, Phrase.listing, Phrase.listing, Phrase.listing,
      Phrase.listing, Codegen.listing]
  | block hb _ ih =>
    rw [ih, Phrase.listing, Phrase.listing, Codegen.listing, blockListing, hb]
  | noArguments => rfl
  | argument _ _ _ _ ih ihrest =>
    rw [emittedAll_append, ih, ihrest, Phrase.listing, Phrase.listing, Phrase.listing, argumentListing]
  | noStatements => rfl
  | lastStatement _ _ ih =>
    rw [ih, Phrase.listing, Phrase.listing, statementListing, List.flatMap_cons, List.flatMap_nil,
      List.append_nil]
  | statement _ _ ih ihrest =>
    rw [emittedAll_append, ih, ihrest]
    rfl

theorem LowersFunction.listing {items : List Item} (h : LowersFunction ctx pool items) :
    emittedAll items = functionListing ctx := by
  obtain ⟨is, hlower, rfl⟩ := h.body
  rw [functionItems, functionListing]
  simp only [emittedAll_append]
  rw [hlower.listing, Phrase.listing]
  split <;> rfl

end
end Codegen
end ScalarJit
