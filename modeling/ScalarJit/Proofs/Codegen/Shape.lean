import Mathlib.Data.List.Forall2
import ScalarJit.Proofs.Codegen.Faults
import ScalarJit.Proofs.Codegen.Listing
import ScalarJit.Proofs.Image.Load

/-! # The shape of generated code

Every section with code reads back as the instructions that the tree of its function gives. Both
branches of a conditional have their displacements: one leads right behind the jump that ends the first
case, that jump right behind the second. What a function refers to, its literals and the functions that
it calls, is known from its tree; its links are those references, one for each and in the same order. -/

namespace ScalarJit

open X86 (Instr Gpr encodeAll)

/-! ### References -/

inductive Reference where
  | constant (x : Double)
  | function (name : String)
deriving DecidableEq, Repr

namespace Codegen

def operationReferences (op : BinaryOp) : List Reference :=
  match Lowering.of op with
  | .comparison .. => [.constant .one]
  | _ => []

mutual

def references (isFunction : String → Bool) (blocks : BlockId → List Reference) :
    Expr → List Reference
  | .literal x => [.constant x]
  | .read .. => []
  | .write _ _ value => references isFunction blocks value
  | .bind _ _ value => references isFunction blocks value
  | .binary op lhs rhs =>
    references isFunction blocks lhs ++ (references isFunction blocks rhs ++ operationReferences op)
  | .unary .plus operand => references isFunction blocks operand
  | .unary .minus operand => references isFunction blocks operand ++ [.constant .negativeZero]
  | .call callee args _ =>
    listReferences isFunction blocks args ++ (if isFunction callee then [.function callee] else [])
  | .leave => []
  | .leaveWith value => references isFunction blocks value
  | .ifThen condition onTrue =>
    references isFunction blocks condition ++ references isFunction blocks onTrue
  | .ifThenElse condition onTrue onFalse =>
    references isFunction blocks condition ++
      (references isFunction blocks onTrue ++ references isFunction blocks onFalse)
  | .block id _ => blocks id

def listReferences (isFunction : String → Bool) (blocks : BlockId → List Reference) :
    List Expr → List Reference
  | [] => []
  | e :: rest => references isFunction blocks e ++ listReferences isFunction blocks rest

end

def blockReferences (isFunction : String → Bool) (f : Function) : Nat → BlockId → List Reference
  | 0, _ => []
  | depth + 1, id =>
    match f.blocks[id]? with
    | some b => listReferences isFunction (blockReferences isFunction f depth) b.statements
    | none => []

end Codegen

def Program.references (p : Program) (f : Function) : List Reference :=
  let isFunction name := (p.function? name).isSome
  Codegen.references isFunction (Codegen.blockReferences isFunction f f.blocks.length) f.body

/-! ### Statements about code -/

namespace X86

/-- Branches have their displacements: each leads to the start of an instruction behind it, and one
that is taken on zero to right behind the jump that ends the other branch. -/
structure BranchesLand (code : List Instr) : Prop where
  jump : ∀ index offset, code[index]? = some (.jump offset) → ∃ target,
    index < target ∧ target < code.length ∧
      (startOf code target : Int) = startOf code (index + 1) + offset.toInt
  jumpIfZero : ∀ index offset, code[index]? = some (.jumpIfZero offset) → ∃ target,
    index < target ∧ target + 1 < code.length ∧ (∃ past, code[target]? = some (.jump past)) ∧
      (startOf code (target + 1) : Int) = startOf code (index + 1) + offset.toInt

end X86

/-- A link serves a reference: it is to the immediate of a load into `rax`, the value is used by the
next instruction, and the link leads to the bits of the literal or to the start of the function. -/
inductive Object.Serves (o : Object) (code : List Instr) : Reference → Link → Prop
  | constant {x : Double} {l : Link} {index : Nat} {dst : X86.Xmm} {data : Array UInt8}
      (hmove : code[index]? = some (.moveImm .rax 0))
      (hplace : l.pointerOffset = X86.startOf code index + 2)
      (hload : code[index + 1]? = some (.sseLoad .movSd dst ⟨.rax, 0⟩))
      (hpool : o.sections[l.pointeeSection]? = some ⟨.readOnly, data⟩)
      (haligned : 8 ∣ l.pointeeOffset)
      (hbits : (data.toList.drop l.pointeeOffset).take 8 = Bytes.ofWord x.bits) :
      Serves o code (.constant x) l
  | function {name : String} {l : Link} {index : Nat}
      (hmove : code[index]? = some (.moveImm .rax 0))
      (hplace : l.pointerOffset = X86.startOf code index + 2)
      (hcall : code[index + 1]? = some (.call .rax))
      (hentry : o.entry? name = some l.pointeeSection) (hstart : l.pointeeOffset = 0) :
      Serves o code (.function name) l

structure Object.Shaped [HostAddresses] (o : Object) (p : Program) (id : SectionId) (f : Function)
    (data : Array UInt8) (code : List Instr) : Prop where
  decodes : X86.decodeAll data.toList = some code
  /-- The code is that of the tree, with each conditional as a fork of the code of its cases. -/
  listing : code = Codegen.functionListing ⟨f, id, p.functions.length, o.entries⟩
  /-- The branch of a fork leads right behind the jump of the fork, and that jump right behind its second
  case. -/
  forks : ∀ before onTrue onFalse after, code = before ++ (X86.fork onTrue onFalse ++ after) →
    X86.Leads code before.length (before.length + (onTrue.length + 2)) ∧
      X86.Leads code (before.length + (onTrue.length + 1))
        (before.length + (onTrue.length + 1) + (onFalse.length + 1))
  branches : X86.BranchesLand code
  /-- One link for each reference. -/
  serves : List.Forall₂ (o.Serves code) (p.references f) (o.links.filter (·.pointerSection == id))
  /-- One link for each load that is to be linked. -/
  linked : ∀ index, code[index]? = some (.moveImm .rax 0) →
    ∃ l ∈ o.links, l.pointerSection = id ∧ l.pointerOffset = X86.startOf code index + 2
  /-- Literals are loaded through links only. -/
  loads : ∀ index op dst disp, code[index]? = some (.sseLoad op dst ⟨.rax, disp⟩) →
    ∃ before, index = before + 1 ∧ code[before]? = some (.moveImm .rax 0)
  /-- Calls are through links or go to the host. -/
  calls : ∀ index target, code[index]? = some (.call target) →
    target = .rax ∧ ∃ before, index = before + 1 ∧ (code[before]? = some (.moveImm .rax 0) ∨
      ∃ host : HostFunction, code[before]? = some (.moveImm .rax host.address))
  zeros : ∀ l ∈ o.links, l.pointerSection = id →
    l.pointerOffset + 8 ≤ data.size ∧
      (data.toList.drop l.pointerOffset).take 8 = List.replicate 8 0

namespace Codegen

/-! ### Items in groups -/

/-- Instructions that take part in no load through `rax` and in no call. -/
def ordinary : Instr → Bool
  | .moveImm dst _ => dst != .rax
  | .sseLoad _ _ src => src.base != .rax
  | .call _ => false
  | _ => true

/-- Items as groups: an address is loaded right before it is used. Along with the items go the
references that they serve. -/
inductive Wired [HostAddresses] (ctx : Context) (pool : Pool) : List Reference → List Item → Prop
  | nil : Wired ctx pool [] []
  | plain {refs : List Reference} {items : List Item} {i : Instr} (hi : ordinary i = true)
      (h : Wired ctx pool refs items) : Wired ctx pool refs (.plain i :: items)
  | constant {refs : List Reference} {items : List Item} {offset : Nat} {x : Double} {dst : X86.Xmm}
      (hx : pool.Holds offset x) (h : Wired ctx pool refs items) :
      Wired ctx pool (.constant x :: refs)
        (.linked ctx.poolSection offset :: .plain (.sseLoad .movSd dst ⟨.rax, 0⟩) :: items)
  | function {refs : List Reference} {items : List Item} {name : String} {id : SectionId}
      (hid : ctx.sections.lookup name = some id) (h : Wired ctx pool refs items) :
      Wired ctx pool (.function name :: refs) (.linked id 0 :: .plain (.call .rax) :: items)
  | host {refs : List Reference} {items : List Item} (f : HostFunction)
      (h : Wired ctx pool refs items) :
      Wired ctx pool refs (.plain (.moveImm .rax f.address) :: .plain (.call .rax) :: items)

section
variable {ctx : Context} {pool : Pool} {refs more : List Reference} {items others : List Item}
    [HostAddresses]

theorem Wired.append (h : Wired ctx pool refs items) (h' : Wired ctx pool more others) :
    Wired ctx pool (refs ++ more) (items ++ others) := by
  induction h with
  | nil => exact h'
  | plain hi _ ih => exact .plain hi ih
  | constant hx _ ih => exact .constant hx ih
  | function hid _ ih => exact .function hid ih
  | host f _ ih => exact .host f ih

theorem Wired.then (h : Wired ctx pool refs items) (h' : Wired ctx pool [] others) :
    Wired ctx pool refs (items ++ others) := by
  have happend := h.append h'
  rwa [List.append_nil] at happend

theorem wired_ordinary (code : List Instr) (h : ∀ i ∈ code, ordinary i = true) :
    Wired ctx pool [] (code.map .plain) := by
  induction code with
  | nil => exact .nil
  | cons i code ih =>
    exact .plain (h i List.mem_cons_self) (ih fun j hj => h j (List.mem_cons_of_mem _ hj))

theorem wired_map {α : Type} (list : List α) (make : α → Instr) (h : ∀ a, ordinary (make a) = true) :
    Wired ctx pool [] (list.map fun a => .plain (make a)) := by
  have hcode := @wired_ordinary ctx pool _ (list.map make) (by simpa using fun a _ => h a)
  rwa [List.map_map] at hcode

theorem wired_if {c : Prop} [Decidable c] (i : Instr) (h : ordinary i = true) :
    Wired ctx pool [] (if c then [.plain i] else []) := by
  split
  · exact .plain h .nil
  · exact .nil

theorem wired_constantItems {offset : Nat} {x : Double} (hx : pool.Holds offset x) (k : Nat) :
    Wired ctx pool [.constant x] (constantItems ctx offset k) := .constant hx .nil

theorem wired_returnItems (value : Option Nat) : Wired ctx pool [] (returnItems value) := by
  have hleave : Wired ctx pool [] [.plain (.move .rsp .rbp), .plain (.pop .rbp), .plain .ret] :=
    .plain rfl (.plain rfl (.plain rfl .nil))
  cases value with
  | none => exact .plain rfl hleave
  | some k =>
    have hdeliver : Wired ctx pool [] (deliverItems (some k)) := wired_if _ rfl
    exact hdeliver.append hleave

theorem wired_callItems {t : Target} (k count : Nat) (returns : Bool)
    (h : Wired ctx pool refs (targetItems t)) : Wired ctx pool refs (callItems t k count returns) := by
  have hbehind : Wired ctx pool [] (resultItems returns k ++ (reloadItems k ++
      (if 0 < callArea (k + count) then
        [.plain (.free (Int32.ofNat (callArea (k + count))))] else []))) :=
    (wired_if _ rfl).append ((wired_map _ _ fun _ => rfl).append (wired_if _ rfl))
  have hload : Wired ctx pool [] (argumentItems k count) := wired_map _ _ fun _ => rfl
  have hspill : Wired ctx pool [] (spillItems (k + count)) := wired_map _ _ fun _ => rfl
  have hreserve : Wired ctx pool [] (if 0 < callArea (k + count) then
      [Item.plain (.reserve (Int32.ofNat (callArea (k + count))))] else []) := wired_if _ rfl
  exact hreserve.append (hspill.append (hload.append (h.then hbehind)))

theorem wired_host (f : HostFunction) : Wired ctx pool [] (targetItems (.host f)) := by
  have hcontext : Wired ctx pool [] (if f.takesContext then
      [Item.plain (.moveImm .rdi HostFunction.contextAddress)] else []) := wired_if _ rfl
  exact hcontext.append (.host f .nil)

theorem wired_missingItems (hasValue : Bool) (k : Nat) :
    Wired ctx pool [] (missingItems hasValue k) := wired_if _ rfl

theorem wired_conditionalItems {condition onTrue onFalse : List Item} {rc rt rf : List Reference}
    (k : Nat) (hc : Wired ctx pool rc condition) (ht : Wired ctx pool rt onTrue)
    (hf : Wired ctx pool rf onFalse) :
    Wired ctx pool (rc ++ (rt ++ rf)) (conditionalItems k condition onTrue onFalse) := by
  have hbranches := ht.append (Wired.plain (i := .jump (Int32.ofNat (sizeOf onFalse))) rfl hf)
  exact hc.append (.plain rfl (.plain rfl (.plain rfl hbranches)))

def Context.isFunction (ctx : Context) (name : String) : Bool := (ctx.sections.lookup name).isSome

def Phrase.references (ctx : Context) (depth : Nat) : Phrase → List Reference
  | .expr e => Codegen.references ctx.isFunction
      (blockReferences ctx.isFunction ctx.function depth) e
  | .arguments args => listReferences ctx.isFunction
      (blockReferences ctx.isFunction ctx.function depth) args
  | .statements _ list => listReferences ctx.isFunction
      (blockReferences ctx.isFunction ctx.function depth) list

omit [HostAddresses] in
theorem references_pair {ctx : Context} {depth : Nat} {lhs rhs : Expr} {op : BinaryOp} :
    (Phrase.expr (.binary op lhs rhs)).references ctx depth =
      (Phrase.arguments [lhs, rhs]).references ctx depth ++ operationReferences op := by
  simp [Phrase.references, references, listReferences]

theorem Lowers.wired {d k : Nat} {phrase : Phrase} {items : List Item}
    (h : Lowers ctx pool d k phrase items) : Wired ctx pool (phrase.references ctx d) items := by
  -- A rule links what its parts link, in the order of their items, and then its own.
  induction h with
  | literal _ hx =>
    rw [Phrase.references, references]
    exact wired_constantItems hx _
  | read =>
    rw [Phrase.references, references]
    exact .plain rfl .nil
  | write _ _ _ _ ih =>
    rw [Phrase.references, references]
    exact Wired.then ih (.plain rfl .nil)
  | bind _ _ _ _ ih =>
    rw [Phrase.references, references]
    exact Wired.then ih (.plain rfl .nil)
  | arithmetic _ hop _ ih =>
    rw [references_pair, operationReferences, hop]
    exact ih.append (.plain rfl .nil)
  | @comparison _ k offset _ predicate swapped _ _ _ _ hop hx _ ih =>
    rw [references_pair, operationReferences, hop]
    refine ih.append ?_
    have hmask : Wired ctx pool [] (if swapped then
        [Item.plain (.compare (reg (k + 1)) (reg k) predicate),
          .plain (.sse .movApd (reg k) (reg (k + 1)))]
        else [.plain (.compare (reg k) (reg (k + 1)) predicate)]) := by
      split
      · exact .plain rfl (.plain rfl .nil)
      · exact .plain rfl .nil
    exact hmask.append ((wired_constantItems hx _).then (.plain rfl .nil))
  | power _ hop _ ih =>
    rw [references_pair, operationReferences, hop]
    exact ih.append (wired_callItems _ _ _ (wired_host _))
  | plus _ ih =>
    rw [Phrase.references, references]
    exact ih
  | minus _ _ hx _ ih =>
    rw [Phrase.references, references]
    exact Wired.append ih ((wired_constantItems hx _).then (.plain rfl .nil))
  | @call _ _ callee _ _ _ _ ht _ _ _ _ ih =>
    rw [Phrase.references, references]
    refine Wired.append ih (wired_callItems _ _ _ ?_)
    cases ht with
    | code hid =>
      rw [Context.isFunction, hid]
      exact .function hid .nil
    | host hs _ =>
      rw [Context.isFunction, hs]
      exact wired_host _
  | leave =>
    rw [Phrase.references, references]
    exact wired_returnItems none
  | leaveWith _ _ _ ih =>
    rw [Phrase.references, references]
    exact Wired.then ih (wired_returnItems _)
  | @ifThen _ k _ onTrue _ _ _ _ _ _ _ ihc iht =>
    rw [Phrase.references, references]
    have hall := wired_conditionalItems k ihc iht (wired_missingItems onTrue.hasValue k)
    rwa [List.append_nil] at hall
  | @ifThenElse _ k _ _ _ _ _ _ _ _ _ _ _ _ _ _ ihc iht ihf =>
    rw [Phrase.references, references]
    exact wired_conditionalItems k ihc iht ihf
  | @block d _ id _ b _ hb _ ih =>
    rw [Phrase.references, references, blockReferences, hb]
    exact ih
  | noArguments => exact .nil
  | argument _ _ _ _ ih ihrest =>
    rw [Phrase.references, listReferences]
    exact ih.append ihrest
  | noStatements => exact .nil
  | lastStatement _ _ ih =>
    rw [Phrase.references, listReferences, listReferences, List.append_nil]
    exact ih
  | statement _ _ ih ihrest =>
    rw [Phrase.references, listReferences]
    exact ih.append ihrest

theorem LowersFunction.wired (h : LowersFunction ctx pool items) :
    Wired ctx pool
      ((Phrase.expr ctx.function.body).references ctx ctx.function.blocks.length) items := by
  obtain ⟨is, hlower, rfl⟩ := h.body
  have hstore : Wired ctx pool [] (storeItems ctx.function 0 ctx.function.signature.args.length) :=
    wired_map _ _ fun _ => rfl
  have hreserve : Wired ctx pool [] (if 0 < frameSize ctx.function then
      [Item.plain (.reserve (Int32.ofNat (frameSize ctx.function)))] else []) := wired_if _ rfl
  have hbody := hlower.wired.then (wired_returnItems (if ctx.function.body.hasValue then some 0 else none))
  exact .plain rfl (.plain rfl (hreserve.append (hstore.append hbody)))

end
end Codegen
end ScalarJit
