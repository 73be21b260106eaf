import ScalarJit.Proofs.Codegen.Item

/-! # What expressions become

`Lowers` relates a part of a function to its items. It says where values go, which registers are free
there, which variable an operand stands for, and how far branches reach. Everything that carries a
number of registers takes those below it as held: a value goes to the first register that is free. -/

namespace ScalarJit.Codegen

open X86 (Gpr Instr Mem Predicate SseOp Xmm)

def reg (k : Nat) : Xmm := ⟨⟨k % 16, Nat.mod_lt k (by decide)⟩⟩

def slotMem (slot : Nat) : Mem := ⟨.rbp, Int32.ofInt (-((8 * (slot + 1) : Nat) : Int))⟩

/-! ### Items of single steps -/

def constantItems (ctx : Context) (offset k : Nat) : List Item :=
  [.linked ctx.poolSection offset, .plain (.sseLoad .movSd (reg k) ⟨.rax, 0⟩)]

/-- Compares the values `k` and `k + 1`; `offset` is that of the literal one. -/
def comparisonItems (ctx : Context) (predicate : Predicate) (swapped : Bool) (offset k : Nat) :
    List Item :=
  (if swapped then
    [.plain (.compare (reg (k + 1)) (reg k) predicate), .plain (.sse .movApd (reg k) (reg (k + 1)))]
  else [.plain (.compare (reg k) (reg (k + 1)) predicate)]) ++
    (constantItems ctx offset (k + 1) ++ [.plain (.sse .andPd (reg k) (reg (k + 1)))])

def deliverItems : Option Nat → List Item
  | some k => if reg k ≠ Xmm.result then [.plain (.sse .movSd .result (reg k))] else []
  | none => [.plain (.sse .xorPd .result .result)]

def returnItems (value : Option Nat) : List Item :=
  deliverItems value ++ [.plain (.move .rsp .rbp), .plain (.pop .rbp), .plain .ret]

/-- Branches over a number of bytes when the value `k` is zero or no number. -/
def testItems (k distance : Nat) : List Item :=
  [.plain (.sse .xorPd (reg (k + 1)) (reg (k + 1))), .plain (.sse .uComISd (reg k) (reg (k + 1))),
    .plain (.jumpIfZero (Int32.ofNat distance))]

def conditionalItems (k : Nat) (condition onTrue onFalse : List Item) : List Item :=
  condition ++ (testItems k (sizeOf onTrue + 5) ++
    (onTrue ++ (.plain (.jump (Int32.ofNat (sizeOf onFalse))) :: onFalse)))

def missingItems (hasValue : Bool) (k : Nat) : List Item :=
  if hasValue then [.plain (.sse .xorPd (reg k) (reg k))] else []

/-! ### Items of calls -/

def spillItems (count : Nat) : List Item :=
  (List.range count).map fun i => .plain (.store (spillCell i) (reg i))

def reloadItems (count : Nat) : List Item :=
  (List.range count).map fun i => .plain (.sseLoad .movSd (reg i) (spillCell i))

def argumentItems (base count : Nat) : List Item :=
  (List.range count).map fun i => .plain (.sseLoad .movSd (reg i) (spillCell (base + i)))

variable [HostAddresses]

def targetItems : Target → List Item
  | .code id => [.linked id 0, .plain (.call .rax)]
  | .host f =>
    (if f.takesContext then [.plain (.moveImm .rdi HostFunction.contextAddress)] else []) ++
      [.plain (.moveImm .rax f.address), .plain (.call .rax)]

def resultItems (returns : Bool) (k : Nat) : List Item :=
  if returns ∧ reg k ≠ Xmm.result then [.plain (.sse .movSd (reg k) .result)] else []

/-- The bytes that a call needs on the stack for its arguments and the registers below them. -/
def callArea (held : Nat) : Nat := roundUp 16 (8 * held)

def callItems (t : Target) (k count : Nat) (returns : Bool) : List Item :=
  (if 0 < callArea (k + count) then [.plain (.reserve (Int32.ofNat (callArea (k + count))))] else []) ++
    (spillItems (k + count) ++ (argumentItems k count ++ (targetItems t ++ (resultItems returns k ++
      (reloadItems k ++ (if 0 < callArea (k + count) then
        [.plain (.free (Int32.ofNat (callArea (k + count))))] else []))))))

inductive Resolves (ctx : Context) (callee : String) : Target → Prop
  | code {id : SectionId} (h : ctx.sections.lookup callee = some id) : Resolves ctx callee (.code id)
  | host {i : Intrinsic} (hs : ctx.sections.lookup callee = none)
      (hi : Intrinsic.ofName? callee = some i) : Resolves ctx callee (.host (.intrinsic i))

/-! ### Items of expressions -/

/-- What has items: an expression, arguments that stay in registers, or the statements of a block. -/
inductive Phrase where
  | expr (e : Expr)
  | arguments (args : List Expr)
  | statements (hasValue : Bool) (list : List Expr)

def Phrase.count : Phrase → Nat
  | .expr e => e.hasValue.toNat
  | .arguments args => args.length
  | .statements hasValue _ => hasValue.toNat

/-- The items of a phrase, with blocks inside blocks to the given depth at most. -/
inductive Lowers (ctx : Context) (pool : Pool) : Nat → Nat → Phrase → List Item → Prop
  | literal {d k offset : Nat} {x : Double} (hk : k < 16) (hx : pool.Holds offset x) :
      Lowers ctx pool d k (.expr (.literal x)) (constantItems ctx offset k)
  | read {d k : Nat} {name : String} {var : VarRef} {ty : Ty} {mutable : Bool} {v : Variable}
      (hk : k < 16) (hv : declaration? ctx.function.blocks var = some v) :
      Lowers ctx pool d k (.expr (.read name var ty mutable))
        [.plain (.sseLoad .movSd (reg k) (slotMem v.slot))]
  | write {d k : Nat} {name : String} {var : VarRef} {value : Expr} {v : Variable} {is : List Item}
      (hk : k < 16) (hv : declaration? ctx.function.blocks var = some v)
      (hvalue : value.hasValue = true) (h : Lowers ctx pool d k (.expr value) is) :
      Lowers ctx pool d k (.expr (.write name var value))
        (is ++ [.plain (.store (slotMem v.slot) (reg k))])
  | bind {d k : Nat} {name : String} {var : VarRef} {value : Expr} {v : Variable} {is : List Item}
      (hk : k < 16) (hv : declaration? ctx.function.blocks var = some v)
      (hvalue : value.hasValue = true) (h : Lowers ctx pool d k (.expr value) is) :
      Lowers ctx pool d k (.expr (.bind name var value))
        (is ++ [.plain (.store (slotMem v.slot) (reg k))])
  | arithmetic {d k : Nat} {op : BinaryOp} {sse : SseOp} {lhs rhs : Expr} {is : List Item}
      (hk : k + 1 < 16) (hop : Lowering.of op = .arithmetic sse)
      (h : Lowers ctx pool d k (.arguments [lhs, rhs]) is) :
      Lowers ctx pool d k (.expr (.binary op lhs rhs))
        (is ++ [.plain (.sse sse (reg k) (reg (k + 1)))])
  | comparison {d k offset : Nat} {op : BinaryOp} {predicate : Predicate} {swapped : Bool}
      {lhs rhs : Expr} {is : List Item} (hk : k + 1 < 16)
      (hop : Lowering.of op = .comparison predicate swapped) (hx : pool.Holds offset .one)
      (h : Lowers ctx pool d k (.arguments [lhs, rhs]) is) :
      Lowers ctx pool d k (.expr (.binary op lhs rhs))
        (is ++ comparisonItems ctx predicate swapped offset k)
  | power {d k : Nat} {op : BinaryOp} {lhs rhs : Expr} {is : List Item} (hk : k + 1 < 16)
      (hop : Lowering.of op = .power) (h : Lowers ctx pool d k (.arguments [lhs, rhs]) is) :
      Lowers ctx pool d k (.expr (.binary op lhs rhs)) (is ++ callItems (.host .power) k 2 true)
  | plus {d k : Nat} {e : Expr} {is : List Item} (h : Lowers ctx pool d k (.expr e) is) :
      Lowers ctx pool d k (.expr (.unary .plus e)) is
  | minus {d k offset : Nat} {e : Expr} {is : List Item} (hk : k + 1 < 16)
      (hvalue : e.hasValue = true) (hx : pool.Holds offset .negativeZero)
      (h : Lowers ctx pool d k (.expr e) is) :
      Lowers ctx pool d k (.expr (.unary .minus e))
        (is ++ (constantItems ctx offset (k + 1) ++ [.plain (.sse .xorPd (reg k) (reg (k + 1)))]))
  | call {d k : Nat} {callee : String} {args : List Expr} {ty : Ty} {t : Target} {is : List Item}
      (ht : Resolves ctx callee t) (hargs : args.length ≤ maxArguments) (hk : k + args.length ≤ 16)
      (hr : ty ≠ .void → k < 16) (h : Lowers ctx pool d k (.arguments args) is) :
      Lowers ctx pool d k (.expr (.call callee args ty))
        (is ++ callItems t k args.length (!ty.isVoid))
  | leave {d k : Nat} : Lowers ctx pool d k (.expr .leave) (returnItems none)
  | leaveWith {d k : Nat} {value : Expr} {is : List Item} (hk : k < 16)
      (hvalue : value.hasValue = true) (h : Lowers ctx pool d k (.expr value) is) :
      Lowers ctx pool d k (.expr (.leaveWith value)) (is ++ returnItems (some k))
  | ifThen {d k : Nat} {condition onTrue : Expr} {cs ts : List Item} (hk : k + 1 < 16)
      (hvalue : condition.hasValue = true) (hts : sizeOf ts + 5 < 0x80000000)
      (hc : Lowers ctx pool d k (.expr condition) cs) (ht : Lowers ctx pool d k (.expr onTrue) ts) :
      Lowers ctx pool d k (.expr (.ifThen condition onTrue))
        (conditionalItems k cs ts (missingItems onTrue.hasValue k))
  | ifThenElse {d k : Nat} {condition onTrue onFalse : Expr} {cs ts fs : List Item} (hk : k + 1 < 16)
      (hvalue : condition.hasValue = true) (hsame : onFalse.hasValue = onTrue.hasValue)
      (hts : sizeOf ts + 5 < 0x80000000) (hfs : sizeOf fs < 0x80000000)
      (hc : Lowers ctx pool d k (.expr condition) cs) (ht : Lowers ctx pool d k (.expr onTrue) ts)
      (hf : Lowers ctx pool d k (.expr onFalse) fs) :
      Lowers ctx pool d k (.expr (.ifThenElse condition onTrue onFalse)) (conditionalItems k cs ts fs)
  | block {d k : Nat} {id : BlockId} {ty : Ty} {b : Block} {is : List Item}
      (hb : ctx.function.blocks[id]? = some b)
      (h : Lowers ctx pool d k (.statements (!ty.isVoid) b.statements) is) :
      Lowers ctx pool (d + 1) k (.expr (.block id ty)) is
  | noArguments {d k : Nat} : Lowers ctx pool d k (.arguments []) []
  | argument {d k : Nat} {e : Expr} {rest : List Expr} {is js : List Item} (hk : k < 16)
      (hvalue : e.hasValue = true) (h : Lowers ctx pool d k (.expr e) is)
      (hrest : Lowers ctx pool d (k + 1) (.arguments rest) js) :
      Lowers ctx pool d k (.arguments (e :: rest)) (is ++ js)
  | noStatements {d k : Nat} : Lowers ctx pool d k (.statements false []) []
  | lastStatement {d k : Nat} {e : Expr} {hasValue : Bool} {is : List Item}
      (hvalue : e.hasValue = hasValue) (h : Lowers ctx pool d k (.expr e) is) :
      Lowers ctx pool d k (.statements hasValue [e]) is
  | statement {d k : Nat} {e next : Expr} {rest : List Expr} {hasValue : Bool} {is js : List Item}
      (h : Lowers ctx pool d k (.expr e) is)
      (hrest : Lowers ctx pool d k (.statements hasValue (next :: rest)) js) :
      Lowers ctx pool d k (.statements hasValue (e :: next :: rest)) (is ++ js)

end ScalarJit.Codegen
