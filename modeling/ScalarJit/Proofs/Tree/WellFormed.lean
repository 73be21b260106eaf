import ScalarJit.Tree.Program

/-! # Well-formed trees

What the generator relies on: a reference leads to a declaration of its name in a block around it,
a block is named with its own type by its parent, a call matches a signature, and every part has the
type that its place asks for. A function is well-formed when all its statements are, its blocks form a
tree and its variables share out the slots of the frame. -/

namespace ScalarJit

structure Surroundings where
  blocks : List Block
  declares : String → Signature → Prop
  result : Ty

inductive Encloses (blocks : List Block) (outer : BlockId) : BlockId → Prop
  | self : Encloses blocks outer outer
  | inside {here parent : BlockId} {b : Block} (hb : blocks[here]? = some b)
      (hp : b.parent = some parent) (h : Encloses blocks outer parent) : Encloses blocks outer here

/-- An expression that stands in the block `here`. -/
inductive Expr.WellFormed (Γ : Surroundings) (here : BlockId) : Expr → Prop
  | literal (value : Double) : WellFormed Γ here (.literal value)
  | binary {op : BinaryOp} {lhs rhs : Expr} (hl : WellFormed Γ here lhs)
      (hr : WellFormed Γ here rhs) (hv : lhs.ty ≠ .void) (hty : lhs.ty = rhs.ty) :
      WellFormed Γ here (.binary op lhs rhs)
  | unary {op : UnaryOp} {operand : Expr} (h : WellFormed Γ here operand)
      (hv : operand.ty ≠ .void) : WellFormed Γ here (.unary op operand)
  | read {name : String} {var : VarRef} {v : Variable} (hd : declaration? Γ.blocks var = some v)
      (hn : v.name = name) (he : Encloses Γ.blocks var.block here) :
      WellFormed Γ here (.read name var v.ty v.mutable)
  | write {name : String} {var : VarRef} {v : Variable} {value : Expr}
      (hd : declaration? Γ.blocks var = some v) (hn : v.name = name)
      (he : Encloses Γ.blocks var.block here) (hm : v.mutable = true) (hty : value.ty = v.ty)
      (h : WellFormed Γ here value) : WellFormed Γ here (.write name var value)
  | bind {name : String} {var : VarRef} {v : Variable} {value : Expr}
      (hd : declaration? Γ.blocks var = some v) (hn : v.name = name) (he : var.block = here)
      (hty : value.ty = v.ty) (hv : v.ty ≠ .void) (h : WellFormed Γ here value) :
      WellFormed Γ here (.bind name var value)
  | call {callee : String} {args : List Expr} {signature : Signature}
      (hs : Γ.declares callee signature) (hty : signature.args.map (·.2) = args.map Expr.ty)
      (h : ∀ arg ∈ args, WellFormed Γ here arg) :
      WellFormed Γ here (.call callee args signature.result)
  | leave (hr : Γ.result = .void) : WellFormed Γ here .leave
  | leaveWith {value : Expr} (h : WellFormed Γ here value) (hr : value.ty = Γ.result) :
      WellFormed Γ here (.leaveWith value)
  | ifThen {condition onTrue : Expr} (hc : WellFormed Γ here condition)
      (ht : WellFormed Γ here onTrue) (hv : condition.ty ≠ .void) :
      WellFormed Γ here (.ifThen condition onTrue)
  | ifThenElse {condition onTrue onFalse : Expr} (hc : WellFormed Γ here condition)
      (ht : WellFormed Γ here onTrue) (hf : WellFormed Γ here onFalse)
      (hv : condition.ty ≠ .void) (hty : onFalse.ty = onTrue.ty)
      (hcat : onFalse.category = onTrue.category) :
      WellFormed Γ here (.ifThenElse condition onTrue onFalse)
  | block {id : BlockId} {b : Block} (hb : Γ.blocks[id]? = some b) (hp : b.parent = some here)
      (hlt : here < id) : WellFormed Γ here (.block id b.ty)

def Program.signature? (p : Program) (name : String) : Option Signature :=
  match p.function? name with
  | some f => some f.signature
  | none => p.externs.lookup name

def Program.Declares (p : Program) (name : String) (signature : Signature) : Prop :=
  p.signature? name = some signature

def Function.surroundings (declares : String → Signature → Prop) (f : Function) : Surroundings where
  blocks := f.blocks
  declares := declares
  result := f.signature.result

def slotsOf (blocks : List Block) : List Nat := (blocks.flatMap (·.locals)).map (·.slot)

def declaredAs (args : List (String × Ty)) (locals : List Variable) : Prop :=
  (locals.take args.length).map (fun v => (v.name, v.ty, v.mutable)) =
    args.map fun (name, ty) => (name, ty, false)

structure Function.WellFormed (declares : String → Signature → Prop) (f : Function) : Prop where
  /-- The outermost block has no parent and starts with the arguments. -/
  root : ∃ b, f.blocks[rootBlock]? = some b ∧ b.parent = none ∧
    declaredAs f.signature.args b.locals ∧ f.body = .block rootBlock b.ty
  /-- All other blocks come after their parent. -/
  parents : ∀ (id : Nat) (b : Block), 0 < id → f.blocks[id]? = some b →
    ∃ parent < id, b.parent = some parent
  /-- Each slot of the frame belongs to one variable. -/
  slots : (slotsOf f.blocks).Perm (List.range f.slots)
  statements : ∀ (id : Nat) (b : Block), f.blocks[id]? = some b → ∀ e ∈ b.statements,
    e.useful = true ∧ e.WellFormed (f.surroundings declares) id

/-- All functions are well-formed, and no name is declared twice. -/
structure Program.Ordered (p : Program) : Prop where
  functions : ∀ entry ∈ p.functions, entry.2.WellFormed p.Declares
  names : (p.functions.map (·.1) ++ p.externs.map (·.1)).Nodup

/-! ### Growing arenas -/

/-- Blocks are added at the end, and of the blocks there were only `id` gains variables and
statements. -/
def Grows (id : BlockId) (before after : List Block) : Prop :=
  ∀ (i : Nat) (b : Block), before[i]? = some b → ∃ b', after[i]? = some b' ∧
    b'.parent = b.parent ∧ b.locals <+: b'.locals ∧ b.statements <+: b'.statements ∧
    (i ≠ id → b' = b)

namespace Grows

variable {id : BlockId} {before after : List Block}

theorem refl (id : BlockId) (blocks : List Block) : Grows id blocks blocks :=
  fun _ b hb => ⟨b, hb, rfl, List.prefix_rfl, List.prefix_rfl, fun _ => rfl⟩

theorem trans {last : List Block} (h : Grows id before after) (h' : Grows id after last) :
    Grows id before last := by
  intro i b hb
  obtain ⟨b₁, hb₁, hp₁, hl₁, hs₁, he₁⟩ := h i b hb
  obtain ⟨b₂, hb₂, hp₂, hl₂, hs₂, he₂⟩ := h' i b₁ hb₁
  exact ⟨b₂, hb₂, hp₂.trans hp₁, hl₁.trans hl₂, hs₁.trans hs₂, fun hi => (he₂ hi).trans (he₁ hi)⟩

theorem modify (id : BlockId) (blocks : List Block) {f : Block → Block}
    (hp : ∀ b, (f b).parent = b.parent) (hl : ∀ b, b.locals <+: (f b).locals)
    (hs : ∀ b, b.statements <+: (f b).statements) : Grows id blocks (blocks.modify id f) := by
  intro i b hb
  by_cases hi : i = id
  · subst hi
    exact ⟨f b, by simp [hb], hp b, hl b, hs b, fun h => absurd rfl h⟩
  · have hb' : (blocks.modify id f)[i]? = some b := by
      simp [Ne.symm hi, hb]
    exact ⟨b, hb', rfl, List.prefix_rfl, List.prefix_rfl, fun _ => rfl⟩

theorem length_le (h : Grows id before after) : before.length ≤ after.length := by
  apply Nat.le_of_not_lt
  intro hlt
  obtain ⟨b', hb', -⟩ := h _ _ (List.getElem?_eq_getElem hlt)
  simp at hb'

theorem getElem?_of_ne (h : Grows id before after) {i : BlockId} (hi : i ≠ id)
    {b : Block} (hb : before[i]? = some b) : after[i]? = some b := by
  obtain ⟨b', hb', -, -, -, he⟩ := h i b hb
  rw [hb', he hi]

theorem declaration? (h : Grows id before after) {var : VarRef} {v : Variable}
    (hd : ScalarJit.declaration? before var = some v) :
    ScalarJit.declaration? after var = some v := by
  obtain ⟨b, hb, hv⟩ := Option.bind_eq_some_iff.1 hd
  obtain ⟨b', hb', -, ⟨added, hl⟩, -⟩ := h _ _ hb
  have hi : var.index < b.locals.length := (List.getElem?_eq_some_iff.1 hv).1
  rw [ScalarJit.declaration?, hb', Option.bind_some, ← hl, List.getElem?_append_left hi, hv]

theorem encloses (h : Grows id before after) {outer here : BlockId}
    (he : Encloses before outer here) : Encloses after outer here := by
  induction he with
  | self => exact .self
  | inside hb hp _ ih =>
    obtain ⟨b', hb', hp', -⟩ := h _ _ hb
    exact .inside hb' (hp'.trans hp) ih

end Grows

/-! ### Slots -/

theorem slotsOf_append_empty (blocks : List Block) (parent : Option BlockId) :
    slotsOf (blocks ++ [Block.empty parent]) = slotsOf blocks := by
  simp [slotsOf, Block.empty]

theorem slotsOf_modify_statements (blocks : List Block) (id : Nat) (e : Expr) :
    slotsOf (blocks.modify id fun b => { b with statements := b.statements ++ [e] }) =
      slotsOf blocks := by
  induction blocks generalizing id with
  | nil => cases id <;> rfl
  | cons b rest ih =>
    cases id with
    | zero => rfl
    | succ id =>
      have hrest := ih id
      simp only [slotsOf, List.modify_succ_cons, List.flatMap_cons, List.map_append] at hrest ⊢
      rw [hrest]

theorem slotsOf_modify_locals {blocks : List Block} {id : Nat} (hid : id < blocks.length)
    (v : Variable) :
    (slotsOf (blocks.modify id fun b => { b with locals := b.locals ++ [v] })).Perm
      (slotsOf blocks ++ [v.slot]) := by
  induction blocks generalizing id with
  | nil => simp at hid
  | cons b rest ih =>
    cases id with
    | zero =>
      simp only [slotsOf, List.modify_zero_cons, List.flatMap_cons, List.map_append, List.map_cons,
        List.map_nil, List.append_assoc]
      exact List.perm_append_comm.append_left _
    | succ id =>
      have hrest := ih (by simpa using hid)
      simp only [slotsOf, List.modify_succ_cons, List.flatMap_cons, List.map_append,
        List.append_assoc] at hrest ⊢
      exact hrest.append_left _

/-- A block names only blocks after it, so that an expression keeps its meaning while the block that
it stands in, or one before that, gains variables and statements. -/
theorem Expr.WellFormed.grows {Γ Δ : Surroundings} {id here : BlockId} {e : Expr}
    (he : e.WellFormed Γ here) (hid : id ≤ here) (hb : Grows id Γ.blocks Δ.blocks)
    (hd : ∀ name signature, Γ.declares name signature → Δ.declares name signature)
    (hr : Δ.result = Γ.result) : e.WellFormed Δ here := by
  induction he with
  | literal value => exact .literal value
  | binary _ _ hv hty ihl ihr => exact .binary ihl ihr hv hty
  | unary _ hv ih => exact .unary ih hv
  | read hv hn henc => exact .read (hb.declaration? hv) hn (hb.encloses henc)
  | write hv hn henc hm hty _ ih =>
    exact .write (hb.declaration? hv) hn (hb.encloses henc) hm hty ih
  | bind hv hn henc hty hne _ ih => exact .bind (hb.declaration? hv) hn henc hty hne ih
  | call hs hty _ ih => exact .call (hd _ _ hs) hty ih
  | leave h => exact .leave (hr.trans h)
  | leaveWith _ h ih => exact .leaveWith ih (h.trans hr.symm)
  | ifThen _ _ hv ihc iht => exact .ifThen ihc iht hv
  | ifThenElse _ _ _ hv hty hcat ihc iht ihf => exact .ifThenElse ihc iht ihf hv hty hcat
  | block hblock hp hlt =>
    have hne := Nat.ne_of_gt (Nat.lt_of_le_of_lt hid hlt)
    exact .block (hb.getElem?_of_ne hne hblock) hp hlt

theorem Function.WellFormed.mono {declares declares' : String → Signature → Prop} {f : Function}
    (hf : f.WellFormed declares)
    (hd : ∀ name signature, declares name signature → declares' name signature) :
    f.WellFormed declares' where
  root := hf.root
  parents := hf.parents
  slots := hf.slots
  statements := by
    intro id b hb e he
    obtain ⟨hu, hw⟩ := hf.statements id b hb e he
    exact ⟨hu, hw.grows (Nat.le_refl id) (.refl id _) hd rfl⟩

/-! ### One declaration after another -/

theorem not_mem_names {α : Type} {entries : List (Named α)} {name : String}
    (h : entries.lookup name = none) : name ∉ entries.map (·.1) := by
  intro hmem
  obtain ⟨entry, hentry, rfl⟩ := List.mem_map.1 hmem
  simpa using List.lookup_eq_none_iff.1 h entry hentry

namespace Program

variable {p q : Program} {name callee : String} {signature : Signature}

theorem signature?_eq_none : p.signature? name = none ↔
    p.functions.lookup name = none ∧ p.externs.lookup name = none := by
  unfold signature? function?
  cases p.functions.lookup name <;> simp

theorem not_mem_of_signature? (h : p.signature? name = none) :
    name ∉ p.functions.map (·.1) ++ p.externs.map (·.1) := by
  obtain ⟨hf, he⟩ := signature?_eq_none.1 h
  rw [List.mem_append]
  exact fun hmem => hmem.elim (not_mem_names hf) (not_mem_names he)

/-- What one declaration adds: a function, which may call itself, or a host function. -/
inductive Adds (p : Program) : Program → Prop
  | function {name : String} {f : Function} (hnew : p.signature? name = none)
      (hf : f.WellFormed fun callee signature =>
        p.Declares callee signature ∨ callee = name ∧ signature = f.signature) :
      Adds p { p with functions := p.functions ++ [(name, f)] }
  | outside {name : String} {signature : Signature} (hnew : p.signature? name = none) :
      Adds p { p with externs := p.externs ++ [(name, signature)] }

theorem signature?_append_function {f : Function} (hnew : p.signature? name = none) :
    { p with functions := p.functions ++ [(name, f)] }.signature? callee =
      if callee = name then some f.signature else p.signature? callee := by
  obtain ⟨hf, he⟩ := signature?_eq_none.1 hnew
  simp only [signature?, function?, List.lookup_append, List.lookup_cons, List.lookup_nil]
  by_cases hc : callee = name
  · subst hc
    simp [hf]
  · have hne : (callee == name) = false := by simpa using hc
    simp [hne, hc]

theorem signature?_append_outside (hnew : p.signature? name = none) :
    { p with externs := p.externs ++ [(name, signature)] }.signature? callee =
      if callee = name then some signature else p.signature? callee := by
  obtain ⟨hf, he⟩ := signature?_eq_none.1 hnew
  simp only [signature?, function?, List.lookup_append, List.lookup_cons, List.lookup_nil]
  by_cases hc : callee = name
  · subst hc
    simp [hf, he]
  · have hne : (callee == name) = false := by simpa using hc
    simp [hne, hc]

theorem Adds.declares (h : p.Adds q) (hd : p.Declares callee signature) :
    q.Declares callee signature := by
  have hold : ∀ {name : String}, p.signature? name = none → callee ≠ name := by
    intro name hnew heq
    rw [← heq, show p.signature? callee = some signature from hd] at hnew
    cases hnew
  unfold Declares at hd ⊢
  cases h with
  | function hnew _ => rw [signature?_append_function hnew, if_neg (hold hnew), hd]
  | outside hnew => rw [signature?_append_outside hnew, if_neg (hold hnew), hd]

theorem Adds.ordered (h : p.Ordered) (hadd : p.Adds q) : q.Ordered := by
  have hlater := fun callee signature => @Adds.declares p q callee signature hadd
  cases hadd with
  | @function name f hnew hf =>
    constructor
    · intro entry hentry
      rcases List.mem_append.1 hentry with hmem | hmem
      · exact (h.functions entry hmem).mono hlater
      · rw [List.mem_singleton.1 hmem]
        apply hf.mono
        rintro callee signature (hd | ⟨rfl, rfl⟩)
        · exact hlater callee signature hd
        · rw [Declares, signature?_append_function hnew, if_pos rfl]
    · have hfresh := not_mem_of_signature? hnew
      have hperm : ((p.functions ++ [(name, f)]).map (·.1) ++ p.externs.map (·.1)).Perm
          (name :: (p.functions.map (·.1) ++ p.externs.map (·.1))) := by
        simp
      exact hperm.nodup_iff.2 (List.nodup_cons.2 ⟨hfresh, h.names⟩)
  | @outside name signature hnew =>
    constructor
    · exact fun entry hentry => (h.functions entry hentry).mono hlater
    · have hfresh := not_mem_of_signature? hnew
      have hperm : (p.functions.map (·.1) ++ (p.externs ++ [(name, signature)]).map (·.1)).Perm
          (name :: (p.functions.map (·.1) ++ p.externs.map (·.1))) := by
        simp only [List.map_append, List.map_cons, List.map_nil, ← List.append_assoc]
        exact List.perm_append_singleton name _
      exact hperm.nodup_iff.2 (List.nodup_cons.2 ⟨hfresh, h.names⟩)

inductive Built : Program → Prop
  | nothing : Built ⟨[], [], []⟩
  | add {p q : Program} (h : Built p) (hadd : p.Adds q) : Built q

theorem Built.ordered (h : p.Built) : p.Ordered := by
  induction h with
  | nothing => exact ⟨fun _ hentry => (by cases hentry), List.nodup_nil⟩
  | add _ hadd ih => exact hadd.ordered ih

end Program
end ScalarJit
