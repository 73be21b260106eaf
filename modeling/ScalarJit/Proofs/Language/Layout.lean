import ScalarJit.Proofs.Grammar.Arena
import ScalarJit.Proofs.Language.Derivation
import ScalarJit.Proofs.Tree.Scoping
import ScalarJit.Proofs.Tree.Traversal

/-! # How derivations fill the arena

What is derived without errors goes into the arena in the order of its tokens: an expression adds
blocks behind those there are, a statement may add a variable to the block that is open, and a block
that is closed has all its statements. So expressions cover the blocks that came with them. -/

namespace ScalarJit

/-! ### Visible variables -/

theorem Encloses.le {blocks : List Block} {outer here : BlockId} (hparents : ParentsFirst blocks)
    (h : Encloses blocks outer here) : outer ≤ here := by
  induction h with
  | self => exact Nat.le_refl _
  | inside hb hp _ ih => exact Nat.le_trans ih (Nat.le_of_lt (hparents _ _ _ hb hp))

theorem Encloses.congr {blocks others : List Block} {outer here : BlockId}
    (hparents : ParentsFirst blocks)
    (hsame : ∀ i : Nat, i ≤ here → others[i]?.map (·.parent) = blocks[i]?.map (·.parent))
    (h : Encloses blocks outer here) : Encloses others outer here := by
  induction h with
  | self => exact .self
  | @inside here parent b hb hp _ ih =>
    have hlt := hparents _ _ _ hb hp
    have hparent := hsame here (Nat.le_refl _)
    rw [hb, Option.map_some, hp] at hparent
    obtain ⟨b', hb', hp'⟩ := Option.map_eq_some_iff.1 hparent
    exact .inside hb' hp' (ih fun i hi => hsame i (Nat.le_trans hi (Nat.le_of_lt hlt)))

namespace Grammar
namespace Scope

/-- A block is open, and blocks come after their parents. -/
structure Open (σ : Scope) : Prop where
  current : σ.current = some σ.here
  lt : σ.here < σ.blocks.length
  parents : ∀ (i : Nat) (b : Block) (p : BlockId), σ.blocks[i]? = some b → b.parent = some p → p < i

def visible (σ : Scope) : Set VarRef :=
  {var | Encloses σ.blocks var.block σ.here ∧ (declaration? σ.blocks var).isSome}

variable {σ σ' : Scope}

theorem visible_congr (h : σ.Open) (h' : σ'.Open) (hcurrent : σ'.current = σ.current)
    (hparents : ∀ i : Nat, i ≤ σ.here → σ'.blocks[i]?.map (·.parent) = σ.blocks[i]?.map (·.parent))
    (hlocals : ∀ var : VarRef, var.block ≤ σ.here →
      (declaration? σ'.blocks var).isSome = (declaration? σ.blocks var).isSome) :
    σ'.visible = σ.visible := by
  have hhere : σ'.here = σ.here := by rw [here, here, hcurrent]
  ext var
  simp only [visible, Set.mem_ofPred_eq, hhere]
  constructor
  · rintro ⟨henc, hsome⟩
    have henc := henc.congr h'.parents fun i hi => (hparents i hi).symm
    exact ⟨henc, by rwa [← hlocals var (henc.le h.parents)]⟩
  · rintro ⟨henc, hsome⟩
    exact ⟨henc.congr h.parents hparents, by rwa [hlocals var (henc.le h.parents)]⟩

theorem getElem?_openBlock_of_lt {i : Nat} (hi : i < σ.blocks.length) :
    σ.openBlock.blocks[i]? = σ.blocks[i]? := List.getElem?_append_left hi

theorem getElem?_openBlock (σ : Scope) :
    σ.openBlock.blocks[σ.blocks.length]? = some (Block.empty σ.current) := by
  simp [openBlock]

theorem length_openBlock (σ : Scope) : σ.openBlock.blocks.length = σ.blocks.length + 1 := by
  simp [openBlock]

theorem Open.openBlock (h : σ.Open) : σ.openBlock.Open where
  current := rfl
  lt := by
    rw [length_openBlock]
    exact Nat.lt_succ_self _
  parents := by
    intro i b p hb hp
    by_cases hi : i < σ.blocks.length
    · exact h.parents i b p (by rwa [getElem?_openBlock_of_lt hi] at hb) hp
    · have hlt := (List.getElem?_eq_some_iff.1 hb).1
      rw [length_openBlock] at hlt
      obtain rfl : i = σ.blocks.length := by omega
      rw [getElem?_openBlock, Option.some_inj] at hb
      rw [← hb, Block.empty, h.current, Option.some_inj] at hp
      exact hp ▸ h.lt

theorem visible_openBlock (h : σ.Open) : σ.openBlock.visible = σ.visible := by
  have hold : ∀ {i : Nat}, i ≤ σ.here → σ.openBlock.blocks[i]? = σ.blocks[i]? :=
    fun hi => getElem?_openBlock_of_lt (Nat.lt_of_le_of_lt hi h.lt)
  have hencloses : ∀ {outer : BlockId},
      Encloses σ.openBlock.blocks outer σ.here ↔ Encloses σ.blocks outer σ.here := by
    intro outer
    constructor
    · exact fun henc => henc.congr h.openBlock.parents fun i hi => by rw [hold hi]
    · exact fun henc => henc.congr h.parents fun i hi => by rw [hold hi]
  have hhere : σ.openBlock.here = σ.blocks.length := rfl
  ext ⟨block, index⟩
  constructor
  · rintro ⟨henc, hsome⟩
    rw [hhere] at henc
    cases henc with
    | self =>
      -- the new block has no variables
      simp [declaration?, getElem?_openBlock, Block.empty] at hsome
    | inside hb hp henc =>
      rw [getElem?_openBlock, Option.some_inj] at hb
      rw [← hb, Block.empty, h.current, Option.some_inj] at hp
      rw [← hp, hencloses] at henc
      rw [declaration?, hold (henc.le h.parents)] at hsome
      exact ⟨henc, hsome⟩
  · rintro ⟨henc, hsome⟩
    refine ⟨.inside (getElem?_openBlock σ) h.current (hencloses.2 henc), ?_⟩
    rw [declaration?, hold (henc.le h.parents)]
    exact hsome

/-- What is changed in one block only, apart from its parent, leaves the scope open. -/
theorem Open.modify (h : σ.Open) {id : BlockId} {f : Block → Block} {slots : Nat}
    (hparent : ∀ b, (f b).parent = b.parent) :
    ({ σ with blocks := σ.blocks.modify id f, slots := slots } : Scope).Open where
  current := h.current
  lt := by
    rw [List.length_modify]
    exact h.lt
  parents := by
    intro i b p hb hp
    simp only [List.getElem?_modify, Option.map_eq_map, Option.map_eq_some_iff] at hb
    obtain ⟨b', hb', rfl⟩ := hb
    refine h.parents i b' p hb' ?_
    split at hp
    · rwa [hparent] at hp
    · exact hp

theorem parent_modify (blocks : List Block) (id i : Nat) {f : Block → Block}
    (hparent : ∀ b, (f b).parent = b.parent) :
    (blocks.modify id f)[i]?.map (·.parent) = blocks[i]?.map (·.parent) := by
  rw [List.getElem?_modify, Option.map_eq_map, Option.map_map]
  congr 1
  funext b
  simp only [Function.comp]
  split
  · exact hparent b
  · rfl

theorem visible_addStatement (h : σ.Open) (id : BlockId) (e : Expr) :
    (σ.addStatement id e).visible = σ.visible := by
  refine visible_congr h (h.modify fun _ => rfl) rfl
    (fun i _ => parent_modify σ.blocks id i fun _ => rfl) fun var _ => ?_
  simp only [addStatement, declaration?, List.getElem?_modify]
  cases σ.blocks[var.block]? with
  | none => rfl
  | some b => by_cases hid : id = var.block <;> simp [hid]

theorem getElem?_declare {b : Block} (hb : σ.blocks[σ.here]? = some b) (name : String) (ty : Ty)
    (mutable : Bool) : (σ.declare name ty mutable).blocks[σ.here]? =
      some { b with locals := b.locals ++ [⟨name, ty, mutable, σ.slots⟩] } := by
  simp [declare, hb]

theorem nextVar_eq {b : Block} (hb : σ.blocks[σ.here]? = some b) :
    σ.nextVar = ⟨σ.here, b.locals.length⟩ := by
  simp [nextVar, hb]

theorem visible_declare (h : σ.Open) (name : String) (ty : Ty) (mutable : Bool) :
    (σ.declare name ty mutable).visible = σ.visible ∪ {σ.nextVar} := by
  obtain ⟨b, hb⟩ : ∃ b, σ.blocks[σ.here]? = some b := ⟨_, List.getElem?_eq_getElem h.lt⟩
  have hopen : (σ.declare name ty mutable).Open := h.modify fun _ => rfl
  have hencloses : ∀ outer, Encloses (σ.declare name ty mutable).blocks outer σ.here ↔
      Encloses σ.blocks outer σ.here := by
    intro outer
    have hparents : ∀ i : Nat, (σ.declare name ty mutable).blocks[i]?.map (·.parent) =
        σ.blocks[i]?.map (·.parent) := fun i => parent_modify σ.blocks σ.here i fun _ => rfl
    constructor
    · exact fun henc => henc.congr hopen.parents fun i _ => (hparents i).symm
    · exact fun henc => henc.congr h.parents fun i _ => hparents i
  have hlocals : ∀ var : VarRef, (declaration? (σ.declare name ty mutable).blocks var).isSome ↔
      (declaration? σ.blocks var).isSome ∨ var = σ.nextVar := by
    rintro ⟨block, index⟩
    rw [nextVar_eq hb]
    by_cases hblock : block = σ.here
    · subst hblock
      simp [declaration?, getElem?_declare hb, hb]
      omega
    · simp [declaration?, declare, Ne.symm hblock, hblock]
  ext var
  show Encloses _ _ _ ∧ _ ↔ (Encloses _ _ _ ∧ _) ∨ var = _
  rw [show (σ.declare name ty mutable).here = σ.here from rfl, hencloses, hlocals]
  constructor
  · rintro ⟨henc, hsome | rfl⟩
    · exact .inl ⟨henc, hsome⟩
    · exact .inr rfl
  · rintro (⟨henc, hsome⟩ | rfl)
    · exact ⟨henc, .inl hsome⟩
    · exact ⟨.self, .inr rfl⟩

end Scope

/-! ### What is added -/

/-- Expressions that leave the blocks there are as they are, and cover those they add. -/
structure Extends (σ : Scope) (es : List Expr) (σ' : Scope) : Prop where
  opened : σ'.Open
  kept : ∀ i : Nat, i < σ.blocks.length → σ'.blocks[i]? = σ.blocks[i]?
  current : σ'.current = σ.current
  plain : ∀ e ∈ es, e.isStatement = false
  covers : Covers σ'.blocks σ.visible es σ.blocks.length σ'.blocks.length

/-- Statements of the block `id` that bind its next variables, leave the other blocks there are as
they are and cover those they add. The statements `added` are already in the block. -/
structure Fills (id : BlockId) (σ : Scope) (es added : List Expr) (σ' : Scope) : Prop where
  opened : σ'.Open
  kept : ∀ i : Nat, i ≠ id → i < σ.blocks.length → σ'.blocks[i]? = σ.blocks[i]?
  current : σ'.current = σ.current
  block : ∀ b, σ.blocks[id]? = some b → ∃ b', σ'.blocks[id]? = some b' ∧ b'.parent = b.parent ∧
    b'.statements = b.statements ++ added ∧ b.locals.length ≤ b'.locals.length ∧
    es.flatMap Expr.bound =
      (List.range' b.locals.length (b'.locals.length - b.locals.length)).map (VarRef.mk id)
  visible : σ'.visible = boundAfter σ.visible es
  covers : Covers σ'.blocks σ.visible es σ.blocks.length σ'.blocks.length

section
variable {σ σ₁ σ' : Scope} {es fs added more : List Expr} {e : Expr} {id : Nat}

namespace Extends

theorem refl (h : σ.Open) : Extends σ [] σ := ⟨h, fun _ _ => rfl, rfl, by simp, .done⟩

theorem visible (hσ : σ.Open) (h : Extends σ es σ') : σ'.visible = σ.visible := by
  refine Scope.visible_congr hσ h.opened h.current (fun i hi => ?_) fun var hvar => ?_
  · rw [h.kept i (Nat.lt_of_le_of_lt hi hσ.lt)]
  · rw [declaration?, declaration?, h.kept _ (Nat.lt_of_le_of_lt hvar hσ.lt)]

theorem trans (hσ : σ.Open) (h : Extends σ es σ₁) (h' : Extends σ₁ fs σ') :
    Extends σ (es ++ fs) σ' where
  opened := h'.opened
  kept := fun i hi => (h'.kept i (Nat.lt_of_lt_of_le hi h.covers.le)).trans (h.kept i hi)
  current := h'.current.trans h.current
  plain := List.forall_mem_append.2 ⟨h.plain, h'.plain⟩
  covers := by
    have hfirst := h.covers.congr fun i _ hi => h'.kept i hi
    have hsecond := h'.covers
    rw [h.visible hσ, ← @boundAfter_of_plain σ.visible _ h.plain] at hsecond
    exact hfirst.append hsecond

theorem node (h : Extends σ e.children σ') (hnamed : e.named = []) (hreads : e.reads = [])
    (hplain : e.isStatement = false) : Extends σ [e] σ' where
  opened := h.opened
  kept := h.kept
  current := h.current
  plain := by simpa using hplain
  covers := .cons hnamed (by simp [hreads]) h.plain h.covers .done

theorem tail (h : Extends σ (e :: es) σ') (hnamed : e.named = []) (hchildren : e.children = []) :
    Extends σ es σ' where
  opened := h.opened
  kept := h.kept
  current := h.current
  plain := fun e' he' => h.plain e' (List.mem_cons_of_mem _ he')
  covers := by
    have hcovers := h.covers
    have hplain : boundAfter σ.visible [e] = σ.visible :=
      boundAfter_of_plain (by simpa using h.plain e List.mem_cons_self)
    cases hcovers with
    | cons _ _ _ hc hr =>
      rw [hchildren] at hc
      rw [hplain] at hr
      cases hc
      exact hr
    | block => cases hnamed

theorem block (hσ : σ.Open) (h : Fills σ.blocks.length σ.openBlock es es σ₁) :
    Extends σ [σ₁.blockExpr σ.blocks.length] (σ₁.closeBlock σ.blocks.length) := by
  obtain ⟨b, hb, hparent, hstatements, -, hbound⟩ := h.block _ (Scope.getElem?_openBlock σ)
  have hcovers := h.covers
  rw [Scope.visible_openBlock hσ, Scope.length_openBlock] at hcovers
  have hcurrent : (σ₁.closeBlock σ.blocks.length).current = σ.current := by
    rw [Scope.closeBlock, hb, Option.bind_some, hparent]
    rfl
  refine ⟨⟨?_, ?_, h.opened.parents⟩, ?_, hcurrent, ?_, ?_⟩
  · rw [Scope.here, hcurrent, hσ.current]
    rfl
  · rw [Scope.here, hcurrent]
    exact Nat.lt_of_lt_of_le hσ.lt (Nat.le_trans (Nat.le_succ _) hcovers.le)
  · intro i hi
    have hkept := h.kept i (Nat.ne_of_lt hi) (by rw [Scope.length_openBlock]; omega)
    rwa [Scope.getElem?_openBlock_of_lt hi] at hkept
  · simp [Scope.blockExpr, Expr.isStatement]
  · rw [Block.empty, List.nil_append] at hstatements
    refine .block hb ?_ (hstatements ▸ hcovers) .done
    rw [hstatements, hbound, List.range_eq_range']
    rfl

end Extends

namespace Fills

theorem here_eq (h : Fills id σ es added σ') : σ'.here = σ.here := by
  rw [Scope.here, Scope.here, h.current]

theorem refl (h : σ.Open) : Fills id σ [] [] σ where
  opened := h
  kept := fun _ _ _ => rfl
  current := rfl
  block := fun b hb => ⟨b, hb, rfl, by simp, Nat.le_refl _, by simp⟩
  visible := by simp
  covers := .done

theorem trans (hid : id < σ.blocks.length) (h : Fills id σ es added σ₁)
    (h' : Fills id σ₁ fs more σ') : Fills id σ (es ++ fs) (added ++ more) σ' where
  opened := h'.opened
  kept := fun i hne hi =>
    (h'.kept i hne (Nat.lt_of_lt_of_le hi h.covers.le)).trans (h.kept i hne hi)
  current := h'.current.trans h.current
  block := by
    intro b hb
    obtain ⟨b₁, hb₁, hp₁, hs₁, hl₁, hbound₁⟩ := h.block b hb
    obtain ⟨b₂, hb₂, hp₂, hs₂, hl₂, hbound₂⟩ := h'.block b₁ hb₁
    refine ⟨b₂, hb₂, hp₂.trans hp₁, ?_, Nat.le_trans hl₁ hl₂, ?_⟩
    · rw [hs₂, hs₁, List.append_assoc]
    · rw [List.flatMap_append, hbound₁, hbound₂, ← List.map_append, ← Covers.range'_split hl₁ hl₂]
  visible := by rw [h'.visible, h.visible, boundAfter_append]
  covers := by
    have hfirst := h.covers.congr fun i hlo hi => h'.kept i (by omega) hi
    have hsecond := h'.covers
    rw [h.visible] at hsecond
    exact hfirst.append hsecond

theorem of_extends (hσ : σ.Open) (h : Extends σ es σ') (hbound : e.bound = [])
    (hcovers : Covers σ'.blocks σ.visible [e] σ.blocks.length σ'.blocks.length) :
    Fills σ.here σ [e] [] σ' where
  opened := h.opened
  kept := fun i _ hi => h.kept i hi
  current := h.current
  block := fun b hb => ⟨b, (h.kept _ hσ.lt).trans hb, rfl, by simp, Nat.le_refl _, by simp [hbound]⟩
  visible := by
    rw [h.visible hσ]
    simp [boundAfter, hbound]
  covers := hcovers

theorem bind (hσ : σ.Open) {value : Expr} (h : Extends σ [value] σ₁) (name : String) (mutable : Bool) :
    Fills σ.here σ [.bind name σ₁.nextVar value] [] (σ₁.declare name value.ty mutable) := by
  have hhere : σ₁.here = σ.here := by rw [Scope.here, Scope.here, h.current]
  have hothers : ∀ i : Nat, i ≠ σ.here →
      (σ₁.declare name value.ty mutable).blocks[i]? = σ₁.blocks[i]? := by
    intro i hi
    simp [Scope.declare, hhere, Ne.symm hi]
  have hlength : (σ₁.declare name value.ty mutable).blocks.length = σ₁.blocks.length := by
    rw [Scope.declare, List.length_modify]
  constructor
  · exact h.opened.modify fun _ => rfl
  · exact fun i hne hi => (hothers i hne).trans (h.kept i hi)
  · exact h.current
  · intro b hb
    have hb₁ : σ₁.blocks[σ₁.here]? = some b := by rw [hhere, h.kept _ hσ.lt, hb]
    have hb' := Scope.getElem?_declare hb₁ name value.ty mutable
    rw [hhere] at hb'
    refine ⟨_, hb', rfl, by simp, by simp, ?_⟩
    rw [Scope.nextVar_eq hb₁, hhere]
    simp [Expr.bound]
  · rw [Scope.visible_declare h.opened, h.visible hσ, boundAfter_bind]
  · rw [hlength]
    refine .cons rfl (by simp [Expr.reads]) h.plain ?_ .done
    exact h.covers.congr fun i hlo _ => hothers i (Nat.ne_of_gt (Nat.lt_of_lt_of_le hσ.lt hlo))

theorem addStatement (hid : id < σ.blocks.length) (h : Fills id σ [e] [] σ') :
    Fills id σ [e] [e] (σ'.addStatement id e) := by
  have hothers : ∀ i : Nat, i ≠ id → (σ'.addStatement id e).blocks[i]? = σ'.blocks[i]? :=
    fun i hne => by simp [Scope.addStatement, Ne.symm hne]
  have hlength : (σ'.addStatement id e).blocks.length = σ'.blocks.length := by
    rw [Scope.addStatement, List.length_modify]
  constructor
  · exact h.opened.modify fun _ => rfl
  · exact fun i hne hi => (hothers i hne).trans (h.kept i hne hi)
  · exact h.current
  · intro b hb
    obtain ⟨b', hb', hp, hs, hl, hbound⟩ := h.block b hb
    refine ⟨{ b' with statements := b'.statements ++ [e] }, ?_, hp, ?_, hl, hbound⟩
    · simp [Scope.addStatement, hb']
    · simp [hs]
  · rw [Scope.visible_addStatement h.opened, h.visible]
  · rw [hlength]
    exact h.covers.congr fun i hlo _ => hothers i (by omega)

end Fills

/-! ### Derivations -/

def Form.Adds (σ σ' : Scope) : Form → Prop
  | .operand e => Extends σ [e] σ'
  | .level _ e => Extends σ [e] σ'
  | .arguments args => Extends σ args σ'
  | .alternative e => Extends σ e.toList σ'
  | .statement e => Fills σ.here σ [e] [] σ'
  | .statements id => σ.here = id → ∃ es, Fills id σ es es σ'
  | .body id e => σ.here = id →
    ∃ es σ₁, Fills id σ es es σ₁ ∧ e = σ₁.blockExpr id ∧ σ' = σ₁.closeBlock id

theorem Extends.joined {op : Operator} {lhs rhs : Expr} (h : Extends σ [lhs, rhs] σ')
    (he : Joined op lhs rhs e) : Extends σ [e] σ' := by
  cases he with
  | operation _ _ => exact h.node rfl rfl rfl
  | assignment _ => exact (h.tail rfl rfl).node rfl rfl rfl
  | @compound op name var ty rhs _ _ =>
    have hvalue := h.node (e := .binary op (.read name var ty true) rhs) rfl rfl rfl
    exact hvalue.node rfl rfl rfl

theorem Extends.chosen {condition onTrue : Expr} {onFalse : Option Expr}
    (h : Extends σ (condition :: onTrue :: onFalse.toList) σ')
    (he : Chosen condition onTrue onFalse e) : Extends σ [e] σ' := by
  cases he with
  | alone _ => exact h.node rfl rfl rfl
  | both _ _ _ => exact h.node rfl rfl rfl

theorem Extends.body (hσ : σ.Open) (h : (Form.body σ.blocks.length e).Adds σ.openBlock σ') :
    Extends σ [e] σ' := by
  obtain ⟨es, σ₁, hfills, rfl, rfl⟩ := h rfl
  exact .block hσ hfills

theorem Extends.branches (hσ : σ.Open) {σ₂ : Scope} {condition onTrue : Expr} {onFalse : Option Expr}
    (hc : Extends σ [condition] σ₁) (ht : (Form.body σ₁.blocks.length onTrue).Adds σ₁.openBlock σ₂)
    (hf : σ₂.Open → Extends σ₂ onFalse.toList σ') :
    Extends σ (condition :: onTrue :: onFalse.toList) σ' := by
  have ht := Extends.body hc.opened ht
  exact (hc.trans hσ ht).trans hσ (hf ht.opened)

theorem Derives.adds {functions : List (Named Function)} {externs : List (Named Signature)} {d : Nat}
    {form : Form} {input rest : List TokenKind}
    (h : Derives functions externs d form σ input σ' rest) : σ.Open → form.Adds σ σ' := by
  -- A rule extends the scope by its parts in turn, each from the scope that the last one left open.
  induction h with
  | @signed _ _ op e _ _ _ _ _ _ _ ih =>
    exact fun hσ => Extends.node (e := .unary op e) (ih hσ) rfl rfl rfl
  | bracketed _ ih => exact ih
  | block _ ih => exact fun hσ => .body hσ (ih hσ.openBlock)
  | number => exact fun hσ => (Extends.refl hσ).node rfl rfl rfl
  | @named d name var v σ rest hvar hv =>
    intro hσ
    have hvisible : var ∈ σ.visible := ⟨encloses_of_resolveWithin hvar, by rw [hv]; rfl⟩
    exact ⟨hσ, fun _ _ => rfl, rfl, by simp [Expr.isStatement],
      .cons rfl (by simpa [Expr.reads] using hvisible) (by simp [Expr.children]) .done .done⟩
  | @call _ name args signature _ _ _ _ _ _ _ ih =>
    exact fun hσ => Extends.node (e := .call name args signature.result) (ih hσ) rfl rfl rfl
  | conditional _ _ _ he ihc iht ihf =>
    exact fun hσ => .chosen (.branches hσ (ihc hσ) (iht (ihc hσ).opened.openBlock) ihf) he
  | tightest _ ih => exact ih
  | looser _ ih => exact ih
  | joinLeft _ _ _ _ he ihl ihr => exact fun hσ => ((ihl hσ).trans hσ (ihr (ihl hσ).opened)).joined he
  | joinRight _ _ _ _ he ihl ihr => exact fun hσ => ((ihl hσ).trans hσ (ihr (ihl hσ).opened)).joined he
  | noArguments => exact .refl
  | lastArgument _ ih => exact ih
  | argument _ _ ih ihrest => exact fun hσ => (ih hσ).trans hσ (ihrest (ih hσ).opened)
  | noAlternative => exact .refl
  | otherwise _ ih => exact fun hσ => .body hσ (ih hσ.openBlock)
  | further _ _ _ he ihc iht ihf =>
    exact fun hσ => .chosen (.branches hσ (ihc hσ) (iht (ihc hσ).opened.openBlock) ihf) he
  | binding _ _ _ _ _ ih => exact fun hσ => .bind hσ (ih hσ) _ _
  | leave _ =>
    exact fun hσ => .of_extends hσ (.refl hσ) rfl (.cons rfl (by simp [Expr.reads]) (by simp [Expr.children])
      .done .done)
  | leaveWith _ _ ih =>
    intro hσ
    have hvalue := ih hσ
    exact .of_extends hσ hvalue rfl (.cons rfl (by simp [Expr.reads]) hvalue.plain hvalue.covers .done)
  | expression _ ih =>
    intro hσ
    have hexpr := ih hσ
    exact .of_extends hσ hexpr (Expr.bound_eq_nil (hexpr.plain _ List.mem_cons_self)) hexpr.covers
  | noStatements => exact fun hσ _ => ⟨[], .refl hσ⟩
  | emptyLine _ ih => exact ih
  | statement _ _ _ _ ih ihrest =>
    rintro hσ rfl
    have hfirst := (ih hσ).addStatement hσ.lt
    obtain ⟨es, hrest⟩ := ihrest hfirst.opened hfirst.here_eq
    exact ⟨_ :: es, hfirst.trans hσ.lt hrest⟩
  | body _ ih =>
    intro hσ hhere
    obtain ⟨es, hfills⟩ := ih hσ hhere
    exact ⟨es, _, hfills, rfl, rfl⟩

/-! ### Whole functions -/

theorem Scope.ofHead_eq (name : String) (signature : Signature) :
    ∃ locals, (Scope.ofHead name signature).blocks = [⟨none, locals, []⟩] ∧
      (Scope.ofHead name signature).current = some rootBlock ∧
      locals.length = signature.args.length := by
  have hargs : ∀ (args : List (String × Ty)) (σ : Scope) (locals : List Variable),
      σ.blocks = [⟨none, locals, []⟩] → σ.current = some rootBlock →
      ∃ more, (args.foldl (fun σ arg => σ.declare arg.1 arg.2 false) σ).blocks = [⟨none, more, []⟩] ∧
        (args.foldl (fun σ arg => σ.declare arg.1 arg.2 false) σ).current = some rootBlock ∧
        more.length = locals.length + args.length := by
    intro args
    induction args with
    | nil => exact fun σ locals hblocks hcurrent => ⟨locals, hblocks, hcurrent, rfl⟩
    | cons arg args ih =>
      intro σ locals hblocks hcurrent
      have hhere : σ.here = 0 := by rw [Scope.here, hcurrent]; rfl
      obtain ⟨more, hblocks', hcurrent', hlength⟩ :=
        ih (σ.declare arg.1 arg.2 false) (locals ++ [⟨arg.1, arg.2, false, σ.slots⟩])
          (by simp [Scope.declare, hblocks, hhere]) hcurrent
      refine ⟨more, hblocks', hcurrent', ?_⟩
      simp only [List.length_append, List.length_cons, List.length_nil] at hlength ⊢
      omega
  obtain ⟨locals, hblocks, hcurrent, hlength⟩ := hargs signature.args
    ({ Scope.empty with name, signature } : Scope).openBlock [] rfl rfl
  exact ⟨locals, hblocks, hcurrent, by simpa using hlength⟩

/-- A function that is derived is laid out in order. -/
theorem Derives.laid {functions : List (Named Function)} {externs : List (Named Signature)} {d : Nat}
    {name : String} {signature : Signature} {body : Expr} {input rest : List TokenKind} {slots : Nat}
    (h : Derives functions externs d (.body rootBlock body) (.ofHead name signature) input σ rest) :
    Function.Laid ⟨signature, body, σ.blocks, slots⟩ := by
  obtain ⟨locals, hblocks, hcurrent, hlength⟩ := Scope.ofHead_eq name signature
  have hhere : (Scope.ofHead name signature).here = rootBlock := by rw [Scope.here, hcurrent]; rfl
  have hopen : (Scope.ofHead name signature).Open := by
    refine ⟨by rw [hcurrent, hhere], by rw [hhere, hblocks]; exact Nat.zero_lt_one, ?_⟩
    intro i b p hb hp
    rw [hblocks] at hb
    cases i with
    | zero =>
      cases hb
      cases hp
    | succ i => simp at hb
  have hvisible : (Scope.ofHead name signature).visible = signature.argumentVars := by
    ext ⟨block, index⟩
    have hlocals : (declaration? [⟨none, locals, []⟩] ⟨rootBlock, index⟩).isSome ↔
        index < signature.args.length := by
      simp [declaration?, rootBlock, ← hlength]
    simp only [Scope.visible, hhere, hblocks, Signature.argumentVars, Set.mem_ofPred_eq]
    constructor
    · rintro ⟨henc, hsome⟩
      cases henc with
      | self => exact ⟨rfl, hlocals.1 hsome⟩
      | inside hb hp _ =>
        cases hb
        cases hp
    · rintro ⟨rfl, hlt⟩
      exact ⟨.self, hlocals.2 hlt⟩
  -- The head makes the root block with the arguments, and the body fills it.
  obtain ⟨es, σ₁, hfills, rfl, rfl⟩ := h.adds hopen hhere
  obtain ⟨b, hb, -, hstatements, hle, hbound⟩ := hfills.block _ (by rw [hblocks]; rfl)
  have hcovers := hfills.covers
  rw [hvisible, hblocks] at hcovers
  rw [List.nil_append] at hstatements
  rw [hlength] at hle hbound
  exact ⟨b, _, rfl, hb, hle, by rw [hstatements]; exact hbound, hstatements ▸ hcovers⟩

theorem Declares.laid {functions functions' : List (Named Function)}
    {externs externs' : List (Named Signature)} {input : List TokenKind}
    (h : Declares functions externs input functions' externs')
    (hold : ∀ entry ∈ functions, entry.2.Laid) : ∀ entry ∈ functions', entry.2.Laid := by
  induction h with
  | done => exact hold
  | newline _ ih => exact ih hold
  | used _ _ _ _ _ ih => exact ih hold
  | function _ _ _ hbody _ ih =>
    refine ih (List.forall_mem_append.2 ⟨hold, ?_⟩)
    rintro entry hentry
    cases List.mem_singleton.1 hentry
    exact hbody.laid

end
end Grammar
end ScalarJit
