import Mathlib.Data.List.Induction
import Mathlib.Data.List.Nodup
import ScalarJit.Proofs.Grammar.WellFormed
import ScalarJit.Proofs.Language.Accepted
import ScalarJit.Proofs.Language.Layout

/-! # Blocks and expressions match

In a function without errors every block is named once, where it stands, and every variable is bound
once, by a statement of its block. -/

namespace ScalarJit

theorem Program.laid_parse {source : List Char} (h : (Program.parse source).errorCount = 0) :
    ∀ entry ∈ (Program.parse source).functions, entry.2.Laid :=
  (Program.declares_parse h).laid (by simp)

namespace Function

def argumentsIn (f : Function) (id : BlockId) : Nat :=
  if id = rootBlock then f.signature.args.length else 0

/-- The blocks of a function and its expressions match one to one. -/
structure OneToOne (f : Function) : Prop where
  /-- The body is the outermost block. -/
  body : ∃ ty, f.body = .block rootBlock ty
  /-- Nothing else names the outermost block. -/
  root : ∀ b ∈ f.blocks, ∀ e ∈ b.statements, ∀ ty, .block rootBlock ty ∉ e.parts
  /-- Each other block is named once in the whole function. -/
  named : ∀ id : Nat, 0 < id → id < f.blocks.length → (f.parts.flatMap Expr.named).count id = 1
  /-- A block is named in a statement of its parent. -/
  parent : ∀ (here : Nat) (b : Block), f.blocks[here]? = some b → ∀ e ∈ b.statements, ∀ id ty,
    .block id ty ∈ e.parts → ∃ inside, f.blocks[id]? = some inside ∧ inside.parent = some here
  /-- A traversal meets all blocks in their order. -/
  order : Visits f.blocks [f.body] (List.range f.blocks.length)
  /-- The statements of a block bind its variables but the arguments, in their order. -/
  bindings : ∀ (id : Nat) (b : Block), f.blocks[id]? = some b → b.statements.flatMap Expr.bound =
    (List.range' (f.argumentsIn id) (b.locals.length - f.argumentsIn id)).map (VarRef.mk id)
  /-- Each of these variables is bound once in the whole function. -/
  bound : ∀ (id : Nat) (b : Block) (index : Nat), f.blocks[id]? = some b → f.argumentsIn id ≤ index →
    index < b.locals.length → (f.parts.flatMap Expr.bound).count ⟨id, index⟩ = 1
  /-- Bindings and returns are statements of blocks and stand nowhere else. -/
  direct : ∀ b ∈ f.blocks, ∀ e ∈ b.statements, ∀ part ∈ e.inner, part.isStatement = false
  /-- Only variables that can change are assigned to. -/
  writes : ∀ name var value, .write name var value ∈ f.parts →
    ∃ v, declaration? f.blocks var = some v ∧ v.mutable = true

variable {f : Function}

theorem flatMap_statementsAt {α : Type} (blocks : List Block) (g : List Expr → List α) :
    (List.range blocks.length).flatMap (fun id => g (statementsAt blocks id)) =
      blocks.flatMap fun b => g b.statements := by
  induction blocks using List.reverseRecOn with
  | nil => rfl
  | append_singleton blocks b ih =>
    have hold : ∀ id ∈ List.range blocks.length,
        g (statementsAt (blocks ++ [b]) id) = g (statementsAt blocks id) := by
      intro id hid
      rw [statementsAt, List.getElem?_append_left (List.mem_range.1 hid), statementsAt]
    have hlast : statementsAt (blocks ++ [b]) blocks.length = b.statements := by
      simp [statementsAt]
    rw [List.length_append, List.length_singleton, List.range_succ, List.flatMap_append,
      List.flatMap_congr hold, ih, List.flatMap_append, List.flatMap_singleton, hlast,
      List.flatMap_singleton]

theorem flatMap_parts {α : Type} {g : Expr → List α} {id : BlockId} {ty : Ty}
    (hbody : f.body = .block id ty) : f.parts.flatMap g = g (.block id ty) ++
      f.blocks.flatMap fun b => (b.statements.flatMap Expr.parts).flatMap g := by
  rw [parts, hbody, List.flatMap_append, List.flatMap_assoc, Expr.parts, Expr.inner_block,
    List.flatMap_singleton]

theorem Laid.named_perm (h : f.Laid) :
    (f.parts.flatMap Expr.named).Perm (List.range f.blocks.length) := by
  obtain ⟨b, ty, hbody, hb, -, -, hcovers⟩ := h
  have hpos : 0 < f.blocks.length := (List.getElem?_eq_some_iff.1 hb).1
  have hat : statementsAt f.blocks 0 = b.statements := by
    rw [statementsAt, show f.blocks[0]? = some b from hb]
    rfl
  have hrange : List.range f.blocks.length = 0 :: List.range' 1 (f.blocks.length - 1) := by
    rw [List.range_eq_range']
    exact Covers.range'_cons hpos
  have hnames : f.parts.flatMap Expr.named =
      0 :: (namesIn b.statements ++ namesFrom f.blocks 1 f.blocks.length) := by
    rw [flatMap_parts hbody]
    refine congrArg (0 :: ·) ((flatMap_statementsAt f.blocks namesIn).symm.trans ?_)
    rw [hrange, List.flatMap_cons, hat]
    rfl
  rw [hnames, hrange]
  exact hcovers.names_perm.cons 0

theorem Laid.visits (h : f.Laid) : Visits f.blocks [f.body] (List.range f.blocks.length) := by
  obtain ⟨b, ty, hbody, hb, -, -, hcovers⟩ := h
  have hpos : 0 < f.blocks.length := (List.getElem?_eq_some_iff.1 hb).1
  have hrange : List.range f.blocks.length =
      rootBlock :: (List.range' 1 (f.blocks.length - 1) ++ []) := by
    rw [List.range_eq_range', List.append_nil]
    exact Covers.range'_cons hpos
  rw [hbody, hrange]
  exact .enter hb hcovers.visits .done

theorem Laid.block (h : f.Laid) {id : Nat} {b : Block} (hb : f.blocks[id]? = some b) :
    b.statements.flatMap Expr.bound =
      (List.range' (f.argumentsIn id) (b.locals.length - f.argumentsIn id)).map (VarRef.mk id) ∧
    ∀ e ∈ b.statements, ∀ part ∈ e.inner, part.isStatement = false := by
  obtain ⟨root, ty, hbody, hroot, -, hbound, hcovers⟩ := h
  have hlt := (List.getElem?_eq_some_iff.1 hb).1
  by_cases hid : id = rootBlock
  · subst hid
    rw [hroot, Option.some_inj] at hb
    subst hb
    rw [argumentsIn, if_pos rfl]
    exact ⟨hbound, hcovers.direct⟩
  · have hpos : 1 ≤ id := Nat.one_le_iff_ne_zero.2 hid
    obtain ⟨b', hb', hbound', hdirect⟩ := hcovers.bound_inside hpos hlt
    rw [hb, Option.some_inj] at hb'
    subst hb'
    rw [argumentsIn, if_neg hid, Nat.sub_zero, ← List.range_eq_range']
    exact ⟨hbound', hdirect⟩

theorem Laid.flatMap_bound (h : f.Laid) :
    f.parts.flatMap Expr.bound = f.blocks.flatMap fun b => b.statements.flatMap Expr.bound := by
  obtain ⟨ty, hbody⟩ : ∃ ty, f.body = .block rootBlock ty := by
    obtain ⟨b, ty, hbody, -⟩ := h
    exact ⟨ty, hbody⟩
  rw [flatMap_parts hbody]
  refine List.flatMap_congr fun b hb => ?_
  obtain ⟨id, hid⟩ := List.mem_iff_getElem?.1 hb
  rw [List.flatMap_assoc]
  refine List.flatMap_congr fun e he => ?_
  have hinner : e.inner.flatMap Expr.bound = [] :=
    List.flatMap_eq_nil_iff.2 fun part hpart => Expr.bound_eq_nil ((h.block hid).2 e he part hpart)
  rw [Expr.parts, List.flatMap_cons, hinner, List.append_nil]

theorem Laid.nodup_bound (h : f.Laid) : (f.parts.flatMap Expr.bound).Nodup := by
  rw [h.flatMap_bound, List.nodup_flatMap]
  constructor
  · intro b hb
    obtain ⟨id, hid⟩ := List.mem_iff_getElem?.1 hb
    rw [(h.block hid).1]
    exact List.Nodup.map (fun _ _ heq => (VarRef.mk.inj heq).2) (List.nodup_range' 1)
  · -- variables of different blocks differ
    rw [List.pairwise_iff_getElem]
    intro i j hi hj hij var hvar hvar'
    dsimp only at hvar hvar'
    rw [(h.block (List.getElem?_eq_getElem hi)).1] at hvar
    rw [(h.block (List.getElem?_eq_getElem hj)).1] at hvar'
    obtain ⟨_, -, rfl⟩ := List.mem_map.1 hvar
    obtain ⟨_, -, heq⟩ := List.mem_map.1 hvar'
    have hblock := congrArg VarRef.block heq
    exact absurd hblock (Nat.ne_of_gt hij)

theorem Laid.oneToOne {declares : String → Signature → Prop} (h : f.Laid)
    (hwf : f.WellFormed declares) : f.OneToOne where
  body := by
    obtain ⟨b, ty, hbody, -⟩ := h
    exact ⟨ty, hbody⟩
  root := by
    intro b hb e he ty hpart
    obtain ⟨id, hid⟩ := List.mem_iff_getElem?.1 hb
    cases (hwf.statements id b hid e he).2.part hpart with
    | block _ _ hlt => exact Nat.not_lt_zero _ hlt
  named := by
    intro id _ hid
    rw [h.named_perm.count_eq]
    exact List.count_eq_one_of_mem List.nodup_range (List.mem_range.2 hid)
  parent := by
    intro here b hb e he id ty hpart
    cases (hwf.statements here b hb e he).2.part hpart with
    | block hinside hparent _ => exact ⟨_, hinside, hparent⟩
  -- Blocks are numbered as they are opened, which is the order of the walk.
  order := h.visits
  bindings := fun id b hb => (h.block hb).1
  bound := by
    intro id b index hb hle hlt
    refine List.count_eq_one_of_mem h.nodup_bound ?_
    rw [h.flatMap_bound]
    refine List.mem_flatMap.2 ⟨b, List.mem_of_getElem? hb, ?_⟩
    rw [(h.block hb).1]
    exact List.mem_map.2 ⟨index, List.mem_range'_1.2 ⟨hle, by omega⟩, rfl⟩
  direct := by
    intro b hb
    obtain ⟨id, hid⟩ := List.mem_iff_getElem?.1 hb
    exact (h.block hid).2
  writes := by
    intro name var value hpart
    rcases hwf.part hpart with hbody | ⟨id, hwrite⟩
    · obtain ⟨b, -, -, -, heq⟩ := hwf.root
      rw [heq] at hbody
      cases hbody
    · cases hwrite with
      | write hv _ _ hm _ _ => exact ⟨_, hv, hm⟩

end Function

/-- In a source without errors, the blocks of each function and its expressions match one to one. -/
theorem Program.oneToOne_parse (source : List Char) (h : (Program.parse source).errorCount = 0) :
    ∀ entry ∈ (Program.parse source).functions, entry.2.OneToOne :=
  fun entry hentry =>
    (Program.laid_parse h entry hentry).oneToOne ((Program.ordered_parse source).functions entry hentry)

def nested : List Char :=
  ("func f(x: Float64) -> Float64 \x7b\n var y = x\n y += f(\x7b\n let x = y\n f(x)\n\x7d)\n" ++
    " if \x7b\n f(y)\n\x7d \x7b\n y = 1\n\x7d elif y \x7b\n y = x\n\x7d\n return y\n\x7d").toList

theorem Program.oneToOne_parse_nested : (Program.parse nested).errorCount = 0 ∧
    ∃ entry, (Program.parse nested).functions = [entry] ∧ entry.2.blocks.length = 5 ∧
      entry.2.OneToOne := by
  have hparse : (Program.parse nested).errorCount = 0 ∧
      (Program.parse nested).functions.map (·.2.blocks.length) = [5] := by
    decide +kernel
  obtain ⟨herrors, hone⟩ := hparse
  obtain ⟨entry, hentry, hlength⟩ := List.map_eq_singleton_iff.1 hone
  refine ⟨herrors, entry, hentry, hlength, ?_⟩
  exact Program.oneToOne_parse nested herrors entry (by rw [hentry]; exact List.mem_singleton_self _)

end ScalarJit
