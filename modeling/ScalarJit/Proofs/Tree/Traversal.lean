import Mathlib.Data.Set.Insert
import ScalarJit.Proofs.Tree.Parts

/-! # Traversals of an arena

Blocks stand in an arena and expressions name them by number. `Covers` says that expressions, read
from left to right and with each block where it is named, meet the blocks of a range of numbers one
after another, and that they read no variable before it is bound. -/

namespace ScalarJit

namespace Expr

def children : Expr → List Expr
  | .binary _ lhs rhs => [lhs, rhs]
  | .unary _ operand => [operand]
  | .write _ _ value => [value]
  | .bind _ _ value => [value]
  | .call _ args _ => args
  | .leaveWith value => [value]
  | .ifThen condition onTrue => [condition, onTrue]
  | .ifThenElse condition onTrue onFalse => [condition, onTrue, onFalse]
  | .literal _ | .read .. | .leave | .block .. => []

/-- Bindings and returns, which are statements and never operands. -/
def isStatement : Expr → Bool
  | .bind .. | .leave | .leaveWith _ => true
  | _ => false

def named : Expr → List BlockId
  | .block id _ => [id]
  | _ => []

def reads : Expr → List VarRef
  | .read _ var _ _ => [var]
  | _ => []

def bound : Expr → List VarRef
  | .bind _ var _ => [var]
  | _ => []

theorem inner_eq_children (e : Expr) : e.inner = e.children.flatMap parts := by
  cases e <;> simp [children]

theorem parts_eq_children (e : Expr) : e.parts = e :: e.children.flatMap parts := by
  rw [parts, inner_eq_children]

theorem bound_eq_nil {e : Expr} (h : e.isStatement = false) : e.bound = [] := by
  cases e <;> first | rfl | cases h

theorem eq_block_of_named {e : Expr} {id : BlockId} (h : id ∈ e.named) : ∃ ty, e = .block id ty := by
  cases e with
  | block id' ty =>
    cases List.mem_singleton.1 h
    exact ⟨ty, rfl⟩
  | _ => cases h

end Expr

def boundAfter (known : Set VarRef) (es : List Expr) : Set VarRef :=
  known ∪ {var | var ∈ es.flatMap Expr.bound}

@[simp] theorem boundAfter_nil (known : Set VarRef) : boundAfter known [] = known := by
  simp [boundAfter]

theorem boundAfter_append (known : Set VarRef) (es fs : List Expr) :
    boundAfter known (es ++ fs) = boundAfter (boundAfter known es) fs := by
  ext var
  simp only [boundAfter, List.flatMap_append, Set.mem_union, Set.mem_ofPred_eq, List.mem_append, or_assoc]

theorem boundAfter_cons (known : Set VarRef) (e : Expr) (es : List Expr) :
    boundAfter known (e :: es) = boundAfter (boundAfter known [e]) es :=
  boundAfter_append known [e] es

theorem boundAfter_bind (known : Set VarRef) (name : String) (var : VarRef) (value : Expr) :
    boundAfter known [.bind name var value] = known ∪ {var} := by
  ext other
  simp [boundAfter, Expr.bound]

theorem boundAfter_of_plain {known : Set VarRef} {es : List Expr}
    (h : ∀ e ∈ es, e.isStatement = false) : boundAfter known es = known := by
  have hnone : es.flatMap Expr.bound = [] :=
    List.flatMap_eq_nil_iff.2 fun e he => Expr.bound_eq_nil (h e he)
  simp [boundAfter, hnone]

/-- Expressions one after another, with the blocks that they name, meet the blocks from `lo` up to
`hi` in this order. They read only variables that are known or bound before, and a block binds its
variables in their order. -/
inductive Covers (blocks : List Block) : Set VarRef → List Expr → Nat → Nat → Prop
  | done {known : Set VarRef} {n : Nat} : Covers blocks known [] n n
  | cons {known : Set VarRef} {e : Expr} {rest : List Expr} {lo mid hi : Nat} (he : e.named = [])
      (hreads : ∀ var ∈ e.reads, var ∈ known) (hplain : ∀ c ∈ e.children, c.isStatement = false)
      (hchildren : Covers blocks known e.children lo mid)
      (hrest : Covers blocks (boundAfter known [e]) rest mid hi) : Covers blocks known (e :: rest) lo hi
  | block {known : Set VarRef} {ty : Ty} {b : Block} {rest : List Expr} {lo mid hi : Nat}
      (hb : blocks[lo]? = some b)
      (hbound : b.statements.flatMap Expr.bound = (List.range b.locals.length).map (VarRef.mk lo))
      (hinside : Covers blocks known b.statements (lo + 1) mid)
      (hrest : Covers blocks known rest mid hi) : Covers blocks known (.block lo ty :: rest) lo hi

/-- The blocks that a traversal from left to right meets, each when it is named. -/
inductive Visits (blocks : List Block) : List Expr → List BlockId → Prop
  | done : Visits blocks [] []
  | pass {e : Expr} {rest : List Expr} {ids more : List BlockId} (he : e.named = [])
      (hchildren : Visits blocks e.children ids) (hrest : Visits blocks rest more) :
      Visits blocks (e :: rest) (ids ++ more)
  | enter {id : BlockId} {ty : Ty} {b : Block} {rest : List Expr} {ids more : List BlockId}
      (hb : blocks[id]? = some b) (hinside : Visits blocks b.statements ids)
      (hrest : Visits blocks rest more) : Visits blocks (.block id ty :: rest) (id :: (ids ++ more))

namespace Covers

variable {blocks : List Block} {known : Set VarRef} {es : List Expr} {lo mid hi : Nat}

theorem le (h : Covers blocks known es lo hi) : lo ≤ hi := by
  induction h with
  | done => exact Nat.le_refl _
  | cons _ _ _ _ _ ihc ihr => exact Nat.le_trans ihc ihr
  | block _ _ _ _ ihi ihr => omega

theorem congr {others : List Block} (h : Covers blocks known es lo hi)
    (hsame : ∀ i, lo ≤ i → i < hi → others[i]? = blocks[i]?) : Covers others known es lo hi := by
  induction h with
  | done => exact .done
  | cons he hreads hplain hc hr ihc ihr =>
    have hle := hc.le
    have hle' := hr.le
    exact .cons he hreads hplain (ihc fun i hi hi' => hsame i hi (by omega))
      (ihr fun i hi hi' => hsame i (by omega) hi')
  | block hb hbound hi hr ihi ihr =>
    have hle := hi.le
    have hle' := hr.le
    have hinside := ihi fun i hi hi' => hsame i (by omega) (by omega)
    have hrest := ihr fun i hi hi' => hsame i (by omega) hi'
    exact .block ((hsame _ (Nat.le_refl _) (by omega)).trans hb) hbound hinside hrest

theorem append {fs : List Expr} (h : Covers blocks known es lo mid)
    (h' : Covers blocks (boundAfter known es) fs mid hi) : Covers blocks known (es ++ fs) lo hi := by
  induction h with
  | done => simpa using h'
  | cons he hreads hplain hc hr _ ihr =>
    rw [boundAfter_cons] at h'
    exact .cons he hreads hplain hc (ihr h')
  | @block known ty b rest lo _ mid hb hbound hi hr _ ihr =>
    have hnone : boundAfter known [.block lo ty] = known := boundAfter_of_plain (by simp [Expr.isStatement])
    rw [boundAfter_cons, hnone] at h'
    exact .block hb hbound hi (ihr h')

theorem range'_split {lo mid hi : Nat} (h : lo ≤ mid) (h' : mid ≤ hi) :
    List.range' lo (hi - lo) = List.range' lo (mid - lo) ++ List.range' mid (hi - mid) := by
  rw [show hi - lo = (mid - lo) + (hi - mid) by omega, ← List.range'_append_1, Nat.add_sub_cancel' h]

theorem range'_cons {lo hi : Nat} (h : lo < hi) :
    List.range' lo (hi - lo) = lo :: List.range' (lo + 1) (hi - (lo + 1)) := by
  rw [show hi - lo = hi - (lo + 1) + 1 by omega, List.range'_succ]

theorem mono {wider : Set VarRef} (h : Covers blocks known es lo hi) (hsub : known ⊆ wider) :
    Covers blocks wider es lo hi := by
  induction h generalizing wider with
  | done => exact .done
  | cons he hreads hplain _ _ ihc ihr =>
    exact .cons he (fun var hvar => hsub (hreads var hvar)) hplain (ihc hsub)
      (ihr (Set.union_subset_union_left _ hsub))
  | block hb hbound _ _ ihi ihr => exact .block hb hbound (ihi hsub) (ihr hsub)

theorem uncons {e : Expr} (h : Covers blocks known (e :: es) lo hi) :
    ∃ mid, Covers blocks known [e] lo mid ∧ Covers blocks (boundAfter known [e]) es mid hi := by
  cases h with
  | cons he hreads hplain hc hr => exact ⟨_, .cons he hreads hplain hc .done, hr⟩
  | block hb hbound hi hr =>
    refine ⟨_, .block hb hbound hi .done, ?_⟩
    rwa [boundAfter_of_plain (by simp [Expr.isStatement])]

theorem children {e : Expr} (h : Covers blocks known [e] lo hi) (he : e.named = []) :
    (∀ var ∈ e.reads, var ∈ known) ∧ (∀ c ∈ e.children, c.isStatement = false) ∧
      Covers blocks known e.children lo hi := by
  cases h with
  | cons _ hreads hplain hc hr =>
    cases hr
    exact ⟨hreads, hplain, hc⟩
  | block => cases he

theorem operands {e : Expr} (h : Covers blocks known [e] lo hi) (he : e.named = []) :
    Covers blocks known e.children lo hi :=
  (h.children he).2.2

theorem child {e c : Expr} (h : Covers blocks known [e] lo hi) (he : e.named = [])
    (hmem : c ∈ e.children) : ∃ lo hi, Covers blocks known [c] lo hi := by
  obtain ⟨-, hplain, hc⟩ := h.children he
  clear h
  generalize e.children = all at hmem hplain hc
  induction all generalizing lo with
  | nil => cases hmem
  | cons first rest ih =>
    obtain ⟨mid, hfirst, hrest⟩ := hc.uncons
    rcases List.mem_cons.1 hmem with rfl | hmem
    · exact ⟨lo, mid, hfirst⟩
    · rw [boundAfter_of_plain (by simpa using hplain first (.head _))] at hrest
      exact ih hmem (fun c hc => hplain c (.tail _ hc)) hrest

theorem visits (h : Covers blocks known es lo hi) : Visits blocks es (List.range' lo (hi - lo)) := by
  induction h with
  | done =>
    rw [Nat.sub_self]
    exact .done
  | cons he _ _ hc hr ihc ihr =>
    rw [range'_split hc.le hr.le]
    exact .pass he ihc ihr
  | block hb _ hi hr ihi ihr =>
    rw [range'_cons (Nat.lt_of_lt_of_le hi.le hr.le), range'_split hi.le hr.le]
    exact .enter hb ihi ihr

/-! ### Statements -/

theorem direct (h : Covers blocks known es lo hi) :
    ∀ e ∈ es, ∀ part ∈ e.inner, part.isStatement = false := by
  induction h with
  | done => simp
  | cons he _ hplain _ _ ihc ihr =>
    refine List.forall_mem_cons.2 ⟨fun part hpart => ?_, ihr⟩
    rw [Expr.inner_eq_children] at hpart
    obtain ⟨c, hc, hpart⟩ := List.mem_flatMap.1 hpart
    rcases (Expr.mem_parts c).1 hpart with rfl | hpart
    · exact hplain _ hc
    · exact ihc c hc part hpart
  | block _ _ _ _ _ ihr => exact List.forall_mem_cons.2 ⟨by simp, ihr⟩

/-- Blocks that are met bind all their variables in order, in statements of their own. -/
theorem bound_inside (h : Covers blocks known es lo hi) {i : Nat} (hlo : lo ≤ i) (hhi : i < hi) :
    ∃ b, blocks[i]? = some b ∧
      b.statements.flatMap Expr.bound = (List.range b.locals.length).map (VarRef.mk i) ∧
      ∀ e ∈ b.statements, ∀ part ∈ e.inner, part.isStatement = false := by
  induction h with
  | done => omega
  | @cons _ _ _ _ mid _ _ _ _ _ _ ihc ihr =>
    by_cases hmid : i < mid
    · exact ihc hlo hmid
    · exact ihr (by omega) hhi
  | @block _ _ b _ lo mid _ hb hbound hi _ ihi ihr =>
    by_cases hself : i = lo
    · subst hself
      exact ⟨b, hb, hbound, hi.direct⟩
    · by_cases hmid : i < mid
      · exact ihi (by omega) hmid
      · exact ihr (by omega) hhi

end Covers

/-! ### References -/

def namesIn (es : List Expr) : List BlockId := (es.flatMap Expr.parts).flatMap Expr.named

theorem namesIn_cons (e : Expr) (rest : List Expr) :
    namesIn (e :: rest) = e.named ++ (namesIn e.children ++ namesIn rest) := by
  rw [namesIn, List.flatMap_cons, List.flatMap_append, Expr.parts_eq_children, List.flatMap_cons,
    List.append_assoc]
  rfl

def statementsAt (blocks : List Block) (id : BlockId) : List Expr :=
  (blocks[id]?.map (·.statements)).getD []

def namesFrom (blocks : List Block) (lo hi : Nat) : List BlockId :=
  (List.range' lo (hi - lo)).flatMap fun id => namesIn (statementsAt blocks id)

theorem Covers.names_perm {blocks : List Block} {known : Set VarRef} {es : List Expr} {lo hi : Nat}
    (h : Covers blocks known es lo hi) :
    (namesIn es ++ namesFrom blocks lo hi).Perm (List.range' lo (hi - lo)) := by
  induction h with
  | done => simp [namesIn, namesFrom]
  | @cons _ e rest lo mid hi he _ _ hc hr ihc ihr =>
    have hsplit : namesFrom blocks lo hi = namesFrom blocks lo mid ++ namesFrom blocks mid hi := by
      rw [namesFrom, range'_split hc.le hr.le, List.flatMap_append]
      rfl
    rw [namesIn_cons, he, List.nil_append, hsplit, range'_split hc.le hr.le]
    refine List.Perm.trans ?_ (ihc.append ihr)
    rw [List.append_assoc, List.append_assoc]
    exact (List.perm_append_comm_assoc _ _ _).append_left _
  | @block _ ty b rest lo mid hi hb _ hi' hr ihi ihr =>
    have hat : statementsAt blocks lo = b.statements := by simp [statementsAt, hb]
    have hlt := Nat.lt_of_lt_of_le hi'.le hr.le
    have hsplit : namesFrom blocks lo hi =
        namesIn b.statements ++ (namesFrom blocks (lo + 1) mid ++ namesFrom blocks mid hi) := by
      rw [namesFrom, range'_cons hlt, range'_split hi'.le hr.le, List.flatMap_cons, hat,
        List.flatMap_append]
      rfl
    rw [namesIn_cons, hsplit, range'_cons hlt, range'_split hi'.le hr.le]
    have hmove := List.perm_append_comm_assoc (namesIn rest)
      (namesIn b.statements ++ namesFrom blocks (lo + 1) mid) (namesFrom blocks mid hi)
    rw [List.append_assoc (namesIn b.statements)] at hmove
    exact (hmove.trans (ihi.append ihr)).cons lo

/-! ### Functions -/

def Signature.argumentVars (signature : Signature) : Set VarRef :=
  {var | var.block = rootBlock ∧ var.index < signature.args.length}

/-- The body is the outermost block. It binds its variables but the arguments, and with it all other
blocks are met in their order. -/
def Function.Laid (f : Function) : Prop :=
  ∃ b ty, f.body = .block rootBlock ty ∧ f.blocks[rootBlock]? = some b ∧
    f.signature.args.length ≤ b.locals.length ∧
    b.statements.flatMap Expr.bound = (List.range' f.signature.args.length
      (b.locals.length - f.signature.args.length)).map (VarRef.mk rootBlock) ∧
    Covers f.blocks f.signature.argumentVars b.statements 1 f.blocks.length

end ScalarJit
