import ScalarJit.Tree.Expr

/-! # Blocks and name resolution

The blocks of a function form a tree through their parents. A name means the last variable of that
name in the innermost block that has one. -/

namespace ScalarJit

structure Variable where
  name : String
  ty : Ty
  mutable : Bool
  slot : Nat
deriving DecidableEq, Repr, Inhabited

structure Block where
  parent : Option BlockId
  locals : List Variable
  statements : List Expr
deriving Repr, Inhabited

namespace Block

/-- A block has the type of its last statement. -/
def ty (b : Block) : Ty :=
  match b.statements.getLast? with
  | some e => e.ty
  | none => .void

def empty (parent : Option BlockId) : Block := ⟨parent, [], []⟩

end Block

def lastNamed? (name : String) : List Variable → Option Nat
  | [] => none
  | v :: rest =>
    match lastNamed? name rest with
    | some index => some (index + 1)
    | none => if v.name = name then some 0 else none

/-- Looks for a name in a block and then in its parents, in `bound` blocks at most. -/
def resolveWithin (blocks : List Block) (name : String) : Nat → BlockId → Option VarRef
  | 0, _ => none
  | bound + 1, id =>
    match blocks[id]? with
    | none => none
    | some block =>
      match lastNamed? name block.locals with
      | some index => some ⟨id, index⟩
      | none =>
        match block.parent with
        | none => none
        | some parent => resolveWithin blocks name bound parent

def resolve (blocks : List Block) (start : BlockId) (name : String) : Option VarRef :=
  resolveWithin blocks name blocks.length start

def declaration? (blocks : List Block) (var : VarRef) : Option Variable :=
  blocks[var.block]?.bind (·.locals[var.index]?)

theorem lastNamed?_name {name : String} {locals : List Variable} {index : Nat}
    (h : lastNamed? name locals = some index) :
    ∃ v, locals[index]? = some v ∧ v.name = name := by
  induction locals generalizing index with
  | nil => simp [lastNamed?] at h
  | cons v rest ih =>
    rw [lastNamed?] at h
    split at h
    · next found =>
      cases h
      simpa using ih found
    · split at h
      · next named =>
        cases h
        exact ⟨v, rfl, named⟩
      · cases h

theorem declaration?_of_resolveWithin {blocks : List Block} {name : String} {bound : Nat}
    {start : BlockId} {var : VarRef} (h : resolveWithin blocks name bound start = some var) :
    ∃ v, declaration? blocks var = some v ∧ v.name = name := by
  induction bound generalizing start with
  | zero => simp [resolveWithin] at h
  | succ bound ih =>
    rw [resolveWithin] at h
    split at h
    · cases h
    · next block found =>
      split at h
      · next index named =>
        cases h
        obtain ⟨v, held, hv⟩ := lastNamed?_name named
        exact ⟨v, by simp [declaration?, found, held], hv⟩
      · split at h
        · cases h
        · exact ih h

end ScalarJit
