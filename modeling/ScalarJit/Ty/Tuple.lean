import ScalarJit.Ty.Basic

/-! # Tuples

A tuple lays its members out largest first, members of one size in the order given. With power of
two sizes no member then needs padding. Two tuples are different types even when their members
agree; the empty tuple is `Void`. -/

namespace ScalarJit

structure Member where
  name : String
  layout : Layout
deriving DecidableEq, Repr, Inhabited

namespace Member

def insert (m : Member) : List Member → List Member
  | [] => [m]
  | head :: rest =>
    if m.layout.size < head.layout.size then head :: insert m rest else m :: head :: rest

/-- Members by descending size; those of one size keep their order. -/
def sort : List Member → List Member
  | [] => []
  | m :: rest => insert m (sort rest)

theorem insert_perm (m : Member) (ms : List Member) : (insert m ms).Perm (m :: ms) := by
  induction ms with
  | nil => exact .refl _
  | cons head rest ih =>
    unfold insert
    split
    · exact (ih.cons head).trans (.swap ..)
    · exact .refl _

theorem sort_perm (ms : List Member) : (sort ms).Perm ms := by
  induction ms with
  | nil => exact .refl _
  | cons m rest ih => exact (insert_perm m (sort rest)).trans (ih.cons m)

end Member

structure Tuple where
  members : List Member
  layout : Layout
deriving DecidableEq, Repr, Inhabited

def Tuple.ofMembers (given : List Member) : Tuple :=
  let members := Member.sort given
  { members
    layout :=
      match members with
      | [] => .void
      | largest :: _ =>
        { name := "Tuple"
          size := members.foldr (fun m total => m.layout.size + total) 0
          align := largest.layout.align
          kind := .tuple } }

/-! ### Identity -/

/-- What makes a type itself: the primitive it is, or the tuple it is in order of creation. -/
inductive TypeIdentity where
  | primitive (ty : Ty)
  | tuple (serial : Nat)
deriving DecidableEq, Repr, Inhabited

structure KnownType where
  identity : TypeIdentity
  layout : Layout
deriving DecidableEq, Repr, Inhabited

namespace KnownType

def ofTy (t : Ty) : KnownType := ⟨.primitive t, t.layout⟩

/-- Whether two types are the same. All types without values are. -/
def same (a b : KnownType) : Bool :=
  (a.layout.isVoid && b.layout.isVoid) || a.identity == b.identity

end KnownType
end ScalarJit
