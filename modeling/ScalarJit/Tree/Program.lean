import ScalarJit.Diagnostic
import ScalarJit.Tree.Scope
import ScalarJit.Tree.Typing

/-! # Programs

The functions and externs of a source in the order of their declaration, with what was found wrong
in it. Output and code follow the order of names. -/

namespace ScalarJit

structure Function where
  signature : Signature
  body : Expr
  /-- Every block of the body; the first is the outermost. -/
  blocks : List Block
  /-- Storage slots that the variables need. -/
  slots : Nat
deriving Repr, Inhabited

abbrev Named (α : Type) := String × α

namespace Named

def insert {α : Type} (entry : Named α) : List (Named α) → List (Named α)
  | [] => [entry]
  | head :: rest => if head.1 < entry.1 then head :: insert entry rest else entry :: head :: rest

/-- Entries in ascending order of their names, compared by code points. -/
def sort {α : Type} : List (Named α) → List (Named α)
  | [] => []
  | entry :: rest => insert entry (sort rest)

theorem insert_perm {α : Type} (entry : Named α) (entries : List (Named α)) :
    (insert entry entries).Perm (entry :: entries) := by
  induction entries with
  | nil => exact .refl _
  | cons head rest ih =>
    unfold insert
    split
    · exact (ih.cons head).trans (.swap ..)
    · exact .refl _

theorem sort_perm {α : Type} (entries : List (Named α)) : (sort entries).Perm entries := by
  induction entries with
  | nil => exact .refl _
  | cons entry rest ih => exact (insert_perm entry (sort rest)).trans (ih.cons entry)

end Named

structure Program where
  functions : List (Named Function)
  externs : List (Named Signature)
  diagnostics : List Diagnostic
deriving Repr, Inhabited

namespace Program

def errorCount (p : Program) : Nat := Diagnostic.errorCount p.diagnostics

def function? (p : Program) (name : String) : Option Function := p.functions.lookup name

end Program
end ScalarJit
