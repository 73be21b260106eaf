import ScalarJit.Proofs.Codegen.Program

/-! # What code is linked to

Items load the addresses of literals in the pool and of functions that are called, and no others. -/

namespace ScalarJit.Codegen

def AllLinks (P : SectionId → Nat → Prop) (items : List Item) : Prop :=
  ∀ target offset, Item.linked target offset ∈ items → P target offset

section
variable {P : SectionId → Nat → Prop} {items more : List Item}

@[simp]
theorem allLinks_nil : AllLinks P [] := by
  intro _ _ h
  cases h

@[simp]
theorem allLinks_append : AllLinks P (items ++ more) ↔ AllLinks P items ∧ AllLinks P more := by
  simp only [AllLinks, List.mem_append, or_imp, forall_and]

@[simp]
theorem allLinks_plain {i : X86.Instr} : AllLinks P (.plain i :: items) ↔ AllLinks P items := by
  simp [AllLinks]

@[simp]
theorem allLinks_linked {target : SectionId} {offset : Nat} :
    AllLinks P (.linked target offset :: items) ↔ P target offset ∧ AllLinks P items := by
  constructor
  · intro h
    exact ⟨h _ _ List.mem_cons_self, fun t o hmem => h t o (List.mem_cons_of_mem _ hmem)⟩
  · rintro ⟨hfirst, hrest⟩ t o hmem
    rcases List.mem_cons.1 hmem with heq | hmem
    · cases heq
      exact hfirst
    · exact hrest t o hmem

@[simp]
theorem allLinks_map {α : Type} (list : List α) (f : α → X86.Instr) :
    AllLinks P (list.map fun a => .plain (f a)) := by
  intro t o hmem
  obtain ⟨a, -, heq⟩ := List.mem_map.1 hmem
  cases heq

theorem AllLinks.mono {Q : SectionId → Nat → Prop} (h : AllLinks P items)
    (imp : ∀ target offset, P target offset → Q target offset) : AllLinks Q items :=
  fun t o hmem => imp t o (h t o hmem)

end

inductive Linked (ctx : Context) (pool : Pool) : SectionId → Nat → Prop
  | constant {offset : Nat} {x : Double} (h : pool.Holds offset x) :
      Linked ctx pool ctx.poolSection offset
  | function {callee : String} {id : SectionId} (h : ctx.sections.lookup callee = some id) :
      Linked ctx pool id 0

section
variable {ctx : Context} {pool : Pool}

theorem allLinks_returnItems {P : SectionId → Nat → Prop} (value : Option Nat) :
    AllLinks P (returnItems value) := by
  cases value with
  | none => simp [returnItems, deliverItems]
  | some k => by_cases hk : reg k = X86.Xmm.result <;> simp [returnItems, deliverItems, hk]

variable [HostAddresses]

theorem allLinks_callItems {P : SectionId → Nat → Prop} {t : Target} (k count : Nat) (returns : Bool)
    (h : AllLinks P (targetItems t)) : AllLinks P (callItems t k count returns) := by
  have hresult : AllLinks P (resultItems returns k) := by
    rw [resultItems]
    split <;> simp
  have hreserve : AllLinks P (if 0 < callArea (k + count) then
      [Item.plain (.reserve (Int32.ofNat (callArea (k + count))))] else []) := by
    split <;> simp
  have hfree : AllLinks P (if 0 < callArea (k + count) then
      [Item.plain (.free (Int32.ofNat (callArea (k + count))))] else []) := by
    split <;> simp
  simp [callItems, spillItems, argumentItems, reloadItems, h, hresult, hreserve, hfree]

theorem allLinks_targetItems_host {P : SectionId → Nat → Prop} (f : HostFunction) :
    AllLinks P (targetItems (.host f)) := by
  cases hf : f.takesContext <;> simp [targetItems, hf]

theorem Lowers.allLinks {d k : Nat} {phrase : Phrase} {items : List Item}
    (h : Lowers ctx pool d k phrase items) : AllLinks (Linked ctx pool) items := by
  induction h with
  | literal _ hx => simpa [constantItems] using Linked.constant hx
  | read => simp
  | write _ _ _ _ ih => simpa using ih
  | bind _ _ _ _ ih => simpa using ih
  | arithmetic _ _ _ ih => simpa using ih
  | @comparison _ _ _ _ _ swapped _ _ _ _ _ hx _ ih =>
    have hone : Linked ctx pool ctx.poolSection _ := Linked.constant hx
    cases swapped <;> simpa [comparisonItems, constantItems, ih] using hone
  | power _ _ _ ih =>
    exact allLinks_append.2 ⟨ih, allLinks_callItems _ _ _ (allLinks_targetItems_host _)⟩
  | plus _ ih => exact ih
  | minus _ _ hx _ ih => simpa [constantItems, ih] using Linked.constant hx
  | @call _ _ _ _ _ t _ ht _ _ _ _ ih =>
    refine allLinks_append.2 ⟨ih, allLinks_callItems _ _ _ ?_⟩
    cases ht with
    | code hid => simpa [targetItems] using Linked.function hid
    | host _ _ => exact allLinks_targetItems_host _
  | leave => exact allLinks_returnItems none
  | leaveWith _ _ _ ih => exact allLinks_append.2 ⟨ih, allLinks_returnItems _⟩
  | @ifThen _ k _ onTrue _ _ _ _ _ _ _ ihc iht =>
    have hmissing : AllLinks (Linked ctx pool) (missingItems onTrue.hasValue k) := by
      rw [missingItems]
      split <;> simp
    simp [conditionalItems, testItems, ihc, iht, hmissing]
  | ifThenElse _ _ _ _ _ _ _ _ ihc iht ihf => simp [conditionalItems, testItems, ihc, iht, ihf]
  | block _ _ ih => exact ih
  | noArguments => exact allLinks_nil
  | argument _ _ _ _ ih ihrest => exact allLinks_append.2 ⟨ih, ihrest⟩
  | noStatements => exact allLinks_nil
  | lastStatement _ _ ih => exact ih
  | statement _ _ ih ihrest => exact allLinks_append.2 ⟨ih, ihrest⟩

theorem LowersFunction.allLinks {items : List Item} (h : LowersFunction ctx pool items) :
    AllLinks (Linked ctx pool) items := by
  obtain ⟨is, hlower, rfl⟩ := h.body
  have hreserve : AllLinks (Linked ctx pool) (if 0 < frameSize ctx.function then
      [Item.plain (.reserve (Int32.ofNat (frameSize ctx.function)))] else []) := by
    split <;> simp
  simp [functionItems, storeItems, allLinks_returnItems, hlower.allLinks, hreserve]

theorem LowersFunction.sizeOf_pos {items : List Item} (h : LowersFunction ctx pool items) :
    0 < sizeOf items := by
  obtain ⟨is, -, rfl⟩ := h.body
  have hpush : 0 < (Item.plain (.push .rbp)).size := by decide
  rw [functionItems, List.cons_append, sizeOf_cons]
  omega

end
end ScalarJit.Codegen
