import Mathlib.Logic.Relation
import ScalarJit.Proofs.Grammar.WellFormed
import ScalarJit.Proofs.Tree.Parts

/-! # Calls go backwards

A name can be called from the function that declares it and from those after it. So functions in the
order of their declarations call each other backwards only, whatever is wrong in a source. -/

namespace ScalarJit
namespace Program

variable {p q : Program} {i : Nat} {name callee : String} {signature : Signature}

/-- What the function with the number `i` may call: a host function, itself, or one before it. -/
def MayCall (p : Program) (i : Nat) (name callee : String) : Prop :=
  callee ∈ p.externs.map (·.1) ∨ callee = name ∨ ∃ j < i, ∃ f, p.functions[j]? = some (callee, f)

/-- Every call is one that its function may make, and was checked against what is declared. -/
def Backward (p : Program) : Prop :=
  ∀ (i : Nat) (name : String) (f : Function), p.functions[i]? = some (name, f) →
    f.WellFormed fun callee signature => p.Declares callee signature ∧ p.MayCall i name callee

theorem mayCall_of_declares (h : p.Declares callee signature) :
    p.MayCall p.functions.length name callee := by
  unfold Declares signature? function? at h
  cases hf : p.functions.lookup callee with
  | some f =>
    obtain ⟨before, after, heq, -⟩ := List.lookup_eq_some_iff.1 hf
    refine .inr (.inr ⟨before.length, ?_, f, ?_⟩) <;> simp [heq]
  | none =>
    rw [hf] at h
    obtain ⟨before, after, heq, -⟩ := List.lookup_eq_some_iff.1 h
    exact .inl (by simp [heq])

theorem Adds.mayCall (h : p.Adds q) (hc : p.MayCall i name callee) : q.MayCall i name callee := by
  rcases hc with houtside | hself | ⟨j, hj, f, hf⟩
  · left
    cases h with
    | function _ _ => exact houtside
    | outside _ => simp [houtside]
  · exact .inr (.inl hself)
  · refine .inr (.inr ⟨j, hj, f, ?_⟩)
    cases h with
    | function _ _ => rw [List.getElem?_append_left (List.getElem?_eq_some_iff.1 hf).1, hf]
    | outside _ => exact hf

theorem Adds.backward (h : p.Backward) (hadd : p.Adds q) : q.Backward := by
  have hlater : ∀ {i : Nat} {name : String} {f : Function}, p.functions[i]? = some (name, f) →
      f.WellFormed fun callee signature => q.Declares callee signature ∧ q.MayCall i name callee :=
    fun hf => (h _ _ _ hf).mono fun _ _ hc => ⟨hadd.declares hc.1, hadd.mayCall hc.2⟩
  intro i name f hf
  cases hadd with
  | @function added g hnew hg =>
    have hadd := Adds.function hnew hg
    by_cases hi : i < p.functions.length
    · exact hlater (by rwa [List.getElem?_append_left hi] at hf)
    · rw [List.getElem?_append_right (Nat.le_of_not_lt hi), List.getElem?_singleton] at hf
      split at hf
      · next hlast =>
        cases hf
        have hi : i = p.functions.length := by omega
        apply hg.mono
        rintro callee signature (hd | ⟨rfl, rfl⟩)
        · rw [hi]
          exact ⟨hadd.declares hd, hadd.mayCall (mayCall_of_declares hd)⟩
        · exact ⟨(signature?_append_function hnew).trans (if_pos rfl), .inr (.inl rfl)⟩
      · cases hf
  | outside _ => exact hlater hf

theorem Built.backward (h : p.Built) : p.Backward := by
  induction h with
  | nothing => exact fun _ _ _ hf => (by simp at hf)
  | add _ hadd ih => exact hadd.backward ih

/-- A call in a function whose calls go backwards. -/
theorem Backward.call (h : p.Backward) {f : Function} (hf : p.functions[i]? = some (name, f))
    {args : List Expr} {ty : Ty} (hc : .call callee args ty ∈ f.parts) :
    p.MayCall i name callee ∧ ∃ signature, p.signature? callee = some signature ∧
      signature.args.map (·.2) = args.map Expr.ty ∧ signature.result = ty := by
  have hwf := h i name f hf
  rcases hwf.part hc with hbody | ⟨id, hcall⟩
  · obtain ⟨b, -, -, -, heq⟩ := hwf.root
    rw [heq] at hbody
    cases hbody
  · cases hcall with
    | @call _ _ signature hs hty _ => exact ⟨hs.2, signature, hs.1, hty, rfl⟩

def Invokes (p : Program) (caller callee : String) : Prop :=
  ∃ f args ty, (caller, f) ∈ p.functions ∧ .call callee args ty ∈ f.parts

/-- Where calls lead, apart from calls of a function by itself: to a host function or further back. -/
theorem Backward.transGen (h : p.Backward) (hn : p.Ordered) {caller : String}
    (hc : Relation.TransGen (fun a b => p.Invokes a b ∧ b ≠ a) caller callee) :
    callee ∈ p.externs.map (·.1) ∨ ∃ i j : Nat, j < i ∧ (p.functions.map (·.1))[i]? = some caller ∧
      (p.functions.map (·.1))[j]? = some callee := by
  have hdisjoint := List.nodup_append.1 hn.names
  have one : ∀ {a b}, p.Invokes a b → b ≠ a → b ∈ p.externs.map (·.1) ∨ ∃ i j : Nat, j < i ∧
      (p.functions.map (·.1))[i]? = some a ∧ (p.functions.map (·.1))[j]? = some b := by
    rintro a b ⟨f, args, ty, hmem, hcall⟩ hne
    obtain ⟨i, hi⟩ := List.mem_iff_getElem?.1 hmem
    rcases (h.call hi hcall).1 with houtside | hself | ⟨j, hj, g, hg⟩
    · exact .inl houtside
    · exact absurd hself hne
    · exact .inr ⟨i, j, hj, by simp [hi], by simp [hg]⟩
  induction hc with
  | single hcall => exact one hcall.1 hcall.2
  | @tail b c _ hcall ih =>
    have hcaller : b ∈ p.functions.map (·.1) := by
      obtain ⟨f, -, -, hmem, -⟩ := hcall.1
      exact List.mem_map_of_mem (f := (·.1)) hmem
    rcases ih with houtside | ⟨i, j, hij, hi, hj⟩
    · exact absurd rfl (hdisjoint.2.2 _ hcaller _ houtside)
    · rcases one hcall.1 hcall.2 with houtside | ⟨j', k, hjk, hj', hk⟩
      · exact .inl houtside
      · -- names are all different, so the name in the middle has one place
        have hsame : j = j' := by
          have hlt := (List.getElem?_eq_some_iff.1 hj).1
          exact (List.getElem?_inj hlt hdisjoint.1).1 (hj.trans hj'.symm)
        exact .inr ⟨i, k, by omega, hi, hk⟩

/-- In every source, no name is declared twice, and a call is of a host function, of the function that
it stands in or of one that is declared before it, and fits the signature under that name. So no
functions call each other in a circle. -/
theorem calls_backward (source : List Char) :
    ((parse source).functions.map (·.1) ++ (parse source).externs.map (·.1)).Nodup ∧
    (∀ (i : Nat) (name : String) (f : Function), (parse source).functions[i]? = some (name, f) →
      ∀ callee args ty, .call callee args ty ∈ f.parts →
        (parse source).MayCall i name callee ∧
        ∃ signature, (parse source).signature? callee = some signature ∧
          signature.args.map (·.2) = args.map Expr.ty ∧ signature.result = ty) ∧
    ∀ name, ¬Relation.TransGen (fun a b => (parse source).Invokes a b ∧ b ≠ a) name name := by
  have hordered := ordered_parse source
  have hbackward : (parse source).Backward := (built_parse source).backward
  refine ⟨hordered.names, fun i name f hf callee args ty hc => hbackward.call hf hc, ?_⟩
  intro name hcircle
  have hdisjoint := List.nodup_append.1 hordered.names
  rcases hbackward.transGen hordered hcircle with houtside | ⟨i, j, hij, hi, hj⟩
  · obtain ⟨b, ⟨⟨f, -, -, hmem, -⟩, -⟩, -⟩ := Relation.TransGen.head'_iff.1 hcircle
    exact absurd rfl (hdisjoint.2.2 _ (List.mem_map_of_mem (f := (·.1)) hmem) _ houtside)
  · have hlt := (List.getElem?_eq_some_iff.1 hi).1
    have hsame := (List.getElem?_inj hlt hdisjoint.1).1 (hi.trans hj.symm)
    omega

def callsAhead : List Char :=
  ("use p(x: Float64)\nfunc a(x: Float64) -> Float64 \x7b\n return a(x)\n\x7d\n" ++
    "func b() \x7b\n p(a(1))\n c()\n\x7d\nfunc c() \x7b\n b()\n\x7d\nfunc p() \x7b\n\x7d").toList

def calls? (callee : String) : Expr → Bool
  | .call name _ _ => name == callee
  | _ => false

theorem calls_backward_callsAhead : (parse callsAhead).errorCount = 2 ∧
    ∃ f args ty, (parse callsAhead).functions[1]? = some ("b", f) ∧ .call "a" args ty ∈ f.parts ∧
      (parse callsAhead).MayCall 1 "b" "a" := by
  have hparse : (parse callsAhead).errorCount = 2 ∧ ((parse callsAhead).functions[1]?.map fun entry =>
      (entry.1, entry.2.parts.any (calls? "a"))) = some ("b", true) := by
    decide +kernel
  obtain ⟨herrors, hcalls⟩ := hparse
  obtain ⟨⟨name, f⟩, hf, heq⟩ := Option.map_eq_some_iff.1 hcalls
  obtain ⟨rfl, hany⟩ := Prod.mk.inj heq
  obtain ⟨e, he, hcall⟩ := List.any_eq_true.1 hany
  cases e with
  | call callee args ty =>
    obtain rfl : callee = "a" := by simpa [calls?] using hcall
    exact ⟨herrors, f, args, ty, hf, he,
      ((calls_backward callsAhead).2.1 1 "b" f hf "a" args ty he).1⟩
  | _ => simp [calls?] at hcall

end Program
end ScalarJit
