import ScalarJit.Proofs.Grammar.Reading

/-! # Readers of expressions and statements

Each reader, given readers of operands that keep the arena in order, keeps it in order. The last
result is about the reader of operands itself, by induction on how deep operands may nest. -/

namespace ScalarJit.Grammar

/-- A reader of expressions that keeps the arena in order wherever it is used. -/
def Reads (operand : ParseM Expr) : Prop :=
  ∀ (id : BlockId) (s : State), s.Inside id → Reading id operand s (Fits id)

variable {operand : ParseM Expr} {id : BlockId} {s : State}

theorem Advance.fits {t : State} (h : Advance id s t) {e : Expr} (he : Fits id e s) : Fits id e t :=
  h.wellFormed (Nat.le_refl id) he

/-! ### Variables -/

theorem encloses_of_resolveWithin {blocks : List Block} {name : String} {bound : Nat}
    {start : BlockId} {var : VarRef} (h : resolveWithin blocks name bound start = some var) :
    Encloses blocks var.block start := by
  induction bound generalizing start with
  | zero => simp [resolveWithin] at h
  | succ bound ih =>
    rw [resolveWithin] at h
    split at h
    · cases h
    · next b hb =>
      split at h
      · cases h
        exact .self
      · split at h
        · cases h
        · next parent hp => exact .inside hb hp (ih h)

theorem reading_readVariable (hs : s.Inside id) (name : String) (start : Token) :
    Reading id (readVariable name start) s (Fits id) := by
  unfold readVariable
  refine .bind hs (.get (Q := fun a t => a = t) rfl) ?_
  rintro _ t - ht rfl
  dsimp only
  split
  · next e found =>
    obtain ⟨var, hvar, hfound⟩ := Option.bind_eq_some_iff.1 found
    obtain ⟨v, hv, rfl⟩ := Option.map_eq_some_iff.1 hfound
    rw [ht.here_eq] at hvar
    obtain ⟨v', hv', hname⟩ := declaration?_of_resolveWithin hvar
    rw [hv, Option.some_inj] at hv'
    rw [← hv'] at hname
    exact .pure (.read hv hname (encloses_of_resolveWithin hvar))
  · exact .failAt _ _

theorem advance_declare (hs : s.Inside id) (name : String) (ty : Ty) (mutable : Bool) :
    Advance id s (s.declare name ty mutable).2 := by
  have hgrows : Grows id s.scope.blocks (s.declare name ty mutable).2.scope.blocks := by
    show Grows id s.scope.blocks (s.scope.blocks.modify s.here _)
    rw [hs.here_eq]
    exact .modify id _ (fun _ => rfl) (fun b => List.prefix_append b.locals _)
      (fun _ => List.prefix_rfl)
  refine ⟨rfl, rfl, rfl, rfl, rfl, hgrows, ?_, ?_, ?_⟩
  · intro i b hi hb
    have hlen : (s.declare name ty mutable).2.scope.blocks.length = s.scope.blocks.length :=
      List.length_modify ..
    rw [List.getElem?_eq_none (Nat.le_trans (Nat.le_of_eq hlen) hi)] at hb
    cases hb
  · intro hsound b hb e he
    obtain ⟨b', hb', rfl⟩ : ∃ b', s.scope.blocks[id]? = some b' ∧
        { b' with locals := b'.locals ++ [⟨name, ty, mutable, s.scope.slots⟩] } = b := by
      have hb : (s.scope.blocks.modify s.here _)[id]? = some b := hb
      rw [hs.here_eq, List.getElem?_modify_eq] at hb
      exact Option.map_eq_some_iff.1 hb
    obtain ⟨hu, hw⟩ := hsound b' hb' e he
    exact ⟨hu, hw.grows (Nat.le_refl id) hgrows (fun _ _ h => h) rfl⟩
  · intro hslots
    have hhere : s.here < s.scope.blocks.length := hs.here_eq ▸ hs.2
    have hmod := slotsOf_modify_locals hhere ⟨name, ty, mutable, s.scope.slots⟩
    show (slotsOf _).Perm (List.range (s.scope.slots + 1))
    rw [List.range_succ]
    exact hmod.trans (hslots.append_right _)

theorem declaration?_declare (hs : s.Inside id) (name : String) (ty : Ty) (mutable : Bool) :
    (s.declare name ty mutable).1.block = id ∧
      declaration? (s.declare name ty mutable).2.scope.blocks (s.declare name ty mutable).1 =
        some ⟨name, ty, mutable, s.scope.slots⟩ := by
  have hlt := hs.2
  simp only [State.declare, hs.here_eq, declaration?, List.getElem?_modify_eq,
    List.getElem?_eq_getElem hlt]
  exact ⟨trivial, by simp⟩

/-! ### Operators -/

theorem reading_combineAt {lhs rhs : Expr} (hl : Fits id lhs s) (hr : Fits id rhs s) (start : Token)
    (op : Operator) : Reading id (combineAt start op lhs rhs) s (Fits id) :=
  (ends_combineAt start op lhs rhs).2
    ⟨fun _ he => ⟨.refl id s, wellFormed_of_combine hl hr he⟩, fun _ _ => .refl id s⟩

/-- Both folds together: each uses the other on a smaller bound. -/
theorem reading_climb_tighten (ho : Reads operand) (bound : Nat) :
    (∀ (least : Nat) (lhs : Expr) (s : State), s.Inside id → Fits id lhs s →
      Reading id (climb operand bound least lhs) s (Fits id)) ∧
    (∀ (op : Operator) (rhs : Expr) (s : State), s.Inside id → Fits id rhs s →
      Reading id (tighten operand bound op rhs) s (Fits id)) := by
  -- What was read stays well-formed while the scope grows, so it is carried over each step.
  induction bound with
  | zero =>
    refine ⟨fun least lhs s _ hl => ?_, fun op rhs s _ hr => ?_⟩
    · rw [climb]
      exact .pure hl
    · rw [tighten]
      exact .pure hr
  | succ bound ih =>
    obtain ⟨ihc, iht⟩ := ih
    constructor
    · intro least lhs s hs hl
      rw [climb]
      refine .bind hs .operator? fun op t hst ht _ => ?_
      have hl := hst.fits hl
      split
      · exact .pure hl
      split
      · exact .pure hl
      refine .bind ht .token fun start u htu hu _ => ?_
      have hl := htu.fits hl
      refine .bind hu .bump fun _ v huv hv _ => ?_
      have hl := huv.fits hl
      refine .bind hv (ho id v hv) fun rhs w hvw hw hr => ?_
      have hl := hvw.fits hl
      refine .bind hw (iht _ rhs w hw hr) fun rhs x hwx hx hr => ?_
      have hl := hwx.fits hl
      refine .bind hx (reading_combineAt hl hr start _) fun e y _ hy he => ?_
      exact ihc least e y hy he
    · intro op rhs s hs hr
      rw [tighten]
      refine .bind hs .operator? fun next t hst ht _ => ?_
      have hr := hst.fits hr
      split
      · exact .pure hr
      split
      · exact .bind ht (ihc _ rhs t ht hr) fun e u _ hu he => iht op e u hu he
      split
      · exact .bind ht (ihc _ rhs t ht hr) fun e u _ hu he => iht op e u hu he
      · exact .pure hr

theorem Reads.expression (ho : Reads operand) : Reads (expression operand) := by
  intro id s hs
  unfold Grammar.expression
  refine .bind hs (ho id s hs) fun lhs t _ ht hl => ?_
  refine .bind ht (.get (Q := fun _ _ => True) trivial) fun _ u htu hu _ => ?_
  exact (reading_climb_tighten ho _).1 1 lhs u hu (htu.fits hl)

/-! ### Statements -/

theorem reading_declared {name : String} {value : Expr} (mutable : Bool) (hs : s.Inside id)
    (hvalue : Fits id value s) (hvoid : value.ty ≠ .void) :
    Reading id ((do
      let var ← modifyGet fun s => s.declare name value.ty mutable
      return .bind name var value) : ParseM Expr) s (Fits id) := by
  obtain ⟨hblock, hdecl⟩ := declaration?_declare hs name value.ty mutable
  have hadv := advance_declare hs name value.ty mutable
  exact ⟨hadv, .bind hdecl rfl hblock rfl hvoid (hadv.fits hvalue)⟩

theorem reading_bindValue (ho : Reads operand) (mutable : Bool) (start : Token) (name : String)
    (given : Option Ty) (hs : s.Inside id) :
    Reading id (bindValue operand mutable start name given) s (Fits id) := by
  unfold bindValue
  refine .bind hs (.expectSymbol _ _) fun _ s _ hs _ => ?_
  refine .bind hs (ho.expression id s hs) fun value s _ hs hvalue => ?_
  dsimp only
  split
  · exact .bind hs (.failAt (Q := fun _ _ => False) _ _) fun _ _ _ _ h => h.elim
  · next hvoid =>
    split
    · split
      · exact .bind hs (.failAt (Q := fun _ _ => False) _ _) fun _ _ _ _ h => h.elim
      · exact reading_declared mutable hs hvalue hvoid
    · exact reading_declared mutable hs hvalue hvoid

theorem reading_binding (ho : Reads operand) (hs : s.Inside id) (mutable : Bool) :
    Reading id (binding operand mutable) s (Fits id) := by
  unfold binding
  refine .bind hs .bump fun _ s _ hs _ => ?_
  refine .bind hs .token fun start s _ hs _ => ?_
  refine .bind hs (.identifier _) fun name s _ hs _ => ?_
  refine .bind hs .kind fun found s _ hs _ => ?_
  dsimp only
  split
  · refine .bind hs .bump fun _ s _ hs _ => ?_
    exact .bind hs (.map (Q := fun _ _ => True) .typeName) fun given s _ hs _ =>
      reading_bindValue ho mutable start name given hs
  · exact .bind hs (.pure (Q := fun _ _ => True) trivial) fun given s _ hs _ =>
      reading_bindValue ho mutable start name given hs

theorem reading_returnStatement (ho : Reads operand) (hs : s.Inside id) :
    Reading id (returnStatement operand) s (Fits id) := by
  unfold returnStatement
  refine .bind hs .token fun start s _ hs _ => ?_
  refine .bind hs .bump fun _ s _ hs _ => ?_
  refine .bind hs .kind fun found s _ hs _ => ?_
  have rest : ∀ (value : Option Expr) (s : State), s.Inside id →
      (∀ v, value = some v → Fits id v s) → Reading id (do
        typed start (Typing.leave value (← get).scope.signature.result)) s (Fits id) := by
    intro value s hs hvalue
    refine .bind hs (.get (Q := fun a t => a = t) rfl) ?_
    rintro _ t hst - rfl
    exact .typed _ fun e he => wellFormed_of_leave (fun v hv => hst.fits (hvalue v hv)) he
  dsimp only
  split
  · exact .bind hs (.pure (Q := fun a _ => a = none) rfl) fun value s _ hs hnone =>
      rest value s hs fun v hv => (by rw [hnone] at hv; cases hv)
  · refine .bind hs (.map (Q := fun a t => ∀ v, a = some v → Fits id v t)
      ((ho.expression id s hs).mono fun e t _ he v hv => ?_)) fun value s _ hs hv => rest value s hs hv
    cases hv
    exact he

theorem reading_statement (ho : Reads operand) (hs : s.Inside id) :
    Reading id (statement operand) s (Fits id) := by
  unfold statement
  refine .bind hs .kind fun found s _ hs _ => ?_
  split
  · exact reading_binding ho hs false
  · exact reading_binding ho hs true
  · exact reading_returnStatement ho hs
  · exact .failHere _
  · exact .failHere _
  · exact ho.expression id s hs

/-! ### Blocks -/

theorem advance_addStatement {e : Expr} (hu : e.useful = true)
    (he : Fits id e s) : Advance id s (s.addStatement id e) := by
  have hgrows : Grows id s.scope.blocks (s.addStatement id e).scope.blocks :=
    .modify id _ (fun _ => rfl) (fun _ => List.prefix_rfl)
      (fun b => List.prefix_append b.statements _)
  have lift : ∀ {e'}, Fits id e' s → Fits id e' (s.addStatement id e) := fun h =>
    h.grows (Nat.le_refl id) hgrows (fun _ _ h => h) rfl
  refine ⟨rfl, rfl, rfl, rfl, rfl, hgrows, ?_, ?_, ?_⟩
  · intro i b hi hb
    have hlen : (s.addStatement id e).scope.blocks.length = s.scope.blocks.length :=
      List.length_modify ..
    rw [List.getElem?_eq_none (Nat.le_trans (Nat.le_of_eq hlen) hi)] at hb
    cases hb
  · intro hsound b hb e' he'
    obtain ⟨b', hb', rfl⟩ : ∃ b', s.scope.blocks[id]? = some b' ∧
        { b' with statements := b'.statements ++ [e] } = b := by
      have hb : (s.scope.blocks.modify id _)[id]? = some b := hb
      rw [List.getElem?_modify_eq] at hb
      exact Option.map_eq_some_iff.1 hb
    rcases List.mem_append.1 he' with hold | hnew
    · obtain ⟨hu', hw'⟩ := hsound b' hb' e' hold
      exact ⟨hu', lift hw'⟩
    · rw [List.mem_singleton.1 hnew]
      exact ⟨hu, lift he⟩
  · intro hslots
    simpa only [State.SlotsShared, State.addStatement, slotsOf_modify_statements] using hslots

theorem advance_statements (ho : Reads operand) (bound : Nat) (s : State) (hs : s.Inside id) :
    Advance id s (statements operand id bound s) := by
  induction bound generalizing s with
  | zero => exact .refl id s
  | succ bound ih =>
    have next {t : State} (hst : Advance id s t) : Advance id s (statements operand id bound t) :=
      hst.trans hs (ih t (hst.inside hs))
    rw [statements]
    split
    · exact next (advance_bump id s)
    · exact .refl id s
    · exact advance_report id s _
    · have hstmt := ends_iff.1 (reading_statement ho hs)
      have recovered {t : State} (p : Problem) (hst : Advance id s t) :
          Advance id s (t.report p).endStatement :=
        (hst.trans hs (advance_report id t p)).trans hs (advance_endStatement id _)
      split
      · next problem after hrun => exact next (recovered problem (hstmt.2 _ _ hrun))
      · next e after hrun =>
        obtain ⟨hst, he⟩ := hstmt.1 _ _ hrun
        split
        · exact next (recovered _ hst)
        split
        · exact next (hst.trans hs (advance_report id after _))
        · next hu =>
          exact next (hst.trans hs (advance_addStatement (by simpa using hu) he))

theorem blockBody_eq (ho : Reads operand) (hs : s.Inside id) :
    ∃ t, Advance id s t ∧ blockBody operand id s =
      (.block id ((t.scope.blocks[id]?.map (·.ty)).getD .void), t.closeBlock id) := by
  have hopen := advance_bump_brackets id s 0
  have hread := advance_statements ho { s with brackets := 0 }.bump.remaining
    { s with brackets := 0 }.bump (hopen.inside hs)
  have hall := hopen.trans hs hread
  unfold blockBody
  dsimp only
  split
  · exact ⟨_, hall.trans hs (advance_bump_brackets id _ s.brackets), rfl⟩
  · exact ⟨_, hall.trans hs (advance_brackets id _ s.brackets), rfl⟩

theorem inside_openBlock (s : State) : s.openBlock.2.Inside s.openBlock.1 := by
  refine ⟨rfl, ?_⟩
  show s.scope.blocks.length < (s.scope.blocks ++ [_]).length
  rw [List.length_append]
  exact Nat.lt_succ_self _

theorem sound_openBlock (s : State) : s.openBlock.2.Sound s.openBlock.1 := by
  intro b hb e he
  have hb : (s.scope.blocks ++ [Block.empty s.scope.current])[s.scope.blocks.length]? = some b := hb
  rw [List.getElem?_concat_length] at hb
  cases hb
  cases he

theorem getElem?_openBlock (s : State) {i : Nat} (hi : i < s.scope.blocks.length) :
    s.openBlock.2.scope.blocks[i]? = s.scope.blocks[i]? :=
  List.getElem?_append_left hi

/-- A block in an expression is closed again when its reader is done. -/
theorem reading_block (ho : Reads operand) (hs : s.Inside id) :
    Reading id (block operand) s (Fits id) := by
  obtain ⟨t, hadv, hbody⟩ := blockBody_eq ho (inside_openBlock s)
  refine ends_block.2 ?_
  rw [hbody]
  have hlen : s.openBlock.2.scope.blocks.length = s.scope.blocks.length + 1 := List.length_append
  have hkept : ∀ (i : Nat) (b : Block), s.scope.blocks[i]? = some b →
      t.scope.blocks[i]? = some b := by
    intro i b hb
    have hi : i < s.scope.blocks.length := (List.getElem?_eq_some_iff.1 hb).1
    exact hadv.grows.getElem?_of_ne (Nat.ne_of_lt hi) ((getElem?_openBlock s hi).trans hb)
  have hgrows : Grows id s.scope.blocks t.scope.blocks := fun i b hb =>
    ⟨b, hkept i b hb, rfl, List.prefix_rfl, List.prefix_rfl, fun _ => rfl⟩
  obtain ⟨b, hb, hp⟩ : ∃ b, t.scope.blocks[s.scope.blocks.length]? = some b ∧ b.parent = some id := by
    have hnew : s.openBlock.2.scope.blocks[s.scope.blocks.length]? =
        some (Block.empty s.scope.current) := List.getElem?_concat_length ..
    obtain ⟨b, hb, hp, -⟩ := hadv.grows _ _ hnew
    exact ⟨b, hb, hp.trans hs.1⟩
  have hcurrent : (t.closeBlock s.openBlock.1).scope.current = s.scope.current := by
    show (t.scope.blocks[s.scope.blocks.length]?).bind (·.parent) = s.scope.current
    rw [hb, Option.bind_some, hp, hs.1]
  have hdecl : ∀ name, t.signature? name = s.signature? name := hadv.signature?_eq
  have hresult : t.scope.signature.result = s.scope.signature.result :=
    congrArg Signature.result hadv.signature
  refine ⟨⟨hadv.functions, hadv.externs, hadv.name, hadv.signature, hcurrent, hgrows, ?_, ?_, ?_⟩, ?_⟩
  · intro i b' hi hb'
    rcases Nat.eq_or_lt_of_le hi with rfl | hlt
    · have hsame : b' = b := Option.some_inj.1 (hb'.symm.trans hb)
      rw [hsame]
      exact ⟨⟨id, hs.2, hp⟩, hadv.sound (sound_openBlock s)⟩
    · exact hadv.fresh i b' (by rw [hlen]; exact hlt) hb'
  · intro hsound b' hb' e he
    have hold := List.getElem?_eq_getElem hs.2
    have hsame := Option.some_inj.1 ((hkept id _ hold).symm.trans hb')
    obtain ⟨hu, hw⟩ := hsound _ hold e (hsame ▸ he)
    exact ⟨hu, hw.grows (Nat.le_refl id) hgrows (fun name _ h => (hdecl name).trans h) hresult⟩
  · intro hslots
    refine hadv.slots ?_
    show (slotsOf (s.scope.blocks ++ [_])).Perm _
    rw [slotsOf_append_empty]
    exact hslots
  · have hblock : Expr.WellFormed t.surroundings id (.block s.scope.blocks.length b.ty) :=
      .block hb hp hs.2
    show Expr.WellFormed _ id (.block s.scope.blocks.length
      ((t.scope.blocks[s.scope.blocks.length]?.map (·.ty)).getD .void))
    rw [hb]
    exact hblock

/-! ### Operands -/

theorem reading_callArguments (ho : Reads operand) (callee : String) (bound : Nat)
    (args : List Expr) (s : State) (hs : s.Inside id) (ha : ∀ arg ∈ args, Fits id arg s) :
    Reading id (callArguments operand callee bound args) s
      fun args t => ∀ arg ∈ args, Fits id arg t := by
  induction bound generalizing args s with
  | zero =>
    rw [callArguments]
    exact .pure ha
  | succ bound ih =>
    rw [callArguments]
    refine .bind hs (ho.expression id s hs) fun arg t hst ht harg => ?_
    have hall : ∀ a ∈ args ++ [arg], Fits id a t := by
      intro a hmem
      rcases List.mem_append.1 hmem with hold | hnew
      · exact hst.fits (ha a hold)
      · rw [List.mem_singleton.1 hnew]
        exact harg
    refine .bind ht .kind fun found u htu hu _ => ?_
    have hall : ∀ a ∈ args ++ [arg], Fits id a u := fun a hmem => htu.fits (hall a hmem)
    split
    · refine .bind hu .bump fun _ v huv hv _ => ?_
      exact ih _ v hv fun a hmem => huv.fits (hall a hmem)
    · exact .pure hall
    · exact .failHere _

theorem reading_call (ho : Reads operand) (hs : s.Inside id) (callee : String) (start : Token) :
    Reading id (call operand callee start) s (Fits id) := by
  unfold call
  refine .bind hs .openBracket fun _ s _ hs _ => ?_
  refine .bind hs .kind fun found s _ hs _ => ?_
  have rest : ∀ (args : List Expr) (s : State), s.Inside id → (∀ arg ∈ args, Fits id arg s) →
      Reading id (finishCall callee start args) s (Fits id) := by
    intro args s hs ha
    unfold finishCall
    refine .bind hs .closeBracket fun _ t hst ht _ => ?_
    refine .bind ht (.get (Q := fun a t => a = t) rfl) ?_
    rintro _ u htu - rfl
    split
    · next signature hsig =>
      refine .typed _ fun e he => ?_
      obtain ⟨hty, rfl⟩ := Typing.call_eq_ok_iff.1 he
      exact .call hsig hty fun arg hmem => htu.fits (hst.fits (ha arg hmem))
    · exact .failAt _ _
  dsimp only
  split
  · exact .bind hs (.pure (Q := fun a _ => a = []) rfl) fun args s _ hs hnil =>
      rest args s hs fun arg hmem => (by rw [hnil] at hmem; cases hmem)
  · refine .bind hs (.get (Q := fun _ _ => True) trivial) fun _ s _ hs _ => ?_
    exact .bind hs (reading_callArguments ho callee _ [] s hs fun _ h => (by cases h))
      fun args s _ hs ha => rest args s hs ha

def Branch.Fits (id : BlockId) (b : Branch) (s : State) : Prop :=
  Grammar.Fits id b.condition s ∧ Grammar.Fits id b.body s

theorem reading_branch (ho : Reads operand) (hs : s.Inside id) (keyword : Keyword) :
    Reading id (branch operand keyword) s (Branch.Fits id) := by
  unfold branch
  refine .bind hs .token fun start s _ hs _ => ?_
  refine .bind hs .bump fun _ s _ hs _ => ?_
  refine .bind hs (ho.expression id s hs) fun condition s _ hs hc => ?_
  refine .bind hs .kind fun found t hst ht _ => ?_
  dsimp only
  split
  · exact .bind ht (.failHere (Q := fun _ _ => False) _) fun _ _ _ _ h => h.elim
  · refine .bind ht (reading_block ho ht) fun body u htu _ hb => ?_
    exact .pure ⟨htu.fits (hst.fits hc), hb⟩

theorem reading_furtherBranches (ho : Reads operand) (bound : Nat) (branches : List Branch)
    (s : State) (hs : s.Inside id) (hb : ∀ b ∈ branches, b.Fits id s) :
    Reading id (furtherBranches operand bound branches) s
      fun branches t => ∀ b ∈ branches, b.Fits id t := by
  have lift {t u : State} (htu : Advance id t u) {b : Branch} (h : b.Fits id t) : b.Fits id u :=
    ⟨htu.fits h.1, htu.fits h.2⟩
  induction bound generalizing branches s with
  | zero =>
    rw [furtherBranches]
    exact .pure hb
  | succ bound ih =>
    rw [furtherBranches]
    refine .bind hs .kind fun found t hst ht _ => ?_
    split
    · refine .bind ht (reading_branch ho ht _) fun next u htu hu hnext => ?_
      refine ih _ u hu fun b hmem => ?_
      rcases List.mem_append.1 hmem with hold | hnew
      · exact lift htu (lift hst (hb b hold))
      · rw [List.mem_singleton.1 hnew]
        exact hnext
    · exact .pure fun b hmem => lift hst (hb b hmem)

theorem reading_joinBranches (otherwise : Option Expr) (branches : List Branch) (s : State)
    (hs : s.Inside id) (hb : ∀ b ∈ branches, b.Fits id s)
    (hf : ∀ e, otherwise = some e → Fits id e s) :
    Reading id (joinBranches otherwise branches) s fun r t => ∀ e, r = some e → Fits id e t := by
  induction branches generalizing s with
  | nil =>
    rw [joinBranches]
    exact .pure hf
  | cons b branches ih =>
    rw [joinBranches]
    have hrest := ih s hs (fun b' hmem => hb b' (List.mem_cons_of_mem b hmem)) hf
    refine .bind hs hrest fun alternative t hst ht halt => ?_
    obtain ⟨hc, hbody⟩ := hb b List.mem_cons_self
    refine .map ((Reading.typed b.start fun e he => ?_).mono fun e u _ he e' heq => ?_)
    · exact wellFormed_of_conditional (hst.fits hc) (hst.fits hbody) halt he
    · cases heq
      exact he

theorem reading_conditional (ho : Reads operand) (hs : s.Inside id) :
    Reading id (conditional operand) s (Fits id) := by
  unfold conditional
  refine .bind hs (reading_branch ho hs _) fun head s _ hs hhead => ?_
  refine .bind hs (.get (Q := fun _ _ => True) trivial) fun _ t hst ht _ => ?_
  refine .bind ht (reading_furtherBranches ho _ [] t ht fun _ h => (by cases h))
    fun further u htu hu hfurther => ?_
  refine .bind hu .kind fun found v huv hv _ => ?_
  have hc := huv.fits (htu.fits (hst.fits hhead.1))
  have hb := huv.fits (htu.fits (hst.fits hhead.2))
  have rest : ∀ (otherwise : Option Expr) (w : State), Advance id v w → w.Inside id →
      (∀ e, otherwise = some e → Fits id e w) → Reading id (do
        let alternative ← joinBranches otherwise further
        typed head.start (Typing.conditional head.condition head.body alternative)) w (Fits id) := by
    intro otherwise w hvw hw hf
    have hbranches : ∀ b ∈ further, b.Fits id w := fun b hmem =>
      ⟨hvw.fits (huv.fits (hfurther b hmem).1), hvw.fits (huv.fits (hfurther b hmem).2)⟩
    refine .bind hw (reading_joinBranches otherwise further w hw hbranches hf)
      fun alternative x hwx _ halt => ?_
    exact .typed _ fun e he =>
      wellFormed_of_conditional (hwx.fits (hvw.fits hc)) (hwx.fits (hvw.fits hb)) halt he
  dsimp only
  split
  · refine .bind hv .bump fun _ w hvw hw _ => ?_
    refine .bind hw .kind fun found x hwx hx _ => ?_
    have hvx := hvw.trans hv hwx
    split
    · exact .bind hx (.failHere (Q := fun _ _ => False) _) fun _ _ _ _ h => h.elim
    · refine .bind hx (.map (Q := fun r t => ∀ e, r = some e → Fits id e t)
        ((reading_block ho hx).mono fun e t _ he e' heq => ?_))
        fun otherwise y hxy hy hf => rest otherwise y (hvx.trans hv hxy) hy hf
      cases heq
      exact he
  · exact .bind hv (.pure (Q := fun r _ => r = none) rfl) fun otherwise w hvw hw hnone =>
      rest otherwise w hvw hw fun e he => (by rw [hnone] at he; cases he)

theorem reading_signed (ho : Reads operand) (hs : s.Inside id) (op : UnaryOp) :
    Reading id (signed operand op) s (Fits id) := by
  unfold signed
  refine .bind hs .token fun start s _ hs _ => ?_
  refine .bind hs .bump fun _ s _ hs _ => ?_
  refine .bind hs (ho id s hs) fun e s _ _ he => ?_
  refine .typed _ fun e' he' => ?_
  obtain ⟨hv, rfl⟩ := Typing.unary_eq_ok_iff.1 he'
  exact .unary he hv

theorem reading_bracketed (ho : Reads operand) (hs : s.Inside id) :
    Reading id (bracketed operand) s (Fits id) := by
  unfold bracketed
  refine .bind hs .token fun start s _ hs _ => ?_
  refine .bind hs .openBracket fun _ s _ hs _ => ?_
  refine .bind hs .kind fun found s _ hs _ => ?_
  dsimp only
  split
  · exact .bind hs (.failAt (Q := fun _ _ => False) _ _) fun _ _ _ _ h => h.elim
  · refine .bind hs (ho.expression id s hs) fun e s _ hs he => ?_
    refine .bind hs .kind fun found t hst ht _ => ?_
    split
    · exact .bind ht (.failHere (Q := fun _ _ => False) _) fun _ _ _ _ h => h.elim
    · exact .bind ht .closeBracket fun _ u htu _ _ => .pure (htu.fits (hst.fits he))

theorem Reads.operandWith (ho : Reads operand) : Reads (operandWith operand) := by
  intro id s hs
  unfold Grammar.operandWith
  refine .bind hs .token fun start s _ hs _ => ?_
  split
  · exact reading_signed ho hs _
  · exact reading_signed ho hs _
  · exact reading_bracketed ho hs
  · exact reading_block ho hs
  · exact .bind hs .bump fun _ s _ _ _ => .pure (.literal _)
  · refine .bind hs .bump fun _ s _ hs _ => ?_
    refine .bind hs .kind fun found s _ hs _ => ?_
    split
    · exact reading_call ho hs _ _
    · exact reading_readVariable hs _ _
  · exact reading_conditional ho hs
  · exact .failHere _

theorem Reads.nested (ho : Reads operand) : Reads (nested operand) := by
  intro id s hs
  have hup : ∀ {t : State}, Advance id s.descend t → Advance id s t.ascend := fun ht =>
    ((advance_descend id s).trans hs ht).trans hs (advance_ascend id _)
  refine ends_nested.2 ⟨fun _ => .refl id s, fun _ => ?_⟩
  exact Ends.mono (ho id s.descend hs) (fun _ _ ht => ⟨hup ht.1, ht.2⟩) fun _ _ ht => hup ht

theorem reads_operandWithin (depth : Nat) : Reads (operandWithin depth) := by
  induction depth with
  | zero => exact fun id s _ => .failHere _
  | succ depth ih => exact ih.operandWith.nested

end ScalarJit.Grammar
