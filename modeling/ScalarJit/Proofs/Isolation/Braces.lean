import ScalarJit.Proofs.Isolation.Ahead

/-! # Braces are passed in pairs

However a reader of a statement or of an operand ends, the braces that it passed match: each that it
closed it opened before, and each that it opened it closed, or it came to the end of the source. So a
block is read to the brace that closes it, whatever is wrong in it. -/

namespace ScalarJit.Grammar

/-! ### Levels -/

/-- Braces that are open after one more token, none if it closes one that is not open. -/
def levelAfter (depth : Nat) (kind : TokenKind) : Option Nat :=
  if kind = .symbol .openCurly then some (depth + 1)
  else if kind = .symbol .closedCurly then (if depth = 0 then none else some (depth - 1))
  else some depth

/-- Braces that are open after tokens, if none of them closes one that is not open. -/
def level : Nat → List TokenKind → Option Nat
  | depth, [] => some depth
  | depth, kind :: rest => (levelAfter depth kind).bind (level · rest)

def isBrace (kind : TokenKind) : Bool := kind == .symbol .openCurly || kind == .symbol .closedCurly

theorem level_append (depth : Nat) (x y : List TokenKind) :
    level depth (x ++ y) = (level depth x).bind (level · y) := by
  induction x generalizing depth with
  | nil => rfl
  | cons k x ih =>
    rw [List.cons_append, level, level]
    cases levelAfter depth k with
    | none => rfl
    | some next => exact ih next

theorem level_cons_plain {kind : TokenKind} (h : isBrace kind = false) (depth : Nat)
    (rest : List TokenKind) : level depth (kind :: rest) = level depth rest := by
  obtain ⟨hopen, hclosed⟩ := Bool.or_eq_false_iff.1 h
  rw [level, levelAfter, if_neg (beq_eq_false_iff_ne.1 hopen), if_neg (beq_eq_false_iff_ne.1 hclosed)]
  rfl

theorem level_cons_open (depth : Nat) (rest : List TokenKind) :
    level depth (.symbol .openCurly :: rest) = level (depth + 1) rest := rfl

theorem level_succ_closed (depth : Nat) (rest : List TokenKind) :
    level (depth + 1) (.symbol .closedCurly :: rest) = level depth rest := rfl

theorem level_newlines {kinds : List TokenKind} (h : ∀ k ∈ kinds, k = .newline) (depth : Nat)
    (rest : List TokenKind) : level depth (kinds ++ rest) = level depth rest := by
  induction kinds with
  | nil => rfl
  | cons k kinds ih =>
    rw [List.cons_append, h k List.mem_cons_self, level_cons_plain rfl,
      ih fun other hmem => h other (List.mem_cons_of_mem k hmem)]

theorem level_succ {depth n : Nat} {x : List TokenKind} (h : level depth x = some n) :
    level (depth + 1) x = some (n + 1) := by
  induction x generalizing depth with
  | nil =>
    cases h
    rfl
  | cons k x ih =>
    by_cases hopen : k = .symbol .openCurly
    · rw [hopen, level_cons_open] at h ⊢
      exact ih h
    · by_cases hclosed : k = .symbol .closedCurly
      · rw [hclosed] at h ⊢
        cases depth with
        | zero => cases h
        | succ depth =>
          rw [level_succ_closed] at h ⊢
          exact ih h
      · have hplain : isBrace k = false :=
          Bool.or_eq_false_iff.2 ⟨beq_eq_false_iff_ne.2 hopen, beq_eq_false_iff_ne.2 hclosed⟩
        rw [level_cons_plain hplain] at h ⊢
        exact ih h

/-- The brace that closes what is around is found in one way. -/
theorem closing_unique {x y z w : List TokenKind} (hx : level 0 x = some 0) (hy : level 0 y = some 0)
    (h : x ++ .symbol .closedCurly :: z = y ++ .symbol .closedCurly :: w) : x = y ∧ z = w := by
  have shorter : ∀ {x y z w : List TokenKind}, level 0 x = some 0 → level 0 y = some 0 →
      x ++ .symbol .closedCurly :: z = y ++ .symbol .closedCurly :: w → x.length ≤ y.length := by
    intro x y z w hx hy h
    refine Nat.le_of_not_lt fun hlt => ?_
    have hboth : y ++ [.symbol .closedCurly] <+: x ++ .symbol .closedCurly :: z := by
      rw [h]
      exact ⟨w, by simp⟩
    have hshorter := List.prefix_of_prefix_length_le hboth (List.prefix_append x _)
      (by rw [List.length_append, List.length_singleton]; exact hlt)
    obtain ⟨more, hmore⟩ := hshorter
    rw [← hmore, List.append_assoc, level_append, hy] at hx
    cases hx
  obtain ⟨hxy, hrest⟩ :=
    List.append_inj h (Nat.le_antisymm (shorter hx hy h) (shorter hy hx h.symm))
  exact ⟨hxy, (List.cons.inj hrest).2⟩

/-! ### Motions -/

structure Between (s : State) (p : Position) (t : State) : Prop where
  from_start : s.token.position.UpTo p
  to_end : p.UpTo t.token.position

/-- A reader passes tokens, and what it reports is about places that it came by. -/
structure Travels (x : List TokenKind) (s t : State) : Prop where
  passes : Passes s t
  ahead : s.ahead = x ++ t.ahead
  place : s.token.position.UpTo t.token.position
  diagnostics : ∃ ds, t.diagnostics.toList = s.diagnostics.toList ++ ds ∧
    ∀ d ∈ ds, Between s d.position t

section
variable {s t u : State} {x y : List TokenKind}

theorem Travels.refl (h : s.Placed) : Travels [] s s :=
  ⟨.refl h, rfl, .refl _, [], by simp, fun _ h => (by cases h)⟩

theorem Travels.trans (h : Travels x s t) (h' : Travels y t u) : Travels (x ++ y) s u := by
  obtain ⟨ds, hds, hbetween⟩ := h.diagnostics
  obtain ⟨es, hes, hbetween'⟩ := h'.diagnostics
  refine ⟨h.passes.trans h'.passes, by rw [h.ahead, h'.ahead, List.append_assoc],
    h.place.trans h'.place, ds ++ es, by rw [hes, hds, List.append_assoc], fun d hd => ?_⟩
  rcases List.mem_append.1 hd with hd | hd
  · exact ⟨(hbetween d hd).from_start, (hbetween d hd).to_end.trans h'.place⟩
  · exact ⟨h.place.trans (hbetween' d hd).from_start, (hbetween' d hd).to_end⟩

theorem Travels.still (h : s.Placed) (hsource : t.source = s.source) (htoken : t.token = s.token)
    (hlexer : t.lexer = s.lexer) (hdiagnostics : t.diagnostics = s.diagnostics) : Travels [] s t := by
  refine ⟨.still h hsource htoken hlexer, ?_, ?_, [], ?_, fun _ h => (by cases h)⟩
  · simp only [State.ahead, htoken, hlexer, List.nil_append]
  · rw [htoken]
    exact .refl _
  · rw [hdiagnostics, List.append_nil]

theorem between_diagnostics_bump (h : s.Placed) :
    s.token.position.UpTo s.bump.token.position ∧
      ∀ f ∈ (s.lexer.next (s.brackets == 0)).faults, Between s f.position s.bump := by
  obtain ⟨skipped, hfetch⟩ := h.fetches
  have hplace : s.bump.token.position = s.lexer.position.afterAll (skipped.flatMap Segment.text) :=
    hfetch.place
  refine ⟨?_, fun f hf => ?_⟩
  · rw [hplace]
    exact h.token.trans (Position.upTo_afterAll _ _)
  · obtain ⟨before, behind, -, -, hposition, hle⟩ := hfetch.faults f hf
    refine ⟨?_, hle⟩
    rw [hposition]
    exact h.token.trans (Position.upTo_afterAll _ _)

theorem travels_bump (h : s.Placed) (hne : s.token.kind ≠ .endOfFile) :
    ∃ skipped, Travels (s.token.kind :: skipped) s s.bump ∧ ∀ k ∈ skipped, k = .newline := by
  obtain ⟨skipped, hahead, hskipped⟩ := h.ahead_bump hne
  obtain ⟨hplace, hfaults⟩ := between_diagnostics_bump h
  refine ⟨skipped, ⟨.bump h, hahead, hplace, (s.lexer.next (s.brackets == 0)).faults.map
    (·.diagnostic s.source), ?_, fun d hd => ?_⟩, hskipped⟩
  · show (s.diagnostics ++ _).toList = _
    rw [Array.toList_append]
  · obtain ⟨f, hf, rfl⟩ := List.mem_map.1 hd
    exact hfaults f hf

theorem Travels.report (h : Travels x s t) {p : Problem} (hp : Between s p.position t) :
    Travels x s (t.report p) := by
  obtain ⟨ds, hds, hbetween⟩ := h.diagnostics
  refine ⟨h.passes.trans (.still h.passes.placed rfl rfl rfl), h.ahead, h.place,
    ds ++ p.diagnostics t.source, ?_, fun d hd => ?_⟩
  · show (t.diagnostics ++ _).toList = _
    rw [Array.toList_append, hds, List.append_assoc]
  · rcases List.mem_append.1 hd with hd | hd
    · exact ⟨(hbetween d hd).from_start, (hbetween d hd).to_end⟩
    · rw [position_of_mem_diagnostics hd]
      exact ⟨hp.from_start, hp.to_end⟩

/-- A reader passes braces in pairs, or comes to the end of the source. -/
def Balances (s t : State) : Prop :=
  ∃ x n, Travels x s t ∧ level 0 x = some n ∧ (n = 0 ∨ t.token.kind = .endOfFile)

theorem Travels.balances (h : Travels x s t) (hx : level 0 x = some 0) : Balances s t :=
  ⟨x, 0, h, hx, .inl rfl⟩

theorem Balances.refl (h : s.Placed) : Balances s s := (Travels.refl h).balances rfl

theorem Balances.passes (h : Balances s t) : Passes s t := by
  obtain ⟨x, n, htravels, -⟩ := h
  exact htravels.passes

theorem Balances.placed (h : Balances s t) : t.Placed := h.passes.placed

theorem Balances.place (h : Balances s t) : s.token.position.UpTo t.token.position := by
  obtain ⟨x, n, htravels, -⟩ := h
  exact htravels.place

theorem Balances.trans (h : Balances s t) (h' : Balances t u) : Balances s u := by
  obtain ⟨x, n, hst, hx, hn⟩ := h
  obtain ⟨y, m, htu, hy, hm⟩ := h'
  rcases hn with rfl | hend
  · exact ⟨x ++ y, m, hst.trans htu, by rw [level_append, hx]; exact hy, hm⟩
  · -- Nothing is behind the end.
    have hnone : y = [] := by
      have hlength := congrArg List.length htu.ahead
      have hpos := u.length_ahead_pos
      rw [State.ahead_of_end hend, List.length_append, List.length_singleton] at hlength
      exact List.length_eq_zero_iff.1 (by omega)
    subst hnone
    refine ⟨x ++ [], n, hst.trans htu, by rw [List.append_nil, hx], .inr ?_⟩
    exact htu.passes.end hend

theorem Balances.still (h : Balances s t) (hsource : u.source = t.source) (htoken : u.token = t.token)
    (hlexer : u.lexer = t.lexer) (hdiagnostics : u.diagnostics = t.diagnostics) : Balances s u :=
  h.trans ((Travels.still h.placed hsource htoken hlexer hdiagnostics).balances rfl)

theorem Balances.report (h : Balances s t) {p : Problem} (hp : Between s p.position t) :
    Balances s (t.report p) := by
  obtain ⟨x, n, htravels, hx, hn⟩ := h
  exact ⟨x, n, htravels.report hp, hx, hn⟩

theorem balances_bump (h : s.Placed) (hk : isBrace s.token.kind = false) : Balances s s.bump := by
  by_cases hend : s.token.kind = .endOfFile
  · obtain ⟨hplace, hfaults⟩ := between_diagnostics_bump h
    refine ⟨[], 0, ⟨.bump h, ?_, hplace, (s.lexer.next (s.brackets == 0)).faults.map
      (·.diagnostic s.source), ?_, fun d hd => ?_⟩, rfl, .inl rfl⟩
    · rw [State.ahead_of_end hend, State.ahead_of_end (h.end_bump hend)]
      rfl
    · show (s.diagnostics ++ _).toList = _
      rw [Array.toList_append]
    · obtain ⟨f, hf, rfl⟩ := List.mem_map.1 hd
      exact hfaults f hf
  · obtain ⟨skipped, htravels, hskipped⟩ := travels_bump h hend
    refine htravels.balances ?_
    rw [level_cons_plain hk, ← List.append_nil skipped, level_newlines hskipped]
    rfl

theorem Balances.bump (h : Balances s t) (hk : isBrace t.token.kind = false) : Balances s t.bump :=
  h.trans (balances_bump h.placed hk)

theorem Balances.bump_brackets (h : Balances s t) (hk : isBrace t.token.kind = false) (count : Nat) :
    Balances s { t with brackets := count }.bump :=
  (h.still rfl rfl rfl rfl : Balances s { t with brackets := count }).bump hk

/-! ### Recovery -/

theorem travels_skipStatement {bound : Nat} (depth : Nat) (h : s.Placed)
    (hbound : s.ahead.length ≤ bound) :
    ∃ x n, Travels x s (s.skipStatement bound depth) ∧ level depth x = some n ∧
      (n = 0 ∨ (s.skipStatement bound depth).token.kind = .endOfFile) := by
  induction bound generalizing depth s with
  | zero =>
    have hpos := s.length_ahead_pos
    omega
  | succ bound ih =>
    have next : ∀ depth' : Nat, s.token.kind ≠ .endOfFile →
        (∀ rest, level depth (s.token.kind :: rest) = level depth' rest) →
        ∃ x n, Travels x s (s.bump.skipStatement bound depth') ∧ level depth x = some n ∧
          (n = 0 ∨ (s.bump.skipStatement bound depth').token.kind = .endOfFile) := by
      intro depth' hne hlevel
      obtain ⟨skipped, htravels, hskipped⟩ := travels_bump h hne
      have hlt := h.length_ahead_bump hne
      obtain ⟨x, n, hx, hn, hlast⟩ := @ih s.bump depth' h.bump (by omega)
      refine ⟨_, n, htravels.trans hx, ?_, hlast⟩
      rw [List.cons_append, hlevel, level_newlines hskipped, hn]
    -- The depth is the level of the braces skipped so far, kind by kind.
    rw [State.skipStatement]
    split
    · next hk => exact ⟨[], depth, .refl h, rfl, .inr hk⟩
    · next hk =>
      split
      · next hdepth => exact ⟨[], depth, .refl h, rfl, .inl hdepth⟩
      · exact next depth (by simp [hk]) fun rest => by rw [hk, level_cons_plain rfl]
    · next hk =>
      split
      · next hdepth => exact ⟨[], depth, .refl h, rfl, .inl hdepth⟩
      · next hdepth =>
        refine next (depth - 1) (by simp [hk]) fun rest => ?_
        obtain ⟨depth, rfl⟩ := Nat.exists_eq_succ_of_ne_zero hdepth
        rw [hk, level_succ_closed, Nat.succ_sub_one]
    · next hk => exact next (depth + 1) (by simp [hk]) fun rest => by rw [hk, level_cons_open]
    · next hend hnewline hclosed hopen =>
      have hplain : isBrace s.token.kind = false :=
        Bool.or_eq_false_iff.2 ⟨beq_eq_false_iff_ne.2 hopen, beq_eq_false_iff_ne.2 hclosed⟩
      exact next depth hend fun rest => level_cons_plain hplain depth rest

theorem balances_endStatement (h : s.Placed) : Balances s s.endStatement := by
  have hstill : Travels [] s { s with brackets := 0 } := .still h rfl rfl rfl rfl
  obtain ⟨x, n, hx, hn, hlast⟩ := travels_skipStatement 0 hstill.passes.placed
    (State.length_ahead_le { s with brackets := 0 })
  exact ⟨_, n, hstill.trans hx, hn, hlast⟩

/-! ### Readers -/

/-- However a reader ends, it has passed braces in pairs since a state before, and what it complains
about is a place that was come by since. -/
def Kept (s : State) {α : Type} (value : α → State → Prop) (m : ParseM α) (here : State) : Prop :=
  Ends m here (fun a t => Balances s t ∧ value a t) fun p t => Balances s t ∧ Between s p.position t

def anything {α : Type} (_ : α) (_ : State) : Prop := True

variable {α β : Type} {value : α → State → Prop} {value' : β → State → Prop}

theorem Kept.bind {m : ParseM α} {f : α → ParseM β} (h : Kept s value m t)
    (next : ∀ a u, Balances s u → value a u → Kept s value' (f a) u) : Kept s value' (m >>= f) t := by
  refine (ends_bind _ _).2 (Ends.mono h ?_ fun _ _ hp => hp)
  rintro a u ⟨hread, ha⟩
  exact next a u hread ha

theorem Kept.map {m : ParseM α} (h : Kept s value m t) (f : α → β) :
    Kept s anything (f <$> m) t :=
  (ends_map _ _).2 (Ends.mono h (fun _ _ ha => ⟨ha.1, trivial⟩) fun _ _ hp => hp)

theorem Kept.after {m : ParseM α} (hs : Balances s t) (h : Kept t value m t) :
    Kept s (fun a u => Balances t u ∧ value a u) m t := by
  refine Ends.mono h ?_ ?_
  · rintro a u ⟨hread, ha⟩
    exact ⟨hs.trans hread, hread, ha⟩
  · rintro p u ⟨hread, hp⟩
    exact ⟨hs.trans hread, ⟨hs.place.trans hp.from_start, hp.to_end⟩⟩

theorem Kept.since {m : ParseM α} (hs : Balances s t) (h : Kept t value m t) : Kept s value m t :=
  Ends.mono (Kept.after hs h) (fun _ _ ha => ⟨ha.1, ha.2.2⟩) fun _ _ hp => hp

theorem kept_pure (hs : Balances s t) (a : α) : Kept s anything (pure a) t := ⟨hs, trivial⟩

theorem kept_failAt (hs : Balances s t) {start : Token} (hstart : Between s start.position t)
    (c : Complaint) : Kept s value (failAt start c : ParseM α) t := ⟨hs, hstart⟩

theorem kept_failHere (hs : Balances s t) (c : Complaint) : Kept s value (failHere c : ParseM α) t :=
  ⟨hs, ⟨hs.place, .refl _⟩⟩

theorem kept_typed (hs : Balances s t) {start : Token} (hstart : Between s start.position t)
    (result : Except TypeFault Expr) : Kept s anything (typed start result) t :=
  (ends_typed start result).2 ⟨fun _ _ => ⟨hs, trivial⟩, fun _ _ => ⟨hs, hstart⟩⟩

theorem kept_combineAt (hs : Balances s t) {start : Token} (hstart : Between s start.position t)
    (op : Operator) (lhs rhs : Expr) : Kept s anything (combineAt start op lhs rhs) t :=
  (ends_combineAt start op lhs rhs).2 ⟨fun _ _ => ⟨hs, trivial⟩, fun _ _ => ⟨hs, hstart⟩⟩

theorem kept_identifier (h : s.Placed) (c : Complaint) : Kept s anything (identifier c) s :=
  (ends_identifier c).2 ⟨fun _ hk => ⟨balances_bump h (by rw [hk]; rfl), trivial⟩,
    fun _ => ⟨.refl h, ⟨.refl _, .refl _⟩⟩⟩

theorem kept_expectSymbol (h : s.Placed) {symbol : Symbol} (hplain : isBrace (.symbol symbol) = false)
    (c : Complaint) : Kept s anything (expectSymbol symbol c) s :=
  (ends_expectSymbol symbol c).2 ⟨fun hk => ⟨balances_bump h (by rw [hk]; exact hplain), trivial⟩,
    fun _ => ⟨.refl h, ⟨.refl _, .refl _⟩⟩⟩

theorem kept_typeName (h : s.Placed) : Kept s anything typeName s := by
  have hbump : ∀ name, s.token.kind = .identifier name → Balances s s.bump :=
    fun _ hk => balances_bump h (by rw [hk]; rfl)
  refine ends_typeName.2 ⟨fun name hk _ _ => ⟨hbump name hk, trivial⟩, fun name hk _ => ?_,
    fun _ => ⟨.refl h, ⟨.refl _, .refl _⟩⟩⟩
  exact ⟨hbump name hk, ⟨.refl _, (hbump name hk).place⟩⟩

theorem isBrace_operator {kind : TokenKind} {op : Operator} (h : Operator.ofToken? kind = some op) :
    isBrace kind = false := by
  cases kind with
  | symbol symbol => cases symbol <;> first | rfl | cases h
  | _ => rfl

end

def Pairs (operand : ParseM Expr) : Prop := ∀ s : State, s.Placed → Kept s anything operand s

section
variable {operand : ParseM Expr} (ho : Pairs operand) {s : State}

include ho

theorem Pairs.climb_tighten (bound : Nat) :
    (∀ least lhs s, s.Placed → Kept s anything (climb operand bound least lhs) s) ∧
      (∀ op rhs s, s.Placed → Kept s anything (tighten operand bound op rhs) s) := by
  -- An operator is no brace, so braces are met in operands only.
  induction bound with
  | zero =>
    constructor
    · intro least lhs s h
      rw [climb]
      exact kept_pure (.refl h) _
    · intro op rhs s h
      rw [tighten]
      exact kept_pure (.refl h) _
  | succ bound ih =>
    obtain ⟨ihc, iht⟩ := ih
    constructor
    · intro least lhs s h
      have hs := Balances.refl h
      rw [climb]
      refine (ends_bind _ _).2 (ends_operator?.2 ?_)
      split
      · exact kept_pure hs _
      next op hop =>
      split
      · exact kept_pure hs _
      refine (ends_bind _ _).2 (ends_token.2 ?_)
      refine (ends_bind _ _).2 (ends_bump.2 ?_)
      have hbump := hs.bump (isBrace_operator hop)
      refine Kept.bind (Kept.since hbump (ho _ hbump.placed)) fun rhs t ht _ => ?_
      refine Kept.bind (Kept.since ht (iht op rhs t ht.placed)) fun rhs u hu _ => ?_
      refine Kept.bind (kept_combineAt hu ⟨.refl _, hu.place⟩ _ _ _) fun e v hv _ => ?_
      exact Kept.since hv (ihc least e v hv.placed)
    · intro op rhs s h
      have hs := Balances.refl h
      rw [tighten]
      refine (ends_bind _ _).2 (ends_operator?.2 ?_)
      split
      · exact kept_pure hs _
      split
      · exact Kept.bind (ihc _ rhs s h) fun e t ht _ => Kept.since ht (iht op e t ht.placed)
      split
      · exact Kept.bind (ihc _ rhs s h) fun e t ht _ => Kept.since ht (iht op e t ht.placed)
      · exact kept_pure hs _

theorem Pairs.expression (h : s.Placed) : Kept s anything (expression operand) s := by
  unfold Grammar.expression
  refine Kept.bind (ho s h) fun lhs t ht _ => ?_
  refine (ends_bind _ _).2 (ends_get.2 ?_)
  exact Kept.since ht ((ho.climb_tighten _).1 1 lhs t ht.placed)

theorem Pairs.bindValue {t : State} (hs : Balances s t) (mutable : Bool) {start : Token}
    (hstart : start.position = s.token.position) (name : String) (given : Option Ty) :
    Kept s anything (bindValue operand mutable start name given) t := by
  unfold Grammar.bindValue
  refine Kept.bind (Kept.since hs (kept_expectSymbol hs.placed rfl _)) fun _ u hu _ => ?_
  refine Kept.bind (Kept.since hu (ho.expression hu.placed)) fun value v hv _ => ?_
  have hfail : Between s start.position v := ⟨by rw [hstart]; exact .refl _, by
    rw [hstart]
    exact hv.place⟩
  have hdeclare : Kept s anything (do
      let var ← modifyGet fun s => s.declare name value.ty mutable
      return Expr.bind name var value) v := by
    refine (ends_bind _ _).2 ((ends_modifyGet _).2 ?_)
    have hdeclared : Balances s (v.declare name value.ty mutable).2 := hv.still rfl rfl rfl rfl
    exact kept_pure hdeclared _
  dsimp only
  split
  · exact kept_failAt hv hfail _
  split
  · split
    · exact kept_failAt hv hfail _
    · exact hdeclare
  · exact hdeclare

theorem Pairs.binding (h : s.Placed) (mutable : Bool) (hk : isBrace s.token.kind = false) :
    Kept s anything (binding operand mutable) s := by
  unfold Grammar.binding
  refine (ends_bind _ _).2 (ends_bump.2 ?_)
  -- What is wrong is reported at the name, so what follows is read from there on.
  have hname := (Balances.refl h).bump hk
  refine Kept.since hname ?_
  refine (ends_bind _ _).2 (ends_token.2 ?_)
  refine Kept.bind (kept_identifier hname.placed _) fun name t ht _ => ?_
  refine (ends_bind _ _).2 (ends_kind.2 ?_)
  dsimp only
  split
  · next hcolon =>
    have hcolon := ht.bump (by rw [hcolon]; rfl)
    refine (ends_bind _ _).2 (ends_bump.2 ?_)
    refine Kept.bind (Kept.map (Kept.since hcolon (kept_typeName hcolon.placed)) some)
      fun given u hu _ => ?_
    exact ho.bindValue hu mutable rfl name given
  · refine (ends_bind _ _).2 ((ends_pure _).2 ?_)
    exact ho.bindValue ht mutable rfl name none

theorem Pairs.returnStatement (h : s.Placed) (hk : isBrace s.token.kind = false) :
    Kept s anything (returnStatement operand) s := by
  unfold Grammar.returnStatement
  refine (ends_bind _ _).2 (ends_token.2 ?_)
  refine (ends_bind _ _).2 (ends_bump.2 ?_)
  have hbump := (Balances.refl h).bump hk
  refine (ends_bind _ _).2 (ends_kind.2 ?_)
  dsimp only
  split
  · refine (ends_bind _ _).2 ((ends_pure _).2 ?_)
    refine (ends_bind _ _).2 (ends_get.2 ?_)
    exact kept_typed hbump ⟨.refl _, hbump.place⟩ _
  · refine Kept.bind (Kept.map (Kept.since hbump (ho.expression hbump.placed)) some)
      fun value t ht _ => ?_
    refine (ends_bind _ _).2 (ends_get.2 ?_)
    exact kept_typed ht ⟨.refl _, ht.place⟩ _

theorem Pairs.statement (h : s.Placed) : Kept s anything (statement operand) s := by
  unfold Grammar.statement
  refine (ends_bind _ _).2 (ends_kind.2 ?_)
  split
  · next hk => exact ho.binding h false (by rw [hk]; rfl)
  · next hk => exact ho.binding h true (by rw [hk]; rfl)
  · next hk => exact ho.returnStatement h (by rw [hk]; rfl)
  · exact kept_failHere (.refl h) _
  · exact kept_failHere (.refl h) _
  · exact ho.expression h

theorem Pairs.behindStatement (id : BlockId) (h : s.Placed) :
    Balances s (behindStatement operand id s) := by
  have recovered : ∀ {t : State} {p : Problem}, Balances s t → Between s p.position t →
      Balances s (t.report p).endStatement := by
    intro t p ht hp
    have hreport : Balances s (t.report p) := ht.report hp
    exact hreport.trans (balances_endStatement hreport.placed)
  have hstatement := ends_iff.1 (ho.statement h)
  unfold Grammar.behindStatement
  split
  · next problem after hrun =>
    obtain ⟨hread, hproblem⟩ := hstatement.2 _ _ hrun
    exact recovered hread hproblem
  next e after hrun =>
  obtain ⟨hread, -⟩ := hstatement.1 _ _ hrun
  split
  · exact recovered hread ⟨hread.place, .refl _⟩
  split
  · exact hread.report ⟨.refl _, hread.place⟩
  · exact hread.still rfl rfl rfl rfl

theorem Pairs.statements {bound : Nat} (id : BlockId) (h : s.Placed)
    (hbound : s.ahead.length ≤ bound) :
    Balances s (statements operand id bound s) ∧
      ((statements operand id bound s).token.kind = .symbol .closedCurly ∨
        (statements operand id bound s).token.kind = .endOfFile) := by
  induction bound generalizing s with
  | zero =>
    have hpos := s.length_ahead_pos
    omega
  | succ bound ih =>
    have next : ∀ {t : State}, Balances s t → t.ahead.length < s.ahead.length →
        Balances s (Grammar.statements operand id bound t) ∧
          ((Grammar.statements operand id bound t).token.kind = .symbol .closedCurly ∨
            (Grammar.statements operand id bound t).token.kind = .endOfFile) := by
      intro t ht hlt
      obtain ⟨hread, hlast⟩ := @ih t ht.placed (by omega)
      exact ⟨ht.trans hread, hlast⟩
    rcases endsStatement_cases s.token.kind with hk | hk | hk | hk
    · rw [statements_newline hk]
      exact next (balances_bump h (by rw [hk]; rfl)) (h.length_ahead_bump (by simp [hk]))
    · rw [statements_closed hk]
      exact ⟨.refl h, .inl hk⟩
    · rw [statements_end hk]
      exact ⟨(Balances.refl h).report ⟨.refl _, .refl _⟩, .inr hk⟩
    · rw [statements_unended hk]
      refine next (ho.behindStatement id h) (length_ahead_behindStatement hk ?_ id)
      exact (ho.statement h).mono (fun _ _ hread => hread.1.passes) fun _ _ hread => hread.1.passes

theorem Pairs.blockBody (id : BlockId) (h : s.Placed) (hk : s.token.kind = .symbol .openCurly) :
    Balances s (blockBody operand id s).2 := by
  have hstill : Travels [] s { s with brackets := 0 } := .still h rfl rfl rfl rfl
  obtain ⟨skipped, hopen, hskipped⟩ := travels_bump hstill.passes.placed (by simp [hk])
  obtain ⟨⟨x, n, hx, hn, hlast⟩, hbrace⟩ :=
    ho.statements id hopen.passes.placed (State.length_ahead_le { s with brackets := 0 }.bump)
  have hinside := hopen.trans hx
  rw [show ({ s with brackets := 0 } : State).token.kind = .symbol .openCurly from hk] at hinside
  have hlevel : level 0 (.symbol .openCurly :: skipped ++ x) = some (n + 1) := by
    rw [List.cons_append, level_cons_open, level_newlines hskipped, level_succ hn]
  have hread := hstill.trans hinside
  unfold Grammar.blockBody
  dsimp only
  generalize Grammar.statements operand id _ _ = t at hread hlast hbrace ⊢
  have hback : Travels [] t { t with brackets := s.brackets } :=
    .still hread.passes.placed rfl rfl rfl rfl
  split
  · next hclosed =>
    have hclosed : t.token.kind = .symbol .closedCurly := hclosed
    obtain ⟨skipped', hclose, hskipped'⟩ := travels_bump hback.passes.placed (by simp [hclosed])
    rw [show ({ t with brackets := s.brackets } : State).token.kind = .symbol .closedCurly from hclosed]
      at hclose
    have hn : n = 0 := by
      rcases hlast with hn | hend
      · exact hn
      · rw [hclosed] at hend
        cases hend
    have hall := hread.trans (hback.trans hclose)
    have hpairs := hall.balances (by
      rw [List.nil_append, level_append, hlevel, hn, List.nil_append]
      show level 1 _ = some 0
      rw [level_succ_closed, ← List.append_nil skipped', level_newlines hskipped']
      rfl)
    exact hpairs.still rfl rfl rfl rfl
  · next hopened =>
    have hend : t.token.kind = .endOfFile := hbrace.resolve_left hopened
    have hall := hread.trans hback
    have hpairs : Balances s { t with brackets := s.brackets } :=
      ⟨_, n + 1, hall, by rw [List.nil_append, List.append_nil, hlevel], .inr hend⟩
    exact hpairs.still rfl rfl rfl rfl

theorem Pairs.block (h : s.Placed) (hk : s.token.kind = .symbol .openCurly) :
    Kept s anything (block operand) s := by
  have hopen : Balances s s.openBlock.2 := (Balances.refl h).still rfl rfl rfl rfl
  exact ends_block.2 ⟨hopen.trans (ho.blockBody _ hopen.placed hk), trivial⟩

/-! ### Operands -/

theorem Pairs.callArguments (callee : String) {bound : Nat} (args : List Expr) (h : s.Placed)
    (hbound : s.ahead.length ≤ bound) :
    Kept s (fun _ t => t.token.kind = .symbol .closedBracket)
      (callArguments operand callee bound args) s := by
  induction bound generalizing args s with
  | zero =>
    have hpos := s.length_ahead_pos
    omega
  | succ bound ih =>
    rw [Grammar.callArguments]
    refine Kept.bind (ho.expression h) fun arg t ht _ => ?_
    refine (ends_bind _ _).2 (ends_kind.2 ?_)
    split
    · next hcomma =>
      have hbump := ht.bump (by rw [hcomma]; rfl)
      have hlt := ht.placed.length_ahead_bump (by simp [hcomma])
      have hle := ht.passes.length_le
      refine (ends_bind _ _).2 (ends_bump.2 ?_)
      exact Kept.since hbump (ih _ hbump.placed (by omega))
    · next hclosed => exact ⟨ht, hclosed⟩
    · exact kept_failHere ht _

theorem Pairs.call {t : State} (callee : String) (hs : Balances s t) {start : Token}
    (hstart : Between s start.position s) (hk : t.token.kind = .symbol .openBracket) :
    Kept s anything (call operand callee start) t := by
  have hfinish : ∀ (args : List Expr) (u : State), Balances s u →
      u.token.kind = .symbol .closedBracket → Kept s anything (finishCall callee start args) u := by
    intro args u hu hclosed
    have hbump := hu.bump_brackets (by rw [hclosed]; rfl) (u.brackets - 1)
    have hplace : Between s start.position { u with brackets := u.brackets - 1 }.bump :=
      ⟨hstart.from_start, hstart.to_end.trans hbump.place⟩
    unfold finishCall
    refine (ends_bind _ _).2 (ends_closeBracket.2 ?_)
    refine (ends_bind _ _).2 (ends_get.2 ?_)
    split
    · exact kept_typed hbump hplace _
    · exact kept_failAt hbump hplace _
  have hopen := hs.bump_brackets (by rw [hk]; rfl) (t.brackets + 1)
  unfold Grammar.call
  refine (ends_bind _ _).2 (ends_openBracket.2 ?_)
  refine (ends_bind _ _).2 (ends_kind.2 ?_)
  dsimp only
  split
  · next hclosed => exact (ends_bind _ _).2 ((ends_pure _).2 (hfinish [] _ hopen hclosed))
  · refine (ends_bind _ _).2 (ends_get.2 ?_)
    exact Kept.bind (Kept.since hopen (ho.callArguments callee [] hopen.placed (State.length_ahead_le _)))
      fun args u hu hclosed => hfinish args u hu hclosed

theorem Pairs.branch (keyword : Keyword) (h : s.Placed) (hk : isBrace s.token.kind = false) :
    Kept s (fun b _ => b.start = s.token) (branch operand keyword) s := by
  have hbump := (Balances.refl h).bump hk
  unfold Grammar.branch
  refine (ends_bind _ _).2 (ends_token.2 ?_)
  refine (ends_bind _ _).2 (ends_bump.2 ?_)
  refine Kept.bind (Kept.since hbump (ho.expression hbump.placed)) fun condition t ht _ => ?_
  refine (ends_bind _ _).2 (ends_kind.2 ?_)
  dsimp only
  split
  · exact kept_failHere ht _
  · next hopen =>
    refine Kept.bind (Kept.since ht (ho.block ht.placed (Decidable.of_not_not hopen))) fun body u hu _ => ?_
    exact ⟨hu, rfl⟩

theorem Pairs.furtherBranches {t : State} (bound : Nat) {branches : List Branch} (hs : Balances s t)
    (hbranches : ∀ b ∈ branches, Between s b.start.position t) :
    Kept s (fun bs u => ∀ b ∈ bs, Between s b.start.position u)
      (furtherBranches operand bound branches) t := by
  induction bound generalizing branches t with
  | zero =>
    rw [Grammar.furtherBranches]
    exact ⟨hs, hbranches⟩
  | succ bound ih =>
    rw [Grammar.furtherBranches]
    refine (ends_bind _ _).2 (ends_kind.2 ?_)
    split
    · next hk =>
      refine Kept.bind (Kept.after hs (ho.branch .elifBranch hs.placed (by rw [hk]; rfl))) ?_
      rintro b u hu ⟨htu, hb⟩
      refine ih hu fun other hmem => ?_
      rcases List.mem_append.1 hmem with hmem | hmem
      · exact ⟨(hbranches other hmem).from_start, (hbranches other hmem).to_end.trans htu.place⟩
      · rw [List.mem_singleton.1 hmem, hb]
        exact ⟨hs.place, htu.place⟩
    · exact ⟨hs, hbranches⟩

omit ho in
theorem kept_joinBranches {t : State} (otherwise : Option Expr) {branches : List Branch}
    (hs : Balances s t) (hbranches : ∀ b ∈ branches, Between s b.start.position t) :
    Kept s (fun _ u => u = t) (joinBranches otherwise branches) t := by
  induction branches with
  | nil =>
    rw [joinBranches]
    exact ⟨hs, rfl⟩
  | cons b branches ih =>
    rw [joinBranches]
    refine Kept.bind (ih fun other hmem => hbranches other (List.mem_cons_of_mem b hmem))
      fun alternative u hu heq => ?_
    subst heq
    refine (ends_map _ _).2 ((ends_typed _ _).2 ⟨fun _ _ => ⟨hu, rfl⟩, fun _ _ => ⟨hu, ?_⟩⟩)
    exact hbranches b List.mem_cons_self

theorem Pairs.conditional (h : s.Placed) (hk : isBrace s.token.kind = false) :
    Kept s anything (conditional operand) s := by
  unfold Grammar.conditional
  refine Kept.bind (ho.branch .ifBranch h hk) fun head t ht hhead => ?_
  refine (ends_bind _ _).2 (ends_get.2 ?_)
  refine Kept.bind (ho.furtherBranches t.remaining ht fun _ hmem => (by cases hmem))
    fun further u hu hfurther => ?_
  have hjoin : ∀ (otherwise : Option Expr) (v : State), Balances s v → Balances u v → Kept s anything (do
      let alternative ← joinBranches otherwise further
      typed head.start (Typing.conditional head.condition head.body alternative)) v := by
    intro otherwise v hv huv
    refine Kept.bind (kept_joinBranches otherwise hv fun b hb =>
      ⟨(hfurther b hb).from_start, (hfurther b hb).to_end.trans huv.place⟩) fun alternative w hw heq => ?_
    rw [hhead]
    exact kept_typed hw ⟨.refl _, hw.place⟩ _
  refine (ends_bind _ _).2 (ends_kind.2 ?_)
  dsimp only
  split
  · next helse =>
    have hbump := balances_bump hu.placed (by rw [helse]; rfl)
    refine (ends_bind _ _).2 (ends_bump.2 ?_)
    refine (ends_bind _ _).2 (ends_kind.2 ?_)
    split
    · exact kept_failHere (hu.trans hbump) _
    · next hopen =>
      have hblock := Kept.after (hu.trans hbump) (ho.block hbump.placed (Decidable.of_not_not hopen))
      refine (ends_bind _ _).2 ((ends_map _ _).2 (Ends.mono hblock ?_ fun _ _ hp => hp))
      rintro body v ⟨hv, hread, -⟩
      exact hjoin (some body) v hv (hbump.trans hread)
  · exact (ends_bind _ _).2 ((ends_pure _).2 (hjoin none u hu (.refl hu.placed)))

theorem Pairs.signed (op : UnaryOp) (h : s.Placed) (hk : isBrace s.token.kind = false) :
    Kept s anything (signed operand op) s := by
  have hbump := (Balances.refl h).bump hk
  unfold Grammar.signed
  refine (ends_bind _ _).2 (ends_token.2 ?_)
  refine (ends_bind _ _).2 (ends_bump.2 ?_)
  refine Kept.bind (Kept.since hbump (ho _ hbump.placed)) fun e t ht _ => ?_
  exact kept_typed ht ⟨.refl _, ht.place⟩ _

theorem Pairs.bracketed (h : s.Placed) (hk : isBrace s.token.kind = false) :
    Kept s anything (bracketed operand) s := by
  have hopen := (Balances.refl h).bump_brackets hk (s.brackets + 1)
  unfold Grammar.bracketed
  refine (ends_bind _ _).2 (ends_token.2 ?_)
  refine (ends_bind _ _).2 (ends_openBracket.2 ?_)
  refine (ends_bind _ _).2 (ends_kind.2 ?_)
  dsimp only
  split
  · exact kept_failAt hopen ⟨.refl _, hopen.place⟩ _
  refine Kept.bind (Kept.since hopen (ho.expression hopen.placed)) fun e t ht _ => ?_
  refine (ends_bind _ _).2 (ends_kind.2 ?_)
  split
  · exact kept_failHere ht _
  · next hclosed =>
    refine (ends_bind _ _).2 (ends_closeBracket.2 ?_)
    exact kept_pure (ht.bump_brackets (by rw [Decidable.of_not_not hclosed]; rfl) (t.brackets - 1)) e

omit ho in
theorem kept_readVariable {t : State} (hs : Balances s t) (name : String) {start : Token}
    (hstart : Between s start.position t) : Kept s anything (readVariable name start) t := by
  unfold readVariable
  refine (ends_bind _ _).2 (ends_get.2 ?_)
  dsimp only
  split
  · exact kept_pure hs _
  · exact kept_failAt hs hstart _

theorem Pairs.operandWith : Pairs (operandWith operand) := by
  intro s h
  unfold Grammar.operandWith
  refine (ends_bind _ _).2 (ends_token.2 ?_)
  split
  · next hk => exact ho.signed .minus h (by rw [hk]; rfl)
  · next hk => exact ho.signed .plus h (by rw [hk]; rfl)
  · next hk => exact ho.bracketed h (by rw [hk]; rfl)
  · next hk => exact ho.block h hk
  · next hk =>
    refine (ends_bind _ _).2 (ends_bump.2 ?_)
    exact kept_pure (balances_bump h (by rw [hk]; rfl)) _
  · next hk =>
    have hbump := balances_bump h (by rw [hk]; rfl)
    refine (ends_bind _ _).2 (ends_bump.2 ?_)
    refine (ends_bind _ _).2 (ends_kind.2 ?_)
    split
    · next hopen => exact ho.call _ hbump ⟨.refl _, .refl _⟩ hopen
    · exact kept_readVariable hbump _ ⟨.refl _, hbump.place⟩
  · next hk => exact ho.conditional h (by rw [hk]; rfl)
  · exact kept_failHere (.refl h) _

theorem Pairs.nested : Pairs (nested operand) := by
  intro s h
  have hdown : Balances s s.descend := (Balances.refl h).still rfl rfl rfl rfl
  refine ends_nested.2 ⟨fun _ => ⟨.refl h, .refl _, .refl _⟩, fun _ => ?_⟩
  refine Ends.mono (Kept.since hdown (ho s.descend hdown.placed)) ?_ ?_
  · rintro e t ⟨hread, -⟩
    exact ⟨hread.still rfl rfl rfl rfl, trivial⟩
  · rintro p t ⟨hread, hp⟩
    exact ⟨hread.still rfl rfl rfl rfl, ⟨hp.from_start, hp.to_end⟩⟩

end

/-- However deep operands nest, they are read with their braces in pairs. -/
theorem pairs_operandWithin (depth : Nat) : Pairs (operandWithin depth) := by
  induction depth with
  | zero => exact fun s h => kept_failHere (.refl h) _
  | succ depth ih => exact ih.operandWith.nested

end ScalarJit.Grammar
