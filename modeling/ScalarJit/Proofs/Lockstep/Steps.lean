import ScalarJit.Proofs.Grammar.Steps

/-! # Readers in step

Two readers go in step, each on its own text: what one does, the other does too. A `Lockstep` says how
their states, their tokens and their problems belong together, and that each change of a state keeps
them together. Where the first reader is lost, nothing is said of the second. `Lock` says of two steps
that they end in the same way. -/

namespace ScalarJit
namespace Grammar

def header (f : Named Function) : Named Signature := (f.1, f.2.signature)

structure Lockstep where
  /-- States that belong together. -/
  beside : State → State → Prop
  /-- The first reader has come to where the second need not follow. -/
  lost : State → Prop
  /-- The first reader has moved on. -/
  passes : State → State → Prop
  /-- What the first reader has left to read, which bounds the loops of both. -/
  left : State → Nat
  /-- Tokens that errors are told of. -/
  matched : Token → Token → Prop
  /-- Problems that say the same. -/
  blamed : Problem → Problem → Prop
  lost_passes : ∀ {s t}, lost s → passes s t → lost t
  trans : ∀ {s t u}, passes s t → passes t u → passes s u
  left_pos : ∀ s, 0 < left s
  left_le : ∀ {s t}, passes s t → left t ≤ left s
  /-- Where nothing is passed, the token is the same. -/
  kind_of_left : ∀ {s t}, passes s t → left t = left s → t.token.kind = s.token.kind
  left_remaining : ∀ {s s'}, beside s s' → left s ≤ s.remaining ∧ left s ≤ s'.remaining
  left_bump : ∀ {s s'}, beside s s' → s.token.kind ≠ .endOfFile → left s.bump < left s
  /-- A change that keeps the token and what is behind it. -/
  still : ∀ {s s' t}, beside s s' → t.source = s.source → t.token = s.token → t.lexer = s.lexer →
    passes s t
  kind_eq : ∀ {s s'}, beside s s' → s'.token.kind = s.token.kind
  brackets_eq : ∀ {s s'}, beside s s' → s'.brackets = s.brackets
  nesting_eq : ∀ {s s'}, beside s s' → s'.nesting = s.nesting
  scope_eq : ∀ {s s'}, beside s s' → s'.scope = s.scope
  externs_eq : ∀ {s s'}, beside s s' → s'.externs = s.externs
  headers_eq : ∀ {s s'}, beside s s' → s'.functions.map header = s.functions.map header
  token_matched : ∀ {s s'}, beside s s' → ∃ start, matched s.token start ∧ (lost s ∨ s'.token = start)
  matched_kind : ∀ {start start'}, matched start start' → start'.kind = start.kind
  blame : ∀ {start start'}, matched start start' → ∀ c, blamed ⟨c, start.position⟩ ⟨c, start'.position⟩
  bump_beside : ∀ {s s'}, beside s s' →
    passes s s.bump ∧ ∃ t', beside s.bump t' ∧ (lost s.bump ∨ s'.bump = t')
  report : ∀ {s s' p p'}, beside s s' → blamed p p' → beside (s.report p) (s'.report p')
  setBrackets : ∀ {s s'}, beside s s' → ∀ count,
    beside { s with brackets := count } { s' with brackets := count }
  setNesting : ∀ {s s'}, beside s s' → ∀ count,
    beside { s with nesting := count } { s' with nesting := count }
  setScope : ∀ {s s'}, beside s s' → ∀ scope,
    beside { s with scope := scope } { s' with scope := scope }
  use : ∀ {s s'}, beside s s' → ∀ entry,
    beside { s with externs := s.externs ++ [entry] } { s' with externs := s'.externs ++ [entry] }
  function : ∀ {s s'}, beside s s' → ∀ f,
    beside { s with functions := s.functions ++ [f] } { s' with functions := s'.functions ++ [f] }

namespace Lockstep

variable {L : Lockstep}

/-- The first reader has moved on to one state, and the second along with it to another. -/
def Meets (L : Lockstep) (s t x : State) : Prop :=
  L.passes s t ∧ ∃ t', L.beside t t' ∧ (L.lost t ∨ x = t')

/-- Two steps end in the same way, with values that are related. -/
def Lock (L : Lockstep) {α : Type} (R : α → α → State → Prop) (m m' : ParseM α) (s s' : State) : Prop :=
  Ends m s
    (fun a t => L.passes s t ∧
      ∃ a' t', R a a' t ∧ L.beside t t' ∧ (L.lost t ∨ m' s' = .ok a' t'))
    fun p t => L.passes s t ∧
      ∃ p' t', L.blamed p p' ∧ L.beside t t' ∧ (L.lost t ∨ m' s' = .error p' t')

def Same {α : Type} (a a' : α) (_ : State) : Prop := a' = a

variable {s s' t t' u x y : State}

/-! ### What both know -/

theorem lookup_header (fs : List (Named Function)) (name : String) :
    (fs.map header).lookup name = (fs.lookup name).map (·.signature) := by
  induction fs with
  | nil => rfl
  | cons f fs ih =>
    rw [List.map_cons, List.lookup_cons, header, List.lookup_cons]
    cases name == f.1 with
    | true => rfl
    | false => exact ih

theorem lookup_eq (h : L.beside s s') (name : String) :
    (s'.functions.lookup name).map (·.signature) = (s.functions.lookup name).map (·.signature) := by
  rw [← lookup_header, ← lookup_header, L.headers_eq h]

theorem isSome_lookup (h : L.beside s s') (name : String) :
    (s'.functions.lookup name).isSome = (s.functions.lookup name).isSome := by
  have hsome := congrArg Option.isSome (lookup_eq h name)
  rwa [Option.isSome_map, Option.isSome_map] at hsome

theorem isDeclared_eq (h : L.beside s s') (name : String) : s'.isDeclared name = s.isDeclared name := by
  rw [State.isDeclared, State.isDeclared, isSome_lookup h, L.externs_eq h]

theorem signature?_eq (h : L.beside s s') (name : String) : s'.signature? name = s.signature? name := by
  have hlookup := lookup_eq h name
  unfold State.signature?
  rw [L.externs_eq h, L.scope_eq h]
  cases hs : s.functions.lookup name with
  | none =>
    rw [hs, Option.map_none, Option.map_eq_none_iff] at hlookup
    rw [hlookup]
  | some f =>
    rw [hs, Option.map_some] at hlookup
    obtain ⟨f', hf', hsignature⟩ := Option.map_eq_some_iff.1 hlookup
    rw [hf']
    exact congrArg some hsignature

theorem blamed_here (h : L.beside s s') (c : Complaint) : ∃ p, L.blamed ⟨c, s.token.position⟩ p ∧
    (L.lost s ∨ (⟨c, s'.token.position⟩ : Problem) = p) := by
  obtain ⟨start, hmatched, hfound⟩ := L.token_matched h
  exact ⟨_, L.blame hmatched c, hfound.imp_right fun heq => by rw [heq]⟩

/-! ### Moving on -/

theorem passes_refl (h : L.beside s s') : L.passes s s := L.still h rfl rfl rfl

theorem meets_of_beside (h : L.beside t t') (hst : L.passes s t) : L.Meets s t t' :=
  ⟨hst, t', h, .inr rfl⟩

theorem meets_refl (h : L.beside s s') : L.Meets s s s' := meets_of_beside h (passes_refl h)

theorem Meets.trans (hst : L.passes s t) (h : L.Meets t u x) (hx : L.lost t ∨ y = x) : L.Meets s u y := by
  obtain ⟨htu, u', hu, hfound⟩ := h
  refine ⟨L.trans hst htu, u', hu, ?_⟩
  rcases hx with hlost | rfl
  · exact .inl (L.lost_passes hlost htu)
  · exact hfound

theorem Meets.next {g : State → State} (h : L.Meets s t x)
    (next : ∀ t', L.beside t t' → L.Meets t u (g t')) : L.Meets s u (g x) := by
  obtain ⟨hst, t', ht, hx⟩ := h
  exact (next t' ht).trans hst (hx.imp_right fun h => by rw [h])

theorem Meets.left_le (h : L.Meets s t x) : L.left t ≤ L.left s := L.left_le h.1

theorem meets_bump (h : L.beside s s') : L.Meets s s.bump s'.bump := L.bump_beside h

theorem left_brackets (h : L.beside s s') (count : Nat) :
    L.left { s with brackets := count } = L.left s := by
  have hto : L.passes s { s with brackets := count } := L.still h rfl rfl rfl
  have hback : L.passes { s with brackets := count } s :=
    L.still (L.setBrackets h count) rfl rfl rfl
  exact Nat.le_antisymm (L.left_le hto) (L.left_le hback)

theorem meets_bump_brackets (h : L.beside s s') {count count' : Nat} (hcount : count' = count) :
    L.Meets s { s with brackets := count }.bump { s' with brackets := count' }.bump := by
  subst hcount
  have hstill : L.passes s { s with brackets := count' } := L.still h rfl rfl rfl
  exact (meets_bump (L.setBrackets h count')).trans hstill (.inr rfl)

theorem meets_report (h : L.beside s s') {p p' q : Problem} (hp : L.blamed p p')
    (hq : L.lost s ∨ q = p') : L.Meets s (s.report p) (s'.report q) := by
  have hstill : L.passes s (s.report p) := L.still h rfl rfl rfl
  refine ⟨hstill, _, L.report h hp, hq.imp (L.lost_passes · hstill) fun hq => ?_⟩
  rw [hq]

theorem meets_reportHere (h : L.beside s s') (c : Complaint) :
    L.Meets s (s.report ⟨c, s.token.position⟩) (s'.report ⟨c, s'.token.position⟩) := by
  obtain ⟨p, hblamed, hp⟩ := blamed_here h c
  exact meets_report h hblamed hp

theorem beside_declare (h : L.beside s s') (name : String) (ty : Ty) (mutable : Bool) :
    (s'.declare name ty mutable).1 = (s.declare name ty mutable).1 ∧
      L.beside (s.declare name ty mutable).2 (s'.declare name ty mutable).2 := by
  simp only [State.declare, State.here, L.scope_eq h]
  exact ⟨trivial, L.setScope h _⟩

theorem beside_addStatement (h : L.beside s s') (id : BlockId) (e : Expr) :
    L.beside (s.addStatement id e) (s'.addStatement id e) := by
  simp only [State.addStatement, L.scope_eq h]
  exact L.setScope h _

theorem beside_closeBlock (h : L.beside s s') (id : BlockId) :
    L.beside (s.closeBlock id) (s'.closeBlock id) := by
  simp only [State.closeBlock, L.scope_eq h]
  exact L.setScope h _

theorem beside_openBlock (h : L.beside s s') :
    s'.openBlock.1 = s.openBlock.1 ∧ L.beside s.openBlock.2 s'.openBlock.2 := by
  simp only [State.openBlock, L.scope_eq h]
  exact ⟨trivial, L.setScope h _⟩

theorem beside_descend (h : L.beside s s') : L.beside s.descend s'.descend := by
  rw [State.descend, State.descend, L.nesting_eq h]
  exact L.setNesting h _

theorem beside_ascend (h : L.beside s s') : L.beside s.ascend s'.ascend := by
  rw [State.ascend, State.ascend, L.nesting_eq h]
  exact L.setNesting h _

/-! ### Steps -/

section
variable {α β : Type} {R : α → α → State → Prop} {R' : β → β → State → Prop} {m m' m'' : ParseM α}
  {f f' : α → ParseM β}

theorem Lock.mono {Q : α → α → State → Prop} (h : L.Lock R m m' s s')
    (hR : ∀ a a' t, L.passes s t → R a a' t → Q a a' t) : L.Lock Q m m' s s' := by
  refine Ends.mono h ?_ fun _ _ hp => hp
  rintro a t ⟨hst, a', t', ha, ht, hrun⟩
  exact ⟨hst, a', t', hR a a' t hst ha, ht, hrun⟩

theorem Lock.bindWith (h : L.Lock R m m' s s')
    (next : ∀ a a' t t', L.passes s t → R a a' t → L.beside t t' → L.Lock R' (f a) (f' a') t t') :
    L.Lock R' (m >>= f) (m' >>= f') s s' := by
  refine (ends_bind _ _).2 (Ends.mono h ?_ ?_)
  · rintro a t ⟨hst, a', t', ha, ht, hrun⟩
    have hgo : m' s' = .ok a' t' → (m' >>= f') s' = f' a' t' := by
      intro hrun
      show EStateM.bind m' f' s' = _
      rw [EStateM.bind, hrun]
    refine Ends.mono (next a a' t t' hst ha ht) ?_ ?_
    · rintro b u ⟨htu, b', u', hb, hu, hrun'⟩
      refine ⟨L.trans hst htu, b', u', hb, hu, ?_⟩
      rcases hrun with hlost | hrun
      · exact .inl (L.lost_passes hlost htu)
      · exact hrun'.imp_right fun h => (hgo hrun).trans h
    · rintro p u ⟨htu, p', u', hp, hu, hrun'⟩
      refine ⟨L.trans hst htu, p', u', hp, hu, ?_⟩
      rcases hrun with hlost | hrun
      · exact .inl (L.lost_passes hlost htu)
      · exact hrun'.imp_right fun h => (hgo hrun).trans h
  · rintro p t ⟨hst, p', t', hp, ht, hrun⟩
    refine ⟨hst, p', t', hp, ht, hrun.imp_right fun hrun => ?_⟩
    show EStateM.bind m' f' s' = _
    rw [EStateM.bind, hrun]

theorem Lock.bind (h : L.Lock Same m m' s s')
    (next : ∀ a t t', L.passes s t → L.beside t t' → L.Lock R' (f a) (f' a) t t') :
    L.Lock R' (m >>= f) (m' >>= f') s s' := by
  refine Lock.bindWith h ?_
  intro a a' t t' hst ha ht
  cases ha
  exact next a t t' hst ht

theorem lock_of_lost (hlost : L.lost s) (h : L.Lock R m m' s s') : L.Lock R m m'' s s' := by
  refine Ends.mono h ?_ ?_
  · rintro a t ⟨hst, a', t', ha, ht, -⟩
    exact ⟨hst, a', t', ha, ht, .inl (L.lost_passes hlost hst)⟩
  · rintro p t ⟨hst, p', t', hp, ht, -⟩
    exact ⟨hst, p', t', hp, ht, .inl (L.lost_passes hlost hst)⟩

theorem lock_pure (h : L.beside s s') {a a' : α} (ha : R a a' s) :
    L.Lock R (pure a) (pure a') s s' := ⟨passes_refl h, a', s', ha, h, .inr rfl⟩

theorem Lock.map {g : α → β} (h : L.Lock Same m m' s s') : L.Lock Same (g <$> m) (g <$> m') s s' := by
  rw [map_eq_pure_bind, map_eq_pure_bind]
  exact Lock.bind h fun a t t' _ ht => lock_pure ht rfl

theorem lock_failAt (h : L.beside s s') {start start' : Token} (hstart : L.matched start start')
    (c : Complaint) : L.Lock R (failAt start c) (failAt start' c) s s' :=
  ⟨passes_refl h, _, s', L.blame hstart c, h, .inr rfl⟩

theorem lock_get {f f' : State → ParseM β} (next : L.Lock R' (f s) (f' s') s s') :
    L.Lock R' (get >>= f) (get >>= f') s s' := next

theorem lock_token {f f' : Token → ParseM β} (h : L.beside s s')
    (next : ∀ start, L.matched s.token start → L.Lock R' (f s.token) (f' start) s s') :
    L.Lock R' (token >>= f) (token >>= f') s s' := by
  obtain ⟨start, hstart, hfound⟩ := L.token_matched h
  rcases hfound with hlost | hfound
  · exact lock_of_lost hlost (next start hstart)
  · show L.Lock R' (f s.token) (fun _ => f' s'.token s') s s'
    rw [hfound]
    exact next start hstart

theorem lock_kind {f f' : TokenKind → ParseM β} (h : L.beside s s')
    (next : L.Lock R' (f s.token.kind) (f' s.token.kind) s s') :
    L.Lock R' (kind >>= f) (kind >>= f') s s' := by
  show L.Lock R' (f s.token.kind) (fun _ => f' s'.token.kind s') s s'
  rw [L.kind_eq h]
  exact next

theorem lock_operator? {f f' : Option Operator → ParseM β} (h : L.beside s s')
    (next : L.Lock R' (f (Operator.ofToken? s.token.kind)) (f' (Operator.ofToken? s.token.kind)) s s') :
    L.Lock R' (operator? >>= f) (operator? >>= f') s s' := by
  show L.Lock R' (f (Operator.ofToken? s.token.kind)) (fun _ => f' (Operator.ofToken? s'.token.kind) s') s s'
  rw [L.kind_eq h]
  exact next

theorem lock_failHere (h : L.beside s s') (c : Complaint) :
    L.Lock R (failHere c) (failHere c) s s' :=
  lock_token h fun _ hstart => lock_failAt h hstart c

theorem Meets.lock {g g' : State → State} (h : L.Meets s (g s) (g' s')) :
    L.Lock (fun _ _ t => t = g s) (modify g) (modify g') s s' := by
  obtain ⟨hst, t', ht, hx⟩ := h
  exact ⟨hst, ⟨⟩, t', rfl, ht, hx.imp_right fun hx => by rw [← hx]; rfl⟩

theorem lock_bump (h : L.beside s s') : L.Lock (fun _ _ t => t = s.bump) bump bump s s' :=
  (meets_bump h).lock

theorem lock_openBracket (h : L.beside s s') : L.Lock Same openBracket openBracket s s' := by
  have hmeets := meets_bump_brackets h (congrArg (· + 1) (L.brackets_eq h))
  exact (Meets.lock hmeets).mono fun _ _ _ _ _ => rfl

theorem lock_closeBracket (h : L.beside s s') : L.Lock Same closeBracket closeBracket s s' := by
  have hmeets := meets_bump_brackets h (congrArg (· - 1) (L.brackets_eq h))
  exact (Meets.lock hmeets).mono fun _ _ _ _ _ => rfl

theorem lock_declare (h : L.beside s s') (name : String) (ty : Ty) (mutable : Bool) :
    L.Lock Same (modifyGet fun s => s.declare name ty mutable)
      (modifyGet fun s => s.declare name ty mutable) s s' := by
  obtain ⟨hvar, hdeclared⟩ := beside_declare h name ty mutable
  have hstill : L.passes s (s.declare name ty mutable).2 := L.still h rfl rfl rfl
  exact ⟨hstill, _, _, hvar, hdeclared, .inr rfl⟩

theorem lock_openBlock (h : L.beside s s') :
    L.Lock Same (modifyGet State.openBlock) (modifyGet State.openBlock) s s' := by
  obtain ⟨hid, hopen⟩ := beside_openBlock h
  have hstill : L.passes s s.openBlock.2 := L.still h rfl rfl rfl
  exact ⟨hstill, _, _, hid, hopen, .inr rfl⟩

/-- The readers are inside as many operands, so both read one more or neither does. -/
theorem lock_nested {operand operand' : ParseM Expr} (h : L.beside s s')
    (next : L.Lock Same operand operand' s.descend s'.descend) :
    L.Lock Same (nested operand) (nested operand') s s' := by
  have hcount := L.nesting_eq h
  refine ends_nested.2 ⟨fun hfull => ?_, fun hroom => ?_⟩
  · have hfails : nested operand' s' = .error ⟨.nestedTooDeeply, s'.token.position⟩ s' :=
      if_pos (by omega)
    obtain ⟨p, hblamed, hp⟩ := blamed_here h .nestedTooDeeply
    refine ⟨passes_refl h, p, s', hblamed, h, hp.imp_right fun hp => ?_⟩
    rw [hfails, hp]
  · have hroom' : s'.nesting < nestingLimit := by omega
    have hdown : L.passes s s.descend := L.still h rfl rfl rfl
    have hup : ∀ {t t' : State}, L.passes s.descend t → L.beside t t' → L.passes s t.ascend :=
      fun hst ht => L.trans (L.trans hdown hst) (L.still ht rfl rfl rfl)
    refine Ends.mono next ?_ ?_
    · rintro e t ⟨hst, e', t', he, ht, hrun⟩
      refine ⟨hup hst ht, e', t'.ascend, he, beside_ascend ht, hrun.imp (fun hlost => ?_) ?_⟩
      · exact L.lost_passes hlost (L.still ht rfl rfl rfl)
      · exact nested_of_ok hroom'
    · rintro p t ⟨hst, p', t', hp, ht, hrun⟩
      refine ⟨hup hst ht, p', t'.ascend, hp, beside_ascend ht, hrun.imp (fun hlost => ?_) ?_⟩
      · exact L.lost_passes hlost (L.still ht rfl rfl rfl)
      · exact nested_of_error hroom'

theorem lock_bump_bind {f f' : Unit → ParseM β} (h : L.beside s s')
    (next : ∀ t', L.passes s s.bump → L.beside s.bump t' → L.Lock R' (f ()) (f' ()) s.bump t') :
    L.Lock R' (bump >>= f) (bump >>= f') s s' := by
  refine Lock.bindWith (lock_bump h) ?_
  rintro a a' t t' hst rfl ht
  exact next t' hst ht

theorem lock_expectSymbol (h : L.beside s s') (symbol : Symbol) (c : Complaint) :
    L.Lock Same (expectSymbol symbol c) (expectSymbol symbol c) s s' := by
  unfold expectSymbol
  refine lock_kind h ?_
  split
  · exact (lock_bump h).mono fun _ _ _ _ _ => rfl
  · exact lock_failHere h c

theorem lock_identifier (h : L.beside s s') (c : Complaint) :
    L.Lock Same (identifier c) (identifier c) s s' := by
  unfold identifier
  refine lock_kind h ?_
  split
  · exact lock_bump_bind h fun t' _ ht => lock_pure ht rfl
  · exact lock_failHere h c

theorem lock_typeName (h : L.beside s s') : L.Lock Same typeName typeName s s' := by
  unfold typeName
  refine lock_token h fun start hstart => ?_
  refine Lock.bind (lock_identifier h _) fun name t t' _ ht => ?_
  split
  · exact lock_pure ht rfl
  · exact lock_failAt ht hstart _

theorem lock_typed (h : L.beside s s') {start start' : Token} (hstart : L.matched start start')
    (result : Except TypeFault Expr) :
    L.Lock Same (typed start result) (typed start' result) s s' := by
  unfold typed
  cases result with
  | ok e => exact lock_pure h rfl
  | error fault => exact lock_failAt h hstart _

theorem lock_combineAt (h : L.beside s s') {start start' : Token} (hstart : L.matched start start')
    (op : Operator) (lhs rhs : Expr) :
    L.Lock Same (combineAt start op lhs rhs) (combineAt start' op lhs rhs) s s' := by
  unfold combineAt
  cases op.combine lhs rhs with
  | ok e => exact lock_pure h rfl
  | error complaint => exact lock_failAt h hstart _

end
end Lockstep
end Grammar
end ScalarJit
