import ScalarJit.Proofs.Grammar.Motion
import ScalarJit.Proofs.Language.Quiet

/-! # Operands in a row

Operands with operators between them can be put together in many ways. One of them respects how tight
the operators bind and to which side they group, and it is the one that reading folds: the loops for
operators are followed along the tree, from its operand on the left to its last. -/

namespace ScalarJit.Grammar

/-! ### Levels -/

namespace Operator

/-- How tight an operator binds, and whether its level groups to the right. -/
inductive Level : Operator → Nat → Bool → Prop
  | assignment (op : Option BinaryOp) : Level (.assignment op) 1 true
  | comparison {op : BinaryOp} (h : op.isComparison = true) : Level (.operation op) 2 false
  | plus : Level (.operation .plus) 3 false
  | minus : Level (.operation .minus) 3 false
  | multiply : Level (.operation .multiply) 4 false
  | divide : Level (.operation .divide) 4 false
  | power : Level (.operation .power) 5 true

theorem level (op : Operator) : op.Level op.precedence op.groupsRight := by
  cases op with
  | assignment op => exact .assignment op
  | operation op =>
    cases op with
    | plus => exact .plus
    | minus => exact .minus
    | multiply => exact .multiply
    | divide => exact .divide
    | power => exact .power
    | greater | smaller | greaterEquals | smallerEquals => exact .comparison rfl

theorem one_le_precedence (op : Operator) : 1 ≤ op.precedence := by
  cases op with
  | assignment _ => exact Nat.le_refl 1
  | operation op => cases op <;> decide

def OnLeft (op inner : Operator) : Prop :=
  op.precedence < inner.precedence ∨ inner.precedence = op.precedence ∧ op.groupsRight = false

def OnRight (op inner : Operator) : Prop :=
  op.precedence < inner.precedence ∨ inner.precedence = op.precedence ∧ op.groupsRight = true

theorem onRight_iff {op inner : Operator} : op.OnRight inner ↔ op.tightness ≤ inner.precedence := by
  rw [OnRight, tightness]
  split
  · next h =>
    simp only [h, and_true]
    omega
  · next h =>
    simp only [h, Bool.false_eq_true, and_false, or_false]
    omega

/-- Of two operators in a row either the second belongs to the right-hand side of the first, or the
first to the left-hand side of the second. -/
theorem onLeft_iff {op inner : Operator} : op.OnLeft inner ↔ op.precedence < inner.tightness := by
  rw [OnLeft, tightness]
  split
  · next h =>
    constructor
    · rintro (hlt | ⟨heq, hleft⟩)
      · exact hlt
      · rw [groupsRight_eq heq, hleft] at h
        cases h
    · exact .inl
  · next h =>
    constructor
    · omega
    · intro hlt
      by_cases heq : inner.precedence = op.precedence
      · exact .inr ⟨heq, by rw [← groupsRight_eq heq]; exact Bool.eq_false_iff.2 h⟩
      · exact .inl (by omega)

end Operator

/-! ### Trees over a row -/

/-- A way to put operands in a row together. -/
inductive Grouping where
  | operand (e : Expr)
  | join (op : Operator) (lhs rhs : Grouping)

namespace Grouping

def first : Grouping → Expr
  | operand e => e
  | join _ lhs _ => lhs.first

def rest : Grouping → List (Operator × Expr)
  | operand _ => []
  | join op lhs rhs => lhs.rest ++ (op, rhs.first) :: rhs.rest

def top? : Grouping → Option Operator
  | operand _ => none
  | join op _ _ => some op

/-- What stands on either side of an operator binds tighter, or as tight on the side that the level
groups to. -/
def Grouped : Grouping → Prop
  | operand _ => True
  | join op lhs rhs =>
    (∀ inner, lhs.top? = some inner → op.OnLeft inner) ∧
      (∀ inner, rhs.top? = some inner → op.OnRight inner) ∧ lhs.Grouped ∧ rhs.Grouped

/-- The expression that a tree stands for, if its operators fit their operands. -/
inductive Denotes : Grouping → Expr → Prop
  | operand (e : Expr) : Denotes (.operand e) e
  | join {op : Operator} {lhs rhs : Grouping} {a b e : Expr} (hl : lhs.Denotes a)
      (hr : rhs.Denotes b) (he : Joined op a b e) : Denotes (.join op lhs rhs) e

theorem Denotes.unique {g : Grouping} {e e' : Expr} (h : g.Denotes e) (h' : g.Denotes e') : e = e' := by
  induction h generalizing e' with
  | operand e =>
    cases h'
    rfl
  | join hl hr he ihl ihr =>
    cases h' with
    | join hl' hr' he' =>
      cases ihl hl'
      cases ihr hr'
      have hjoined := joined_iff.2 he
      rw [joined_iff.2 he'] at hjoined
      exact (Except.ok.inj hjoined).symm

/-! ### The tree of a row -/

/-- One operator more, with the operand behind it. It goes into the right-hand side of the operators
that it belongs to. -/
def snoc (op : Operator) (e : Expr) : Grouping → Grouping
  | operand x => join op (operand x) (operand e)
  | join outer lhs rhs =>
    if outer.tightness ≤ op.precedence then join outer lhs (snoc op e rhs)
    else join op (join outer lhs rhs) (operand e)

def ofRow (first : Expr) (rest : List (Operator × Expr)) : Grouping :=
  rest.foldl (fun g link => g.snoc link.1 link.2) (operand first)

theorem first_snoc (op : Operator) (e : Expr) (g : Grouping) : (g.snoc op e).first = g.first := by
  induction g with
  | operand x => rfl
  | join outer lhs rhs _ _ =>
    rw [snoc]
    split <;> rfl

theorem rest_snoc (op : Operator) (e : Expr) (g : Grouping) :
    (g.snoc op e).rest = g.rest ++ [(op, e)] := by
  induction g with
  | operand x => rfl
  | join outer lhs rhs _ ihr =>
    rw [snoc]
    split
    · rw [rest, rest, first_snoc, ihr, List.append_assoc, List.cons_append]
    · rfl

theorem top?_snoc (op : Operator) (e : Expr) (g : Grouping) :
    (g.snoc op e).top? = some op ∨ (g.snoc op e).top? = g.top? := by
  cases g with
  | operand x => exact .inl rfl
  | join outer lhs rhs =>
    rw [snoc]
    split
    · exact .inr rfl
    · exact .inl rfl

theorem Grouped.snoc {g : Grouping} (h : g.Grouped) (op : Operator) (e : Expr) :
    (g.snoc op e).Grouped := by
  have hnone {x : Expr} (outer : Operator → Prop) :
      ∀ inner, (operand x).top? = some inner → outer inner := by
    intro inner hinner
    cases hinner
  induction g with
  | operand x => exact ⟨hnone _, hnone _, trivial, trivial⟩
  | join outer lhs rhs _ ihr =>
    obtain ⟨hleft, hright, hlhs, hrhs⟩ := h
    rw [Grouping.snoc]
    split
    · next hle =>
      refine ⟨hleft, fun inner hinner => ?_, hlhs, ihr hrhs⟩
      rcases top?_snoc op e rhs with htop | htop
      · rw [htop, Option.some_inj] at hinner
        exact Operator.onRight_iff.2 (hinner ▸ hle)
      · exact hright inner (htop ▸ hinner)
    · next hlt =>
      refine ⟨fun inner hinner => ?_, hnone _, ⟨hleft, hright, hlhs, hrhs⟩, trivial⟩
      rw [top?, Option.some_inj] at hinner
      exact Operator.onLeft_iff.2 (hinner ▸ Nat.lt_of_not_le hlt)

theorem foldl_snoc (row : List (Operator × Expr)) {g : Grouping} (h : g.Grouped) :
    (row.foldl (fun g link => g.snoc link.1 link.2) g).Grouped ∧
      (row.foldl (fun g link => g.snoc link.1 link.2) g).first = g.first ∧
        (row.foldl (fun g link => g.snoc link.1 link.2) g).rest = g.rest ++ row := by
  induction row generalizing g with
  | nil => exact ⟨h, rfl, (List.append_nil _).symm⟩
  | cons link row ih =>
    obtain ⟨hgrouped, hfirst, hrest⟩ := ih (h.snoc link.1 link.2)
    refine ⟨hgrouped, hfirst.trans (first_snoc ..), hrest.trans ?_⟩
    rw [rest_snoc, List.append_assoc]
    rfl

theorem Grouped.least_le {g : Grouping} (h : g.Grouped) {least : Nat}
    (htop : ∀ op, g.top? = some op → least ≤ op.precedence) :
    ∀ link ∈ g.rest, least ≤ link.1.precedence := by
  induction g with
  | operand e =>
    intro link hlink
    cases hlink
  | join op lhs rhs ihl ihr =>
    obtain ⟨hleft, hright, hlhs, hrhs⟩ := h
    have hop : least ≤ op.precedence := htop op rfl
    have hl := ihl hlhs fun inner hinner => by
      have hinner := hleft inner hinner
      rw [Operator.OnLeft] at hinner
      omega
    have hr := ihr hrhs fun inner hinner => by
      have hinner := hright inner hinner
      rw [Operator.OnRight] at hinner
      omega
    intro link hlink
    rw [rest, List.mem_append, List.mem_cons] at hlink
    rcases hlink with hlink | rfl | hlink
    · exact hl link hlink
    · exact hop
    · exact hr link hlink

/-- Operators that belong to the right-hand side of the last join are folded into it. -/
theorem foldl_snoc_join {op : Operator} {lhs rhs : Grouping} {row : List (Operator × Expr)}
    (h : ∀ link ∈ row, op.tightness ≤ link.1.precedence) :
    row.foldl (fun g link => g.snoc link.1 link.2) (join op lhs rhs) =
      join op lhs (row.foldl (fun g link => g.snoc link.1 link.2) rhs) := by
  induction row generalizing rhs with
  | nil => rfl
  | cons link row ih =>
    rw [List.foldl_cons, List.foldl_cons, snoc, if_pos (h link List.mem_cons_self)]
    exact ih fun link hlink => h link (List.mem_cons_of_mem _ hlink)

theorem snoc_of_onLeft {g : Grouping} {op : Operator} (e : Expr)
    (h : ∀ inner, g.top? = some inner → op.OnLeft inner) : g.snoc op e = join op g (operand e) := by
  cases g with
  | operand x => rfl
  | join outer lhs rhs =>
    have hlt := Operator.onLeft_iff.1 (h outer rfl)
    rw [snoc, if_neg (by omega)]

theorem Grouped.ofRow_eq {g : Grouping} (h : g.Grouped) : ofRow g.first g.rest = g := by
  induction g with
  | operand e => rfl
  | join op lhs rhs ihl ihr =>
    obtain ⟨hleft, hright, hlhs, hrhs⟩ := h
    have hinto : ∀ link ∈ rhs.rest, op.tightness ≤ link.1.precedence :=
      hrhs.least_le fun inner hinner => Operator.onRight_iff.1 (hright inner hinner)
    calc ofRow (join op lhs rhs).first (join op lhs rhs).rest
        = rhs.rest.foldl (fun g link => g.snoc link.1 link.2)
            ((ofRow lhs.first lhs.rest).snoc op rhs.first) := by
          rw [ofRow, first, rest, List.foldl_append, List.foldl_cons, ← ofRow]
      _ = rhs.rest.foldl (fun g link => g.snoc link.1 link.2)
            (join op lhs (operand rhs.first)) := by rw [ihl hlhs, snoc_of_onLeft _ hleft]
      _ = join op lhs (ofRow rhs.first rhs.rest) := foldl_snoc_join hinto
      _ = join op lhs rhs := by rw [ihr hrhs]

end Grouping

/-! ### Rows of tokens -/

/-- From a state on, operators are read with an operand behind each of them, up to a token that is no
operator. -/
inductive Follows (operand : ParseM Expr) : State → List (Operator × Expr) → State → Prop
  | done {s : State} (h : Operator.ofToken? s.token.kind = none) : Follows operand s [] s
  | link {s t u : State} {op : Operator} {e : Expr} {rest : List (Operator × Expr)}
      (hop : Operator.ofToken? s.token.kind = some op) (he : operand s.bump = .ok e t)
      (hrest : Follows operand t rest u) : Follows operand s ((op, e) :: rest) u

/-- The rows behind which the right-hand side of an operator ends. -/
def Stops (op : Operator) (row : List (Operator × Expr)) : Prop :=
  ∀ link more, row = link :: more → link.1.precedence < op.tightness

section
variable {operand : ParseM Expr} {s t u : State} {row post : List (Operator × Expr)} {op : Operator}
  {e : Expr} {bound least : Nat} {ok : Expr → State → Prop} {err : Problem → State → Prop}

theorem Follows.below_next (h : Follows operand s row u)
    (hlt : ∀ link more, row = link :: more → link.1.precedence < least) : Below least s.token.kind := by
  intro next hnext
  cases h with
  | done hnone =>
    rw [hnone] at hnext
    cases hnext
  | link hop _ _ =>
    rw [hop, Option.some_inj] at hnext
    exact hnext ▸ hlt _ _ rfl

theorem ends_climb_stop (h : Below least t.token.kind) (hok : ok e t) :
    Ends (climb operand bound least e) t ok err := by
  cases bound with
  | zero =>
    rw [climb]
    exact hok
  | succ bound =>
    rw [climb]
    refine (ends_bind _ _).2 (ends_operator?.2 ?_)
    cases hop : Operator.ofToken? t.token.kind with
    | none => exact hok
    | some op =>
      dsimp only
      rw [if_pos (h op hop)]
      exact hok

theorem ends_tighten_stop (h : Below op.tightness t.token.kind) (hok : ok e t) :
    Ends (tighten operand bound op e) t ok err := by
  cases bound with
  | zero =>
    rw [tighten]
    exact hok
  | succ bound =>
    rw [tighten]
    refine (ends_bind _ _).2 (ends_operator?.2 ?_)
    cases hop : Operator.ofToken? t.token.kind with
    | none => exact hok
    | some next =>
      have hnext : ¬ op.OnRight next := fun hright => by
        have hlt := h next hop
        have hle := Operator.onRight_iff.1 hright
        omega
      dsimp only
      rw [if_neg fun hlt => hnext (.inl hlt), if_neg]
      · exact hok
      · rintro ⟨heq, hright⟩
        exact hnext (.inr ⟨heq, by rw [← Operator.groupsRight_eq heq]; exact hright⟩)

/-- A right-hand side goes on over an operator that belongs to it: tighter operators come first, then
those of the same level. -/
theorem ends_tighten_enter {next : Operator} (hnext : Operator.ofToken? t.token.kind = some next)
    (hle : op.tightness ≤ next.precedence)
    (h : Ends (climb operand bound
        (if op.precedence < next.precedence then op.precedence + 1 else op.precedence) e) t
      (fun e t => Ends (tighten operand bound op e) t ok err) err) :
    Ends (tighten operand (bound + 1) op e) t ok err := by
  rw [tighten]
  refine (ends_bind _ _).2 (ends_operator?.2 ?_)
  rw [hnext]
  dsimp only
  by_cases hlt : op.precedence < next.precedence
  · rw [if_pos hlt] at h ⊢
    exact (ends_bind _ _).2 h
  · rw [if_neg hlt] at h ⊢
    obtain ⟨heq, hright⟩ := (Operator.onRight_iff.2 hle).resolve_left hlt
    rw [if_pos ⟨heq, by rw [Operator.groupsRight_eq heq]; exact hright⟩]
    exact (ends_bind _ _).2 h

/-! ### The loops along a tree -/

/-- The loop for operators folds a row along a tree and goes on behind it. -/
def Climbs (operand : ParseM Expr) (u : State) (g : Grouping) : Prop :=
  ∀ {least bound : Nat} {t : State} {post : List (Operator × Expr)} {ok : Expr → State → Prop}
    {err : Problem → State → Prop}, (∀ op, g.top? = some op → least ≤ op.precedence ∧ Stops op post) →
    Follows operand t (g.rest ++ post) u → 2 * (g.rest.length + post.length) ≤ bound + 1 →
    (∀ e t bound, g.Denotes e → Follows operand t post u → 2 * post.length ≤ bound + 1 →
      Ends (climb operand bound least e) t ok err) →
    (∀ p t, (∀ e, ¬ g.Denotes e) → err p t) → Ends (climb operand bound least g.first) t ok err

/-- The loop for the right-hand side of an operator folds a row along a tree and ends behind it. -/
def Tightens (operand : ParseM Expr) (u : State) (g : Grouping) : Prop :=
  ∀ {op : Operator} {bound : Nat} {t : State} {post : List (Operator × Expr)}
    {ok : Expr → State → Prop} {err : Problem → State → Prop},
    (∀ inner, g.top? = some inner → op.OnRight inner) → Stops op post →
    Follows operand t (g.rest ++ post) u → 2 * (g.rest.length + post.length) ≤ bound →
    (∀ e t, g.Denotes e → Follows operand t post u → ok e t) →
    (∀ p t, (∀ e, ¬ g.Denotes e) → err p t) → Ends (tighten operand bound op g.first) t ok err

theorem Tightens.turn {rhs : Grouping} (h : Tightens operand u rhs)
    (hright : ∀ inner, rhs.top? = some inner → op.OnRight inner) (hstop : Stops op post)
    (hleast : least ≤ op.precedence) (ht : Follows operand t ((op, rhs.first) :: (rhs.rest ++ post)) u)
    (hbound : 2 * (rhs.rest.length + post.length + 1) ≤ bound + 1)
    (hok : ∀ b e' t bound, rhs.Denotes b → Joined op e b e' → Follows operand t post u →
      2 * post.length ≤ bound + 1 → Ends (climb operand bound least e') t ok err)
    (herr : ∀ p t, (∀ b e', rhs.Denotes b → ¬ Joined op e b e') → err p t) :
    Ends (climb operand bound least e) t ok err := by
  obtain ⟨bound, rfl⟩ : ∃ b, bound = b + 1 := ⟨bound - 1, by omega⟩
  cases ht with
  | @link _ t _ _ _ _ hop he hrest =>
    rw [climb]
    refine (ends_bind _ _).2 (ends_operator?.2 ?_)
    rw [hop]
    dsimp only
    rw [if_neg (by omega)]
    refine (ends_bind _ _).2 (ends_token.2 ((ends_bind _ _).2 (ends_bump.2 ?_)))
    refine (ends_bind _ _).2 ((ends_of_ok he).2 ((ends_bind _ _).2 ?_))
    refine h hright hstop hrest (by omega) ?_ fun p t hnone => herr p t fun b _ hb => (hnone b hb).elim
    intro b t hb hpost
    refine (ends_bind _ _).2 ((ends_combineAt _ _ _ _).2 ⟨fun e' he' => ?_, fun c hc => ?_⟩)
    · exact hok b e' t bound hb (joined_iff.1 he') hpost (by omega)
    · refine herr _ _ fun b' e' hb' he' => ?_
      rw [hb'.unique hb, ← joined_iff, hc] at he'
      cases he'

end

section
variable {operand : ParseM Expr} {u : State}

theorem Climbs.join {op : Operator} {lhs rhs : Grouping} (h : (Grouping.join op lhs rhs).Grouped)
    (hl : Climbs operand u lhs) (hr : Tightens operand u rhs) :
    Climbs operand u (.join op lhs rhs) := by
  obtain ⟨hleft, hright, -, -⟩ := h
  intro least bound t post ok err htop ht hbound hok herr
  obtain ⟨hleast, hstop⟩ := htop op rfl
  rw [Grouping.rest, List.append_assoc] at ht
  rw [Grouping.rest, List.length_append, List.length_cons] at hbound
  refine hl (fun inner hinner => ?_) ht ?_ ?_ ?_
  · have hinner := hleft inner hinner
    refine ⟨?_, ?_⟩
    · rw [Operator.OnLeft] at hinner
      omega
    · rintro link more heq
      cases heq
      exact Operator.onLeft_iff.1 hinner
  · simp only [List.cons_append, List.length_cons, List.length_append]
    omega
  · intro a t bound ha ht hbound
    simp only [List.cons_append, List.length_cons, List.length_append] at hbound
    refine hr.turn hright hstop hleast ht (by omega) ?_ ?_
    · exact fun b e t bound hb he => hok e t bound (.join ha hb he)
    · refine fun p t hnone => herr p t ?_
      rintro e (_ | ⟨ha', hb, he⟩)
      rw [ha'.unique ha] at he
      exact hnone _ e hb he
  · refine fun p t hnone => herr p t ?_
    rintro e (_ | ⟨ha, -, -⟩)
    exact hnone _ ha

theorem Grouping.Grouped.next {g : Grouping} {post : List (Operator × Expr)} {t : State} {least : Nat}
    {op : Operator} (h : g.Grouped) (htop : g.top? = some op) (hle : least ≤ op.precedence)
    (ht : Follows operand t (g.rest ++ post) u) :
    ∃ next, Operator.ofToken? t.token.kind = some next ∧ least ≤ next.precedence := by
  have hall : ∀ link ∈ g.rest, least ≤ link.1.precedence := h.least_le fun op' hop' => by
    rw [htop, Option.some_inj] at hop'
    exact hop' ▸ hle
  cases hrest : g.rest with
  | nil =>
    cases g with
    | operand e => cases htop
    | join op lhs rhs => simp [Grouping.rest] at hrest
  | cons link more =>
    rw [hrest] at ht hall
    cases ht with
    | link hop _ _ => exact ⟨_, hop, hall _ List.mem_cons_self⟩

/-- A right-hand side that groups to the right goes on at an operator of its own level. -/
theorem Tightens.again {op inner : Operator} {rhs : Grouping} {e : Expr} {bound : Nat} {t : State}
    {post : List (Operator × Expr)} {ok : Expr → State → Prop} {err : Problem → State → Prop}
    (h : Tightens operand u rhs) (hright : ∀ c, rhs.top? = some c → inner.OnRight c)
    (heq : inner.precedence = op.precedence) (hgroups : op.groupsRight = true) (hstop : Stops op post)
    (ht : Follows operand t ((inner, rhs.first) :: (rhs.rest ++ post)) u)
    (hbound : 2 * (rhs.rest.length + post.length + 1) ≤ bound)
    (hok : ∀ b e' t, rhs.Denotes b → Joined inner e b e' → Follows operand t post u → ok e' t)
    (herr : ∀ p t, (∀ b e', rhs.Denotes b → ¬ Joined inner e b e') → err p t) :
    Ends (tighten operand bound op e) t ok err := by
  obtain ⟨bound, rfl⟩ : ∃ b, bound = b + 1 := ⟨bound - 1, by omega⟩
  have hop : op.tightness = op.precedence := by rw [Operator.tightness, if_pos hgroups]
  have hinner : inner.tightness = op.tightness := by
    rw [hop, ← heq, Operator.tightness, Operator.groupsRight_eq heq, if_pos hgroups]
  have hnext : Operator.ofToken? t.token.kind = some inner := by
    cases ht with
    | link hnext _ _ => exact hnext
  refine ends_tighten_enter hnext (by omega) ?_
  rw [if_neg (by omega)]
  refine h.turn hright (fun link more hrow => hinner ▸ hstop link more hrow) (by omega) ht (by omega)
    ?_ herr
  intro b e' t _ hb he' hpost _
  refine ends_climb_stop (hpost.below_next (hop ▸ hstop)) ?_
  exact ends_tighten_stop (hpost.below_next hstop) (hok b e' t hb he' hpost)

theorem Climbs.enter {op : Operator} {g : Grouping} {bound : Nat} {t : State}
    {post : List (Operator × Expr)} {ok : Expr → State → Prop} {err : Problem → State → Prop}
    (h : Climbs operand u g) (hg : g.Grouped)
    (htop : ∀ c, g.top? = some c → op.precedence < c.precedence ∧ Stops c post)
    (hpost : ∀ link more, post = link :: more → link.1.precedence < op.precedence + 1)
    (ht : Follows operand t (g.rest ++ post) u) (hbound : 2 * (g.rest.length + post.length) ≤ bound)
    (hok : ∀ e t bound, g.Denotes e → Follows operand t post u → 2 * post.length ≤ bound →
      Ends (tighten operand bound op e) t ok err)
    (herr : ∀ p t, (∀ e, ¬ g.Denotes e) → err p t) :
    Ends (tighten operand bound op g.first) t ok err := by
  cases hc : g.top? with
  | none =>
    cases g with
    | operand e => exact hok e t bound (.operand e) ht (by omega)
    | join op lhs rhs => cases hc
  | some c =>
    obtain ⟨next, hnext, hle⟩ := hg.next hc (htop c hc).1 ht
    have hlt : op.precedence < next.precedence := hle
    have hlength : 0 < g.rest.length := by
      cases g with
      | operand e => cases hc
      | join op lhs rhs =>
        rw [Grouping.rest, List.length_append, List.length_cons]
        omega
    obtain ⟨bound, rfl⟩ : ∃ b, bound = b + 1 := ⟨bound - 1, by omega⟩
    refine ends_tighten_enter hnext (Operator.onRight_iff.1 (.inl hlt)) ?_
    rw [if_pos hlt]
    refine h htop ht (by omega) ?_ herr
    intro e t _ he hrest _
    exact ends_climb_stop (hrest.below_next hpost) (hok e t bound he hrest (by omega))

theorem Tightens.join {inner : Operator} {lhs rhs : Grouping}
    (h : (Grouping.join inner lhs rhs).Grouped) (hl : Climbs operand u lhs)
    (hr : Tightens operand u rhs) : Tightens operand u (.join inner lhs rhs) := by
  intro op bound t post ok err htop hstop ht hbound hok herr
  rcases htop inner rfl with hlt | ⟨heq, hgroups⟩
  · -- Tighter operators are folded at once.
    have htight : op.tightness ≤ inner.precedence := Operator.onRight_iff.1 (.inl hlt)
    have hinner := inner.precedence_le_tightness
    have hjoin : Climbs operand u (.join inner lhs rhs) := hl.join h hr
    refine hjoin.enter h ?_ ?_ ht hbound ?_ herr
    · intro c hc
      cases hc
      refine ⟨hlt, fun link more hrow => ?_⟩
      have hlink := hstop link more hrow
      omega
    · intro link more hrow
      have hlink := hstop link more hrow
      have hop := op.tightness_le_succ
      omega
    · intro e t bound he hrest _
      exact ends_tighten_stop (hrest.below_next hstop) (hok e t he hrest)
  · -- In a level that groups to the right the left-hand side is tighter, and its operator comes next.
    obtain ⟨hleft, hright, hlhs, -⟩ := h
    have hgroups' : inner.groupsRight = true := by rw [Operator.groupsRight_eq heq, hgroups]
    rw [Grouping.rest, List.append_assoc] at ht
    rw [Grouping.rest, List.length_append, List.length_cons] at hbound
    refine hl.enter hlhs ?_ ?_ ht ?_ ?_ ?_
    · intro c hc
      have hc := hleft c hc
      refine ⟨?_, fun link more hrow => ?_⟩
      · rcases hc with hlt | ⟨-, hfalse⟩
        · omega
        · rw [hfalse] at hgroups'
          cases hgroups'
      · cases hrow
        exact Operator.onLeft_iff.1 hc
    · intro link more hrow
      cases hrow
      exact Nat.lt_succ_of_le (Nat.le_of_eq heq)
    · simp only [List.cons_append, List.length_cons, List.length_append]
      omega
    · intro a t bound ha hrest hbound
      simp only [List.cons_append, List.length_cons, List.length_append] at hbound
      refine hr.again hright heq hgroups hstop hrest (by omega) ?_ ?_
      · exact fun b e t hb he hpost => hok e t (.join ha hb he) hpost
      · refine fun p t hnone => herr p t ?_
        rintro e (_ | ⟨ha', hb, he⟩)
        rw [ha'.unique ha] at he
        exact hnone _ e hb he
    · refine fun p t hnone => herr p t ?_
      rintro e (_ | ⟨ha, -, -⟩)
      exact hnone _ ha

theorem climbs_tightens (g : Grouping) (h : g.Grouped) :
    Climbs operand u g ∧ Tightens operand u g := by
  induction g with
  | operand x =>
    refine ⟨?_, ?_⟩
    · intro least bound t post ok err _ ht hbound hok _
      exact hok x t bound (.operand x) ht (by simpa [Grouping.rest] using hbound)
    · intro op bound t post ok err _ hstop ht _ hok _
      have hpost : Follows operand t post u := ht
      exact ends_tighten_stop (hpost.below_next hstop) (hok x t (.operand x) hpost)
  | join op lhs rhs ihl ihr =>
    obtain ⟨hcl, -⟩ := ihl h.2.2.1
    obtain ⟨-, htr⟩ := ihr h.2.2.2
    exact ⟨hcl.join h htr, htr.join h hcl⟩

end

/-! ### Expressions -/

theorem motion_length : Motion fun s t => t.lexer.rest.length ≤ s.lexer.rest.length where
  refl _ := Nat.le_refl _
  trans hst htu := Nat.le_trans htu hst
  bump s := s.length_rest_bump_le
  brackets _ _ := Nat.le_refl _
  inside h := h
  report _ _ := Nat.le_refl _
  openBlock _ := Nat.le_refl _
  addStatement _ _ _ := Nat.le_refl _
  closeBlock _ _ := Nat.le_refl _
  use _ _ := Nat.le_refl _
  declare {s u v _ _ _ _} _ _ hsu _ huv := by
    have hs := s.length_rest_bump_le
    have hb := s.bump.length_rest_bump_le
    have hu := u.length_rest_bump_le
    show v.lexer.rest.length ≤ s.lexer.rest.length
    omega

section
variable {depth : Nat} {s t u : State}

theorem operandWithin_ne_endOfFile {e : Expr} (h : operandWithin depth s = .ok e t) :
    s.token.kind ≠ .endOfFile := by
  intro hend
  have hfails : Ends (operandWithin depth) s (fun _ _ => False) fun _ _ => True := by
    cases depth with
    | zero => exact trivial
    | succ depth =>
      refine ends_nested.2 ⟨fun _ => trivial, fun _ => (ends_bind _ _).2 (ends_token.2 ?_)⟩
      rw [State.token_descend, hend]
      exact trivial
  exact (ends_of_ok h).1 hfails

theorem Follows.length_le {row : List (Operator × Expr)} (h : Follows (operandWithin depth) s row u) :
    row.length ≤ s.lexer.rest.length := by
  induction h with
  | done _ => exact Nat.zero_le _
  | @link s t u op e rest _ he _ ih =>
    have hbump := s.length_rest_bump_lt (operandWithin_ne_endOfFile he)
    have hoperand : t.lexer.rest.length ≤ s.bump.lexer.rest.length :=
      (ends_iff.1 (motion_length.keeps_operandWithin depth s.bump)).1 e t he
    rw [List.length_cons]
    omega

theorem Grouping.Grouped.ends_expression {g : Grouping} (h : g.Grouped)
    (hfirst : operandWithin depth s = .ok g.first t) (hrest : Follows (operandWithin depth) t g.rest u) :
    Ends (expression (operandWithin depth)) s (fun e v => g.Denotes e ∧ v = u)
      fun _ _ => ∀ e, ¬ g.Denotes e := by
  have hlength := hrest.length_le
  refine (ends_bind _ _).2 ((ends_of_ok hfirst).2 ((ends_bind _ _).2 (ends_get.2 ?_)))
  have hrow : Follows (operandWithin depth) t (g.rest ++ []) u := by
    rw [List.append_nil]
    exact hrest
  refine (climbs_tightens g h).1 (fun op _ => ?_) hrow ?_ ?_ fun _ _ hnone => hnone
  · exact ⟨op.one_le_precedence, fun _ _ hrow => by cases hrow⟩
  · rw [State.remaining, List.length_nil]
    omega
  · intro e v _ he hv _
    refine ends_climb_stop (hv.below_next fun _ _ hrow => by cases hrow) ?_
    cases hv
    exact ⟨he, rfl⟩

end

/-- An expression is the row of its operands and operators up to the first token that is no operator,
and its tree is the one way to group the row: each operator has on its left what binds tighter, or as
tight in a level that groups to the left, and likewise on its right. It is read exactly if all
operators fit what they join. An assignment with an operator then writes that operation on the
variable and the whole right-hand side. -/
theorem expression_iff_grouping {depth : Nat} {s t u : State} {first : Expr}
    {rest : List (Operator × Expr)} (hfirst : operandWithin depth s = .ok first t)
    (hrest : Follows (operandWithin depth) t rest u) :
    (∀ op : Operator, op.Level op.precedence op.groupsRight) ∧
      ∃ g : Grouping, (g.Grouped ∧ g.first = first ∧ g.rest = rest) ∧
        (∀ g' : Grouping, g'.Grouped ∧ g'.first = first ∧ g'.rest = rest → g' = g) ∧
          ∀ e v, expression (operandWithin depth) s = .ok e v ↔ g.Denotes e ∧ v = u := by
  obtain ⟨hgrouped, hspells, hrow⟩ := Grouping.foldl_snoc (g := .operand first) rest trivial
  refine ⟨Operator.level, .ofRow first rest, ⟨hgrouped, hspells, hrow⟩, ?_, ?_⟩
  · rintro g ⟨hg, rfl, rfl⟩
    exact hg.ofRow_eq.symm
  · obtain ⟨hok, herr⟩ := ends_iff.1 (hgrouped.ends_expression (by rw [hspells]; exact hfirst)
      (by rw [hrow]; exact hrest))
    intro e v
    refine ⟨hok e v, ?_⟩
    rintro ⟨he, rfl⟩
    cases hrun : expression (operandWithin depth) s with
    | ok e' v' =>
      obtain ⟨he', rfl⟩ := hok e' v' hrun
      rw [he'.unique he]
    | error p v' => exact (herr p v' hrun e he).elim

theorem eq_ok_of_ends {m : ParseM Expr} {s t : State} {e : Expr}
    (h : Ends m s (fun a u => a = e ∧ u = t) fun _ _ => False) : m s = .ok e t := by
  obtain ⟨hok, herr⟩ := ends_iff.1 h
  cases hrun : m s with
  | ok a u =>
    obtain ⟨rfl, rfl⟩ := hok a u hrun
    rfl
  | error p u => exact (herr p u hrun).elim

theorem operandWithin_succ_eq {depth : Nat} {s t : State} {e : Expr} (hroom : s.nesting < nestingLimit)
    (h : Ends (operandWith (operandWithin depth)) s.descend (fun a u => a = e ∧ u.ascend = t)
      fun _ _ => False) : operandWithin (depth + 1) s = .ok e t :=
  eq_ok_of_ends (ends_nested.2 ⟨fun hfull => Nat.not_lt.2 hfull hroom, fun _ => h⟩)

theorem operandWithin_variable {depth : Nat} {s : State} {name : String} {e : Expr}
    (hroom : s.nesting < nestingLimit) (h : s.token.kind = .identifier name)
    (hnext : s.bump.token.kind ≠ .symbol .openBracket)
    (he : readVariable name s.token s.bump.descend = .ok e s.bump.descend) :
    operandWithin (depth + 1) s = .ok e s.bump := by
  refine operandWithin_succ_eq hroom ((ends_bind _ _).2 (ends_token.2 ?_))
  rw [State.token_descend, h]
  refine (ends_bind _ _).2 (ends_bump.2 ((ends_bind _ _).2 (ends_kind.2 ?_)))
  rw [State.bump_descend, State.token_descend, if_neg hnext]
  exact (ends_of_ok he).2 ⟨rfl, rfl⟩

def spellsNumbers : List (Operator × Double) → State → Bool
  | [], s => (Operator.ofToken? s.token.kind).isNone
  | (op, x) :: rest, s =>
    decide (Operator.ofToken? s.token.kind = some op) && decide (s.bump.token.kind = .number x) &&
      spellsNumbers rest s.bump.bump

theorem follows_of_spellsNumbers (depth : Nat) (row : List (Operator × Double)) {s : State}
    (hroom : s.nesting < nestingLimit) (h : spellsNumbers row s = true) :
    ∃ u, Follows (operandWithin (depth + 1)) s (row.map fun link => (link.1, .literal link.2)) u := by
  induction row generalizing s with
  | nil => exact ⟨s, .done (Option.isNone_iff_eq_none.1 h)⟩
  | cons link row ih =>
    simp only [spellsNumbers, Bool.and_eq_true, decide_eq_true_eq] at h
    obtain ⟨⟨hop, hx⟩, hrest⟩ := h
    obtain ⟨u, hu⟩ := ih (s := s.bump.bump) hroom hrest
    have hroom : s.bump.nesting < nestingLimit := hroom
    refine ⟨u, .link hop (operandWithin_succ_eq hroom ((ends_bind _ _).2 (ends_token.2 ?_))) hu⟩
    rw [State.token_descend, hx]
    exact ⟨rfl, rfl⟩

def mixedRow : State :=
  { State.ofSource "x += 1 - 2 - 3 * 2 ** 3 ** 2".toList with
    scope := ⟨"f", ⟨[], .void⟩, [⟨none, [⟨"x", .float64, true, 0⟩], []⟩], 1, some rootBlock⟩ }

theorem expression_iff_grouping_mixed :
    let x : Expr := .read "x" ⟨rootBlock, 0⟩ .float64 true
    let n (digit : Char) : Expr := .literal (.ofDigits [digit])
    ∃ u : State, operandWithin 1 mixedRow = .ok x mixedRow.bump ∧
      Follows (operandWithin 1) mixedRow.bump
        [(.assignment (some .plus), n '1'), (.operation .minus, n '2'), (.operation .minus, n '3'),
          (.operation .multiply, n '2'), (.operation .power, n '3'), (.operation .power, n '2')] u ∧
      expression (operandWithin 1) mixedRow =
        .ok (.write "x" ⟨rootBlock, 0⟩ (.binary .plus x
          (.binary .minus (.binary .minus (n '1') (n '2')) (.binary .multiply (n '3')
            (.binary .power (n '2') (.binary .power (n '3') (n '2'))))))) u := by
  intro x n
  have hfirst : operandWithin 1 mixedRow = .ok x mixedRow.bump :=
    operandWithin_variable (by decide +kernel) (by decide +kernel : mixedRow.token.kind = .identifier "x")
      (by decide +kernel) rfl
  obtain ⟨u, hrest⟩ := follows_of_spellsNumbers (s := mixedRow.bump) 0
    [(.assignment (some .plus), .ofDigits ['1']), (.operation .minus, .ofDigits ['2']),
      (.operation .minus, .ofDigits ['3']), (.operation .multiply, .ofDigits ['2']),
      (.operation .power, .ofDigits ['3']), (.operation .power, .ofDigits ['2'])] (by decide +kernel)
    (by decide +kernel)
  simp only [List.map_cons, List.map_nil] at hrest
  obtain ⟨-, g, -, hunique, hreads⟩ := expression_iff_grouping hfirst hrest
  have hg := hunique (.join (.assignment (some .plus)) (.operand x)
    (.join (.operation .minus)
      (.join (.operation .minus) (.operand (n '1')) (.operand (n '2')))
      (.join (.operation .multiply) (.operand (n '3')) (.join (.operation .power) (.operand (n '2'))
        (.join (.operation .power) (.operand (n '3')) (.operand (n '2')))))))
    ⟨by simp [Grouping.Grouped, Grouping.top?, Operator.OnLeft, Operator.OnRight,
      Operator.precedence, Operator.groupsRight], rfl, rfl⟩
  refine ⟨u, hfirst, hrest, (hreads _ u).2 ⟨?_, rfl⟩⟩
  rw [← hg]
  refine .join (.operand _) (.join (.join (.operand _) (.operand _) (.operation ?_ ?_))
    (.join (.operand _) (.join (.operand _) (.join (.operand _) (.operand _) (.operation ?_ ?_))
      (.operation ?_ ?_)) (.operation ?_ ?_)) (.operation ?_ ?_)) (.compound ?_ ?_)
  all_goals simp [n, Expr.ty]

end ScalarJit.Grammar
