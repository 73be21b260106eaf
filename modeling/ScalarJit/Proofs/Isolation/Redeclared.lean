import ScalarJit.Proofs.Isolation.Braces
import ScalarJit.Proofs.Language.Frame
import ScalarJit.Proofs.Spacing.Sources

/-! # Names declared twice

A function whose name is taken is refused once its signature is read, and passed over from there: up to
the brace that closes its body if the body starts on that line, else up to the line feed. In the second
case the body is met as a declaration of its own and refused again. What is declared before and behind
is read as if the function were not there. -/

namespace ScalarJit
namespace Grammar

/-! ### Bodies in braces -/

theorem outer_after {m : Mode} {k : TokenKind} {n n' : Nat} (h : levelAfter n k = some n') :
    (m.after k).outer.drop n' = m.outer.drop n := by
  unfold levelAfter at h
  split at h
  · next hopen =>
    subst hopen
    cases h
    rfl
  split at h
  · next hclosed =>
    subst hclosed
    cases n with
    | zero => cases h
    | succ n =>
      cases h
      exact List.drop_tail
  · next hopen hclosed =>
    cases h
    cases k with
    | symbol sign => cases sign <;> first | rfl | exact absurd rfl hopen | exact absurd rfl hclosed
    | _ => rfl

theorem outer_foldl {body : List TokenKind} {n : Nat} (h : level n body = some 0) (m : Mode) :
    (body.foldl Mode.after m).outer = m.outer.drop n := by
  induction body generalizing n m with
  | nil =>
    cases h
    rfl
  | cons k body ih =>
    obtain ⟨n', hn', hbody⟩ := Option.bind_eq_some_iff.1 h
    rw [List.foldl_cons, ih hbody, outer_after hn']

theorem neutral_body {body : List TokenKind} (h : level 0 body = some 0) :
    Neutral (.symbol .openCurly :: (body ++ [.symbol .closedCurly])) := by
  intro m
  have houter := outer_foldl h ⟨0, m.depth :: m.outer⟩
  rw [List.foldl_cons, List.foldl_append]
  show Mode.mk ((body.foldl Mode.after ⟨0, m.depth :: m.outer⟩).outer.headD 0)
    (body.foldl Mode.after ⟨0, m.depth :: m.outer⟩).outer.tail = m
  rw [houter]
  rfl

theorem significant_split {m : Mode} {kinds x y : List TokenKind} {k : TokenKind}
    (h : significant m kinds = x ++ k :: y) : ∃ x' y', kinds = x' ++ k :: y' ∧
      (∀ n, level n x' = level n x) ∧ significant ((x.foldl Mode.after m).after k) y' = y := by
  induction kinds generalizing m x with
  | nil =>
    cases x <;> cases h
  | cons first kinds ih =>
    rw [significant] at h
    split at h
    · next hline =>
      obtain ⟨x', y', rfl, hlevel, hy⟩ := ih h
      refine ⟨first :: x', y', rfl, fun n => ?_, hy⟩
      rw [hline.1, level_cons_plain rfl, hlevel]
    · cases x with
      | nil =>
        cases h
        exact ⟨[], kinds, rfl, fun _ => rfl, rfl⟩
      | cons second x =>
        obtain ⟨rfl, hrest⟩ := List.cons.inj h
        obtain ⟨x', y', rfl, hlevel, hy⟩ := ih hrest
        exact ⟨first :: x', y', rfl, fun n => by simp only [level, hlevel], hy⟩

/-! ### Passing over -/

/-- A reader outside round brackets has the given tokens before it, with all line feeds. -/
structure Faces (w : World) (σ : Scope) (kinds : List TokenKind) (s : State) : Prop where
  tidy : s.lexer.Tidy s.token.kind
  functions : s.functions = w.functions
  externs : s.externs = w.externs
  errors : s.errors = w.errors
  brackets : s.brackets = 0
  nesting : s.nesting = w.nesting
  scope : s.scope = σ
  upcoming : s.upcoming = kinds

section
variable {w : World} {σ : Scope} {kinds rest body : List TokenKind} {k : TokenKind} {s : State}

theorem Faces.kind_eq (h : Faces w σ (k :: rest) s) : s.token.kind = k := by
  have hhead := s.head?_upcoming
  rw [h.upcoming] at hhead
  exact (Option.some.inj hhead).symm

theorem Faces.bump (h : Faces w σ (k :: rest) s) (hk : k ≠ .endOfFile) : Faces w σ rest s.bump := by
  have hkind := h.kind_eq
  have herrors : s.bump.errors = s.errors := by
    rw [State.errors, State.diagnostics_bump h.tidy]
    rfl
  refine ⟨State.tidy_bump h.tidy, h.functions, h.externs, herrors.trans h.errors, h.brackets,
    h.nesting, h.scope, ?_⟩
  rw [State.upcoming_bump h.tidy, State.kindsOf_rest h.tidy, hkind, if_neg hk, h.upcoming, h.brackets]
  rfl

theorem Faces.stands (h : Faces w σ kinds s) (outer : List Nat) :
    Stands w ⟨0, outer⟩ σ (significant ⟨0, outer⟩ kinds) s := by
  refine ⟨h.tidy.clean, h.functions, h.externs, h.errors, h.brackets, h.nesting, h.scope, ?_⟩
  rw [← h.upcoming, State.upcoming]
  split
  · rw [significant, if_neg (by simp)]
    rfl
  · rw [significant, if_neg fun hline => Nat.lt_irrefl 0 hline.2]

theorem skipDeclaration_inside {depth depth' : Nat} (bound : Nat) (hk : s.token.kind ≠ .endOfFile)
    (h : levelAfter depth s.token.kind = some depth') :
    s.skipDeclaration (bound + 1) (depth + 1) = s.bump.skipDeclaration bound (depth' + 1) := by
  rw [State.skipDeclaration]
  split
  · next hend => exact absurd hend hk
  · next hline =>
    rw [hline] at h
    cases h
    rw [if_neg (Nat.succ_ne_zero depth)]
  · next hclosed =>
    rw [hclosed] at h
    cases depth with
    | zero => cases h
    | succ depth =>
      cases h
      rw [if_neg (by omega)]
      rfl
  · next hopen =>
    rw [hopen] at h
    cases h
    rfl
  · next hopen hclosed =>
    rw [levelAfter, if_neg hopen, if_neg hclosed] at h
    cases h
    rfl

theorem Faces.skipDeclaration {depth bound : Nat}
    (h : Faces w σ (body ++ .symbol .closedCurly :: rest) s) (hbody : level depth body = some 0)
    (hbound : body.length < bound) : Faces w σ rest (s.skipDeclaration bound (depth + 1)) := by
  induction body generalizing depth bound s with
  | nil =>
    cases hbody
    obtain ⟨bound, rfl⟩ : ∃ b, bound = b + 1 := ⟨bound - 1, by omega⟩
    rw [State.skipDeclaration, h.kind_eq]
    exact h.bump (by simp)
  | cons k body ih =>
    rw [List.length_cons] at hbound
    obtain ⟨bound, rfl⟩ : ∃ b, bound = b + 1 := ⟨bound - 1, by omega⟩
    obtain ⟨depth', hdepth, hbody⟩ := Option.bind_eq_some_iff.1 hbody
    have hkind : s.token.kind = k := h.kind_eq
    have hk : k ≠ .endOfFile := by
      -- Nothing follows the end, and the brace does follow this token.
      rintro rfl
      have hlast := h.upcoming
      rw [State.upcoming, if_pos hkind] at hlast
      simp at hlast
    rw [skipDeclaration_inside bound (by rwa [hkind]) (by rwa [hkind])]
    exact ih (h.bump hk) hbody (by omega)

end

section
variable {w : World} {m : Mode} {σ : Scope} {head body rest : List TokenKind} {s : State}

theorem endDeclaration_eq (h : s.brackets = 0) : s.endDeclaration = s.skipDeclaration s.remaining 0 := by
  obtain ⟨source, lexer, token, brackets, nesting, functions, externs, diagnostics, scope⟩ := s
  subst h
  rfl

theorem Stands.endDeclaration_braces
    (h : Stands w ⟨0, []⟩ σ (.symbol .openCurly :: (body ++ .symbol .closedCurly :: rest)) s)
    (hbody : level 0 body = some 0) : Stands w ⟨0, []⟩ σ rest s.endDeclaration := by
  have hkind := h.kind_eq
  have hne : s.token.kind ≠ .endOfFile := by simp [hkind]
  have htokens := h.tokens
  rw [if_neg hne, hkind, List.cons.injEq] at htokens
  obtain ⟨body', rest', hkinds, hlevel, hrest⟩ := significant_split htokens.2.symm
  -- The brace that closes the body leads back to where no bracket is open.
  have hmode := neutral_body hbody ⟨0, []⟩
  rw [List.foldl_cons, List.foldl_append, List.foldl_cons, List.foldl_nil] at hmode
  rw [hmode] at hrest
  have hfaces : Faces w σ (.symbol .openCurly :: (body' ++ .symbol .closedCurly :: rest')) s := by
    refine ⟨⟨h.clean, fun hend => absurd hend hne⟩, h.functions, h.externs, h.errors, h.brackets,
      h.nesting, h.scope, ?_⟩
    rw [State.upcoming_of_ne hne, hkind, hkinds]
  have hlength := s.length_upcoming_le
  rw [hfaces.upcoming, List.length_cons, List.length_append] at hlength
  obtain ⟨bound, hbound⟩ : ∃ b, s.remaining = b + 1 := ⟨s.remaining - 1, by omega⟩
  have hskip : s.endDeclaration = s.bump.skipDeclaration bound 1 := by
    rw [endDeclaration_eq h.brackets, hbound, State.skipDeclaration, hkind]
  have hbehind : Faces w σ rest' (s.bump.skipDeclaration bound 1) :=
    (hfaces.bump (by simp)).skipDeclaration (hlevel 0 ▸ hbody) (by
      rw [List.length_cons] at hlength
      omega)
  rw [hskip, ← hrest]
  exact hbehind.stands []

theorem Stands.endDeclaration_newline (h : Stands w ⟨0, []⟩ σ (.newline :: rest) s) :
    Stands w ⟨0, []⟩ σ (.newline :: rest) s.endDeclaration := by
  have hsame : s.endDeclaration = s := by
    rw [endDeclaration_eq h.brackets, State.remaining, State.skipDeclaration, h.kind_eq]
    rfl
  rw [hsame]
  exact h

theorem Stands.report (h : Stands w m σ rest s) (p : Problem) :
    Stands { w with errors := w.errors + 1 } m σ rest (s.report p) := by
  have hone : Diagnostic.errorCount (p.diagnostics s.source) = 1 := by
    rw [Problem.diagnostics]
    cases p.complaint.note? <;> rfl
  have hadd := s.errors_add (p.diagnostics s.source)
  rw [hone, h.errors] at hadd
  exact ⟨h.clean, h.functions, h.externs, hadd, h.brackets, h.nesting, h.scope, h.tokens⟩

/-! ### A name that is taken -/

theorem Stands.functionHead_taken {name : String} {signature : Signature}
    (hs : Stands w m σ (.keyword .function :: (head ++ rest)) s)
    (hhead : Head (name, signature) head []) (harrow : ∀ more, rest ≠ .symbol .arrow :: more)
    (htaken : (w.functions.lookup name).isSome ∨ (w.externs.lookup name).isSome) :
    ∃ p t, functionHead.run s = .error p t ∧ Stands w m σ rest t := by
  have hends : Ends functionHead s (fun _ _ => False) fun _ t => Stands w m σ rest t := by
    unfold functionHead
    refine (ends_bind _ _).2 (ends_token.2 ((ends_bind _ _).2 (ends_bump.2 ((ends_bind _ _).2 ?_))))
    refine Ends.mono ((hhead.whole.2 rest).reads harrow _ _ (hs.bump (by simp) rfl)) ?_ fun _ _ h => h.elim
    rintro _ t ⟨rfl, ht⟩
    refine (ends_bind _ _).2 (ends_get.2 ?_)
    dsimp only
    rw [ht.externs]
    split
    · exact ht
    next hextern =>
    refine (ends_bind _ _).2 (ends_get.2 ?_)
    rw [ht.functions, if_pos (htaken.resolve_right hextern)]
    exact ht
  obtain ⟨hok, herror⟩ := ends_iff.1 hends
  cases hrun : functionHead.run s with
  | ok head t => exact (hok head t hrun).elim
  | error p t => exact ⟨p, t, rfl, herror p t hrun⟩

theorem Stands.declarations_newlines {lines : Nat}
    (h : Stands w m σ (List.replicate lines .newline ++ rest) s) :
    Stands w m σ rest (declarations lines s) := by
  induction lines generalizing s with
  | zero => exact h
  | succ lines ih =>
    have h : Stands w m σ (.newline :: (List.replicate lines .newline ++ rest)) s := h
    rw [h.declarations_succ (by simp)]
    exact ih h.declaration_newline

theorem Stands.declaration_braces
    (h : Stands w ⟨0, []⟩ σ (.symbol .openCurly :: (body ++ .symbol .closedCurly :: rest)) s)
    (hbody : level 0 body = some 0) :
    Stands { w with errors := w.errors + 1 } ⟨0, []⟩ σ rest (declaration s) := by
  rw [declaration, h.kind_eq]
  exact (h.endDeclaration_braces hbody).report _

/-- A function with a name that is taken is left out, and all behind it is still to be read. -/
theorem Stands.declarations_taken {name : String} {signature : Signature} {lines : Nat}
    (hs : Stands w ⟨0, []⟩ σ (.keyword .function :: (head ++ (List.replicate lines .newline ++
      .symbol .openCurly :: (body ++ .symbol .closedCurly :: rest)))) s)
    (hhead : Head (name, signature) head []) (hbody : level 0 body = some 0)
    (htaken : (w.functions.lookup name).isSome ∨ (w.externs.lookup name).isSome) :
    ∃ n, Stands { w with errors := w.errors + if lines = 0 then 1 else 2 } ⟨0, []⟩ σ rest
      (declarations n s) := by
  have harrow : ∀ more, List.replicate lines .newline ++
      .symbol .openCurly :: (body ++ .symbol .closedCurly :: rest) ≠ .symbol .arrow :: more := by
    intro more heq
    cases lines <;> cases heq
  obtain ⟨p, t, hrun, ht⟩ := hs.functionHead_taken hhead harrow htaken
  have hrefused : declaration s = t.endDeclaration.report p := by
    rw [declaration, hs.kind_eq]
    dsimp only
    rw [hrun]
  cases lines with
  | zero =>
    have hpassed := (ht.endDeclaration_braces hbody).report p
    refine ⟨1, ?_⟩
    rw [hs.declarations_succ (by simp), hrefused]
    exact hpassed
  | succ lines =>
    -- The line feed is kept, so the body is met at the start of a declaration.
    have hkept : Stands { w with errors := w.errors + 1 } ⟨0, []⟩ σ
        (List.replicate (lines + 1) .newline ++
          .symbol .openCurly :: (body ++ .symbol .closedCurly :: rest)) (t.endDeclaration.report p) :=
      ht.endDeclaration_newline.report p
    have hlines := hkept.declarations_newlines
    have hpassed := hlines.declaration_braces hbody
    refine ⟨lines + 1 + 1 + 1, ?_⟩
    rw [hs.declarations_succ (by simp), hrefused, declarations_add (lines + 1) 1,
      hlines.declarations_succ (by simp)]
    exact hpassed

end

/-- A text without faults that declares one function: a head, line feeds, and a body in braces that
match, whatever is between them. -/
structure DeclaresOne (text : List Char) (name : String) (lines : Nat) : Prop where
  faultless : (tokenize text true).2 = []
  spelled : ∃ (signature : Signature) (head body : List TokenKind), Head (name, signature) head [] ∧
    level 0 body = some 0 ∧ tokens text = .keyword .function :: (head ++
      (List.replicate lines .newline ++ .symbol .openCurly :: (body ++ [.symbol .closedCurly, .endOfFile])))

theorem DeclaresOne.tokens_append {text : List Char} {name : String} {lines : Nat}
    (h : DeclaresOne text name lines) : ∃ (signature : Signature) (head body : List TokenKind),
      Head (name, signature) head [] ∧ level 0 body = some 0 ∧ ∀ behind,
        tokens (text ++ '\n' :: behind) = .keyword .function :: (head ++
          (List.replicate lines .newline ++ .symbol .openCurly :: (body ++ .symbol .closedCurly ::
            .newline :: tokens behind))) := by
  obtain ⟨signature, head, body, hhead, hbody, htokens⟩ := h.spelled
  refine ⟨signature, head, body, hhead, hbody, fun behind => ?_⟩
  have hall := (hhead.whole.1.append ((neutral_newlines lines).append (neutral_body hbody))).cons
    (k := .keyword .function) fun _ => rfl
  have htext := tokens_append_lineFeed (x := .keyword .function :: (head ++ (List.replicate lines .newline ++
    .symbol .openCurly :: (body ++ [.symbol .closedCurly])))) (by simpa using htokens) (hall _) behind
  simpa using htext

end Grammar

namespace Program

open Grammar

/-- A text without errors is read up to a line feed behind it, whatever is behind that. -/
theorem reaches_lineFeed {before behind : List Char} (h : (parse before).errorCount = 0)
    (hbehind : (tokenize behind true).2 = []) :
    ∃ n, Stands ⟨(parse before).functions, (parse before).externs, 0, 0⟩ ⟨0, []⟩ .empty
      (.newline :: tokens behind) (declarations n (.ofSource (before ++ '\n' :: behind))) := by
  have hbefore := faultless_of_errorCount h
  obtain ⟨x, hx, hneutral, hreaches⟩ := (declares_parse h).reaches
  have hstart := stands_ofSource ((faultless_append_lineFeed before behind).2 ⟨hbefore, hbehind⟩)
  rw [tokens_append_lineFeed hx (hneutral _) behind] at hstart
  exact hreaches 0 _ _ hstart

theorem declarations_behind (source : List Char) (n more : Nat) :
    declarations ((State.ofSource source).remaining + more) (declarations n (.ofSource source)) =
      declarations (State.ofSource source).remaining (.ofSource source) := by
  rw [← declarations_add]
  exact declarations_ofSource (by omega)

section
variable {source : List Char} {n errors : Nat} {functions functions' : List (Named Function)}
  {externs externs' : List (Named Signature)} {toks : List TokenKind}

theorem declares_behind (hs : Stands ⟨functions, externs, 0, 0⟩ ⟨0, []⟩ .empty toks
    (declarations n (.ofSource source))) (h : (parse source).errorCount = 0) :
    Declares functions externs toks (parse source).functions (parse source).externs := by
  have hbehind := declarations_behind source n toks.length
  have hread := read_declarations _ _ _ _ hs (Nat.le_add_left toks.length (State.ofSource source).remaining)
  rw [hbehind] at hread
  exact hread h

theorem parse_behind (hs : Stands ⟨functions, externs, errors, 0⟩ ⟨0, []⟩ .empty toks
    (declarations n (.ofSource source))) (h : Declares functions externs toks functions' externs') :
    (parse source).errorCount = errors ∧ (parse source).functions = functions' ∧
      (parse source).externs = externs' := by
  have hbehind := declarations_behind source n toks.length
  have hread := h.complete _ _ _ hs (Nat.le_add_left toks.length (State.ofSource source).remaining)
  rw [hbehind] at hread
  exact hread

end

/-- A function whose name is taken comes to one error if its body starts on the line of its head, else
to two. The program is that of the text without it. -/
theorem parse_redeclared {before text behind : List Char} {name : String} {lines : Nat}
    (hwhole : (parse (before ++ '\n' :: behind)).errorCount = 0)
    (hbefore : (parse before).errorCount = 0)
    (htaken : ((parse before).functions.lookup name).isSome ∨ ((parse before).externs.lookup name).isSome)
    (htext : DeclaresOne text name lines) :
    (parse (before ++ '\n' :: (text ++ '\n' :: behind))).errorCount = (if lines = 0 then 1 else 2) ∧
      (parse (before ++ '\n' :: (text ++ '\n' :: behind))).functions =
        (parse (before ++ '\n' :: behind)).functions ∧
      (parse (before ++ '\n' :: (text ++ '\n' :: behind))).externs =
        (parse (before ++ '\n' :: behind)).externs := by
  have hfaultless : (tokenize behind true).2 = [] :=
    ((faultless_append_lineFeed before behind).1 (faultless_of_errorCount hwhole)).2
  obtain ⟨n, hn⟩ := reaches_lineFeed hbefore hfaultless
  have hrest := declares_behind hn hwhole
  -- The reader of the longer text comes to the function, and then to the same place.
  obtain ⟨k, hk⟩ := reaches_lineFeed hbefore
    ((faultless_append_lineFeed text behind).2 ⟨htext.faultless, hfaultless⟩)
  obtain ⟨signature, head, body, hhead, hbody, htokens⟩ := htext.tokens_append
  rw [htokens] at hk
  obtain ⟨l, hl⟩ := hk.declaration_newline.declarations_taken hhead hbody htaken
  rw [← hk.declarations_succ (by simp), ← declarations_add, Nat.zero_add] at hl
  exact parse_behind hl hrest

def twoNames : List Char :=
  "use show(x: Float64)\nfunc f(n: Float64) -> Float64 \x7b\n return n\n\x7d".toList

def shownAgain : List Char :=
  "func show(a: Float64) -> Float64 \x7b\n if a \x7b\n return (\n a)\n \x7d\n return a \x7d".toList

def callsBoth : List Char := "func g() \x7b\n show(f(1))\n\x7d".toList

theorem parse_redeclared_shown : DeclaresOne shownAgain "show" 0 ∧
    (parse (twoNames ++ '\n' :: (shownAgain ++ '\n' :: callsBoth))).errorCount = 1 ∧
    (parse (twoNames ++ '\n' :: (shownAgain ++ '\n' :: callsBoth))).functions =
      (parse (twoNames ++ '\n' :: callsBoth)).functions ∧
    (parse (twoNames ++ '\n' :: (shownAgain ++ '\n' :: callsBoth))).externs =
      (parse (twoNames ++ '\n' :: callsBoth)).externs := by
  have htext : DeclaresOne shownAgain "show" 0 := by
    refine ⟨by decide +kernel, ⟨[("a", .float64)], .float64⟩,
      [.identifier "show", .symbol .openBracket, .identifier "a", .symbol .colon, .identifier "Float64",
        .symbol .closedBracket, .symbol .arrow, .identifier "Float64"],
      [.newline, .keyword .ifBranch, .identifier "a", .symbol .openCurly, .newline, .keyword .returns,
        .symbol .openBracket, .identifier "a", .symbol .closedBracket, .newline, .symbol .closedCurly,
        .newline, .keyword .returns, .identifier "a"], ?_, by decide, by decide +kernel⟩
    exact .arguments (.last rfl (by simp)) (.arrow rfl)
  exact ⟨htext, parse_redeclared (by decide +kernel) (by decide +kernel) (.inr (by decide +kernel)) htext⟩

def oneName : List Char := "func f() \x7b\n\x7d".toList

def bodyBelow : List Char := "func f()\n\x7b\n\x7d".toList

theorem not_one_error_redeclared : (parse (oneName ++ ['\n'])).errorCount = 0 ∧
    ((parse oneName).functions.lookup "f").isSome ∧ DeclaresOne bodyBelow "f" 1 ∧
    (parse (oneName ++ '\n' :: (bodyBelow ++ ['\n']))).errorCount ≠ 1 := by
  refine ⟨by decide +kernel, by decide +kernel, ⟨by decide +kernel, ⟨[], .void⟩, ?_⟩, by decide +kernel⟩
  exact ⟨[.identifier "f", .symbol .openBracket, .symbol .closedBracket], [.newline],
    .noArguments .void, rfl, by decide +kernel⟩

end Program
end ScalarJit
