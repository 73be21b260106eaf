import ScalarJit.Proofs.Language.Accepted
import ScalarJit.Proofs.Text.Splice

/-! # What stands behind a part

Every rule of the language reads a stretch of tokens that closes the brackets it opens, and of what is
behind it only the next token counts. So a text that is read without errors is read in the same way
with a line feed and anything at all behind it. -/

namespace ScalarJit
namespace Grammar

/-! ### Brackets in pairs -/

/-- The brackets that are open behind tokens are those that were open before them. -/
def Neutral (x : List TokenKind) : Prop := ∀ m : Mode, x.foldl Mode.after m = m

section
variable {x y : List TokenKind}

theorem neutral_nil : Neutral [] := fun _ => rfl

theorem Neutral.append (hx : Neutral x) (hy : Neutral y) : Neutral (x ++ y) := by
  intro m
  rw [List.foldl_append, hx, hy]

theorem Neutral.cons {k : TokenKind} (hk : ∀ m : Mode, m.after k = m) (hx : Neutral x) :
    Neutral (k :: x) := by
  intro m
  rw [List.foldl_cons, hk, hx]

theorem Neutral.brackets (hx : Neutral x) :
    Neutral (.symbol .openBracket :: (x ++ [.symbol .closedBracket])) := by
  intro m
  rw [List.foldl_cons, List.foldl_append, hx]
  rfl

theorem Neutral.braces (hx : Neutral x) :
    Neutral (.symbol .openCurly :: (x ++ [.symbol .closedCurly])) := by
  intro m
  rw [List.foldl_cons, List.foldl_append, hx]
  rfl

theorem neutral_newlines (lines : Nat) : Neutral (List.replicate lines .newline) := by
  induction lines with
  | zero => exact neutral_nil
  | succ lines ih => exact ih.cons fun _ => rfl

end

/-! ### Frames -/

/-- A rule reads a stretch of tokens with its brackets in pairs, and reads it as well before anything
else that starts with the same token. -/
def Framed (rule : List TokenKind → List TokenKind → Prop) (input rest : List TokenKind) : Prop :=
  ∃ x, input = x ++ rest ∧ Neutral x ∧ ∀ rest', rest'.head? = rest.head? → rule (x ++ rest') rest'

section
variable {rule rule' : List TokenKind → List TokenKind → Prop} {input rest : List TokenKind}

theorem head?_append_congr (x : List TokenKind) {rest rest' : List TokenKind}
    (h : rest'.head? = rest.head?) : (x ++ rest').head? = (x ++ rest).head? := by
  rw [List.head?_append, List.head?_append, h]

theorem framed_nil (h : ∀ rest', rest'.head? = rest.head? → rule rest' rest') : Framed rule rest rest :=
  ⟨[], rfl, neutral_nil, h⟩

theorem Framed.mono (h : Framed rule input rest)
    (imp : ∀ {input' rest'}, rest'.head? = rest.head? → rule input' rest' → rule' input' rest') :
    Framed rule' input rest := by
  obtain ⟨x, rfl, hx, hrule⟩ := h
  exact ⟨x, rfl, hx, fun rest' hrest => imp hrest (hrule rest' hrest)⟩

theorem Framed.cons {k : TokenKind} (hk : ∀ m : Mode, m.after k = m) (h : Framed rule input rest)
    (imp : ∀ {input' rest'}, rest'.head? = rest.head? → rule input' rest' → rule' (k :: input') rest') :
    Framed rule' (k :: input) rest := by
  obtain ⟨x, rfl, hx, hrule⟩ := h
  exact ⟨k :: x, rfl, hx.cons hk, fun rest' hrest => imp hrest (hrule rest' hrest)⟩

theorem Framed.append {second : List TokenKind → List TokenKind → Prop} {mid : List TokenKind}
    (h : Framed rule input mid) (h' : Framed second mid rest)
    (imp : ∀ {input' mid' rest'}, mid'.head? = mid.head? → rest'.head? = rest.head? →
      rule input' mid' → second mid' rest' → rule' input' rest') : Framed rule' input rest := by
  obtain ⟨x, rfl, hx, hrule⟩ := h
  obtain ⟨y, rfl, hy, hsecond⟩ := h'
  refine ⟨x ++ y, (List.append_assoc ..).symm, hx.append hy, fun rest' hrest => ?_⟩
  have hmid := head?_append_congr y hrest
  rw [List.append_assoc]
  exact imp hmid hrest (hrule _ hmid) (hsecond rest' hrest)

theorem Framed.three {second third : List TokenKind → List TokenKind → Prop} {mid more : List TokenKind}
    (h : Framed rule input mid) (h' : Framed second mid more) (h'' : Framed third more rest) :
    Framed (fun input rest => ∃ mid more, rule input mid ∧ second mid more ∧ third more rest)
      input rest := by
  have htail : Framed (fun mid rest => ∃ more, second mid more ∧ third more rest) mid rest :=
    h'.append h'' fun _ _ hsecond hthird => ⟨_, hsecond, hthird⟩
  refine h.append htail ?_
  rintro input' mid' rest' - - hrule ⟨more', hsecond, hthird⟩
  exact ⟨mid', more', hrule, hsecond, hthird⟩

theorem Framed.join {second : List TokenKind → List TokenKind → Prop} {k : TokenKind}
    {mid : List TokenKind} (h : Framed rule input (k :: mid)) (hk : ∀ m : Mode, m.after k = m)
    (h' : Framed second mid rest)
    (imp : ∀ {input' mid' rest'}, rule input' (k :: mid') → second mid' rest' → rule' input' rest') :
    Framed rule' input rest := by
  have hbehind : Framed (fun input rest => ∃ mid, input = k :: mid ∧ second mid rest) (k :: mid) rest :=
    h'.cons hk fun _ hsecond => ⟨_, rfl, hsecond⟩
  refine h.append hbehind ?_
  rintro input' _ rest' - - hrule ⟨mid', rfl, hsecond⟩
  exact imp hrule hsecond

theorem Framed.brackets (h : Framed rule input (.symbol .closedBracket :: rest))
    (imp : ∀ {input' rest'}, rule input' (.symbol .closedBracket :: rest') →
      rule' (.symbol .openBracket :: input') rest') :
    Framed rule' (.symbol .openBracket :: input) rest := by
  obtain ⟨x, rfl, hx, hrule⟩ := h
  refine ⟨.symbol .openBracket :: (x ++ [.symbol .closedBracket]), by simp, hx.brackets,
    fun rest' _ => ?_⟩
  have hnext := imp (hrule (.symbol .closedBracket :: rest') rfl)
  simpa using hnext

theorem Framed.braces (h : Framed rule input (.symbol .closedCurly :: rest))
    (imp : ∀ {input' rest'}, rule input' (.symbol .closedCurly :: rest') →
      rule' (.symbol .openCurly :: input') rest') :
    Framed rule' (.symbol .openCurly :: input) rest := by
  obtain ⟨x, rfl, hx, hrule⟩ := h
  refine ⟨.symbol .openCurly :: (x ++ [.symbol .closedCurly]), by simp, hx.braces,
    fun rest' _ => ?_⟩
  have hnext := imp (hrule (.symbol .closedCurly :: rest') rfl)
  simpa using hnext

end

section
variable {functions : List (Named Function)} {externs : List (Named Signature)} {d : Nat} {form : Form}
  {σ σ' : Scope} {input rest : List TokenKind}

theorem Annotation.framed {given : Option Ty} (h : Annotation given input rest) :
    Framed ( Annotation given) input rest := by
  cases h with
  | absent => exact framed_nil fun _ _ => .absent
  | @present name _ _ hty =>
    have hname : Neutral [.identifier name] := neutral_nil.cons fun _ => rfl
    exact ⟨[.symbol .colon, .identifier name], rfl, hname.cons fun _ => rfl, fun _ _ => .present hty⟩

theorem Derives.framed (h : Derives functions externs d form σ input σ' rest) :
    Framed (fun input rest => Derives functions externs d form σ input σ' rest) input rest := by
  -- What was consumed is a list of its own, and any rest that starts alike may follow it.
  induction h with
  | signed hsign _ hvalue ih =>
    refine ih.cons ?_ fun _ h => .signed hsign h hvalue
    cases hsign <;> exact fun _ => rfl
  | bracketed _ ih => exact ih.brackets fun h => .bracketed h
  | block _ ih => exact ih.mono fun _ h => .block h
  | number => exact ⟨[_], rfl, neutral_nil.cons fun _ => rfl, fun _ _ => .number⟩
  | named hvar hv => exact ⟨[_], rfl, neutral_nil.cons fun _ => rfl, fun _ _ => .named hvar hv⟩
  | @call d name args signature σ σ' input rest _ hcallee htypes ih =>
    have hargs : Framed (fun input rest => Derives functions externs (d + 1)
        (.operand (.call name args signature.result)) σ (.identifier name :: input) σ' rest)
        (.symbol .openBracket :: input) rest := ih.brackets fun h => .call h hcallee htypes
    exact hargs.cons (fun _ => rfl) fun _ h => h
  | conditional _ _ _ he ihc iht ihf =>
    exact (ihc.three iht ihf).cons (fun _ => rfl)
      fun _ ⟨_, _, hc, ht, hf⟩ => .conditional hc ht hf he
  | tightest _ ih => exact ih.mono fun _ h => .tightest h
  | looser _ ih => exact ih.mono fun _ h => .looser h
  | joinLeft hop hleft _ _ he ihl ihr =>
    exact ihl.join (Mode.after_operator hop) ihr fun hl hr => .joinLeft hop hleft hl hr he
  | joinRight hop hright _ _ he ihl ihr =>
    exact ihl.join (Mode.after_operator hop) ihr fun hl hr => .joinRight hop hright hl hr he
  | noArguments =>
    refine framed_nil fun rest' hrest => ?_
    obtain ⟨more, rfl⟩ := List.head?_eq_some_iff.1 hrest
    exact .noArguments
  | lastArgument _ ih =>
    refine ih.mono fun hrest h => ?_
    obtain ⟨more, rfl⟩ := List.head?_eq_some_iff.1 hrest
    exact .lastArgument h
  | argument _ _ ih ihrest => exact ih.join (fun _ => rfl) ihrest fun h hrest => .argument h hrest
  | noAlternative => exact framed_nil fun _ _ => .noAlternative
  | otherwise _ ih => exact ih.cons (fun _ => rfl) fun _ h => .otherwise h
  | further _ _ _ he ihc iht ihf =>
    exact (ihc.three iht ihf).cons (fun _ => rfl) fun _ ⟨_, _, hc, ht, hf⟩ => .further hc ht hf he
  | @binding d word mutable name given value σ σ' input mid rest hword hgiven _ hvalue hty ih =>
    have hvalued : Framed (fun input rest => Derives functions externs d
        (.statement (.bind name σ'.nextVar value)) σ (.keyword word :: .identifier name :: input)
        (σ'.declare name value.ty mutable) rest) input rest :=
      hgiven.framed.join (fun _ => rfl) ih fun hgiven h => .binding hword hgiven h hvalue hty
    have hnamed : Framed (fun input rest => Derives functions externs d
        (.statement (.bind name σ'.nextVar value)) σ (.keyword word :: input)
        (σ'.declare name value.ty mutable) rest) (.identifier name :: input) rest :=
      hvalued.cons (fun _ => rfl) fun _ h => h
    refine hnamed.cons ?_ fun _ h => h
    cases hword <;> exact fun _ => rfl
  | leave hresult => exact ⟨[_], rfl, neutral_nil.cons fun _ => rfl, fun _ _ => .leave hresult⟩
  | leaveWith _ hresult ih => exact ih.cons (fun _ => rfl) fun _ h => .leaveWith h hresult
  | expression _ ih => exact ih.mono fun _ h => .expression h
  | noStatements =>
    refine framed_nil fun rest' hrest => ?_
    obtain ⟨more, rfl⟩ := List.head?_eq_some_iff.1 hrest
    exact .noStatements
  | emptyLine _ ih => exact ih.cons (fun _ => rfl) fun _ h => .emptyLine h
  | statement _ hend huseful _ ih ihrest =>
    refine ih.append ihrest fun hmid _ h hrest => .statement h ?_ huseful hrest
    unfold StatementEnd
    rw [hmid]
    exact hend
  | body _ ih => exact ih.braces fun h => .body h

/-! ### Heads -/

theorem Parameters.framed {seen : List String} {args : List (String × Ty)}
    (h : Parameters seen args input rest) :
    ∃ x, input = x ++ rest ∧ Neutral x ∧ ∀ rest', Parameters seen args (x ++ rest') rest' := by
  have hone : ∀ name typeName : String,
      Neutral [.identifier name, .symbol .colon, .identifier typeName] := fun _ _ _ => rfl
  induction h with
  | last hty hname => exact ⟨_, rfl, hone _ _, fun _ => .last hty hname⟩
  | @more _ name typeName _ _ _ _ _ hty hname _ ih =>
    obtain ⟨x, rfl, hx, hparameters⟩ := ih
    refine ⟨[.identifier name, .symbol .colon, .identifier typeName] ++ .symbol .comma :: x, rfl,
      (hone name typeName).append (hx.cons fun _ => rfl), fun rest' => ?_⟩
    exact .more hty hname (hparameters rest')

theorem Result.framed {result : Ty} (h : Result result input rest) :
    ∃ x, input = x ++ rest ∧ Neutral x ∧ ∀ rest', Result result (x ++ rest') rest' := by
  cases h with
  | void => exact ⟨[], rfl, neutral_nil, fun _ => .void⟩
  | @arrow name _ _ hty =>
    exact ⟨[.symbol .arrow, .identifier name], rfl, fun _ => rfl, fun _ => .arrow hty⟩

theorem Head.framed {head : Named Signature} (h : Head head input rest) :
    ∃ x, input = x ++ rest ∧ Neutral x ∧ ∀ rest', Head head (x ++ rest') rest' := by
  cases h with
  | @noArguments name _ _ _ hresult =>
    obtain ⟨x, rfl, hx, hreturned⟩ := hresult.framed
    have hopen := (neutral_nil.brackets.append hx).cons (k := .identifier name) fun _ => rfl
    exact ⟨_, rfl, hopen, fun rest' => .noArguments (hreturned rest')⟩
  | @arguments name args result _ _ _ hargs hresult =>
    obtain ⟨x, rfl, hx, hparameters⟩ := hargs.framed
    obtain ⟨y, rfl, hy, hreturned⟩ := hresult.framed
    have hopen := (hx.brackets.append hy).cons (k := .identifier name) fun _ => rfl
    refine ⟨_, by simp, hopen, fun rest' => ?_⟩
    have hhead : Head (name, ⟨args, result⟩) (.identifier name :: .symbol .openBracket ::
        (x ++ .symbol .closedBracket :: (y ++ rest'))) rest' :=
      .arguments (hparameters _) (hreturned rest')
    simpa using hhead

theorem Head.whole {head : Named Signature} (h : Head head input []) :
    Neutral input ∧ ∀ rest, Head head (input ++ rest) rest := by
  obtain ⟨x, rfl, hx, hheads⟩ := h.framed
  rw [List.append_nil]
  exact ⟨hx, hheads⟩

end

/-! ### Programs -/

/-- Declarations up to the end of a source are read as well up to a line feed, with anything behind
it. -/
theorem Declares.reaches {functions functions' : List (Named Function)}
    {externs externs' : List (Named Signature)} {input : List TokenKind}
    (h : Declares functions externs input functions' externs') :
    ∃ x, input = x ++ [.endOfFile] ∧ Neutral x ∧ ∀ (errors : Nat) (behind : List TokenKind) (s : State),
      Stands ⟨functions, externs, errors, 0⟩ ⟨0, []⟩ .empty (x ++ .newline :: behind) s →
      ∃ n, Stands ⟨functions', externs', errors, 0⟩ ⟨0, []⟩ .empty (.newline :: behind)
        (declarations n s) := by
  induction h with
  | done => exact ⟨[], rfl, neutral_nil, fun _ _ _ hs => ⟨0, hs⟩⟩
  | newline _ ih =>
    obtain ⟨x, rfl, hx, hreaches⟩ := ih
    refine ⟨.newline :: x, rfl, hx.cons fun _ => rfl, fun errors behind s hs => ?_⟩
    obtain ⟨n, hn⟩ := hreaches errors behind _ hs.declaration_newline
    exact ⟨n + 1, by rwa [hs.declarations_succ (by simp)]⟩
  | used hhead hend hf he _ ih =>
    obtain ⟨x, rfl, hx, hreaches⟩ := ih
    obtain ⟨y, rfl, hy, hheads⟩ := hhead.framed
    refine ⟨.keyword .uses :: (y ++ x), by simp, (hy.append hx).cons fun _ => rfl,
      fun errors behind s hs => ?_⟩
    rw [List.cons_append, List.append_assoc] at hs
    -- Where the source ended behind the head, a line feed stands there now.
    have hends : (x ++ .newline :: behind).head? = some .newline ∨
        (x ++ .newline :: behind).head? = some .endOfFile := by
      cases x with
      | nil => exact .inl rfl
      | cons k x => exact hend
    obtain ⟨n, hn⟩ := hreaches errors behind _ (hs.declaration_used (hheads _) hends hf he)
    exact ⟨n + 1, by rwa [hs.declarations_succ (by simp)]⟩
  | @function functions functions' externs externs' name signature body σ lines input mid rest hhead hf
      he hbody _ ih =>
    obtain ⟨x, rfl, hx, hreaches⟩ := ih
    obtain ⟨y, rfl, hy, hheads⟩ := hhead.framed
    -- The body ends at its brace, whatever is behind that.
    obtain ⟨z, rfl, hz, hbodies⟩ : ∃ z, mid = z ++ (x ++ [.endOfFile]) ∧ Neutral z ∧ ∀ rest',
        Derives functions externs nestingLimit (.body rootBlock body) (.ofHead name signature)
          (z ++ rest') σ rest' := by
      cases hbody with
      | body h =>
        obtain ⟨z, rfl, hz, hstatements⟩ := h.framed
        refine ⟨_, by simp, hz.braces, fun rest' => ?_⟩
        have hbody := Derives.body (hstatements (.symbol .closedCurly :: rest') rfl)
        simpa using hbody
    have hlines := neutral_newlines lines
    refine ⟨.keyword .function :: (y ++ (List.replicate lines .newline ++ (z ++ x))), by simp,
      (hy.append (hlines.append (hz.append hx))).cons fun _ => rfl, fun errors behind s hs => ?_⟩
    simp only [List.cons_append, List.append_assoc] at hs
    obtain ⟨n, hn⟩ := hreaches errors behind _ (hs.declaration_function rfl (hheads _) hf he (hbodies _))
    exact ⟨n + 1, by rwa [hs.declarations_succ (by simp)]⟩

/-! ### Texts put together -/

theorem significant_append (m : Mode) (x y : List TokenKind) :
    significant m (x ++ y) = significant m x ++ significant (x.foldl Mode.after m) y := by
  induction x generalizing m with
  | nil => rfl
  | cons k x ih =>
    rw [List.cons_append, significant, significant, List.foldl_cons]
    split
    · next hline =>
      rw [ih, hline.1]
      rfl
    · rw [ih, List.cons_append]

theorem foldl_significant (m : Mode) (x : List TokenKind) :
    (significant m x).foldl Mode.after m = x.foldl Mode.after m := by
  induction x generalizing m with
  | nil => rfl
  | cons k x ih =>
    rw [significant, List.foldl_cons]
    split
    · next hline =>
      rw [ih, hline.1]
      rfl
    · rw [List.foldl_cons, ih]

theorem tokens_eq (source : List Char) :
    tokens source = significant ⟨0, []⟩ (Lexer.kindsOf (Segment.all source)) :=
  congrArg (significant ⟨0, []⟩) (tokenize_eq source).1

/-- Tokens of a text that closes all its brackets, with a line feed and another text behind it. -/
theorem tokens_append_lineFeed {text : List Char} {x : List TokenKind}
    (h : tokens text = x ++ [.endOfFile]) (hx : x.foldl Mode.after ⟨0, []⟩ = ⟨0, []⟩)
    (behind : List Char) : tokens (text ++ '\n' :: behind) = x ++ .newline :: tokens behind := by
  have hkinds : Lexer.kindsOf (Segment.all (text ++ '\n' :: behind)) =
      (Segment.all text).filterMap (Lexer.tokenOf true) ++
        .newline :: Lexer.kindsOf (Segment.all behind) := by
    rw [Segment.all_append_lineFeed, Lexer.kindsOf, List.filterMap_append, List.append_assoc]
    rfl
  have hone : ∀ m : Mode, significant m [.endOfFile] = [.endOfFile] := fun m => by
    rw [significant, if_neg (by simp)]
    rfl
  rw [tokens_eq, Lexer.kindsOf, significant_append, hone] at h
  have htext := List.append_inj_left' h rfl
  rw [tokens_eq, hkinds, significant_append, ← foldl_significant, htext, hx, tokens_eq]
  rfl

end Grammar

namespace Lexer

theorem faultsOf_eq_nil_of_moved {segments : List Segment} {p q : Position} {lineStarted : Bool}
    (h : faultsOf segments p lineStarted = []) : faultsOf segments q lineStarted = [] := by
  induction segments generalizing p q lineStarted with
  | nil => rfl
  | cons segment rest ih =>
    rw [faultsOf] at h ⊢
    obtain ⟨hnow, hlater⟩ := List.append_eq_nil_iff.1 h
    have hnow : faultOf q lineStarted segment = [] := by
      cases segment with
      | tab => cases lineStarted <;> first | rfl | cases hnow
      | invalid c => cases hnow
      | _ => rfl
    rw [hnow, ih hlater]
    rfl

theorem faultsOf_append_lineFeed (x y : List Segment) (position : Position) (lineStarted : Bool) :
    ∃ q, faultsOf (x ++ .lineFeed :: y) position lineStarted =
      faultsOf x position lineStarted ++ faultsOf y q false := by
  induction x generalizing position lineStarted with
  | nil => exact ⟨_, rfl⟩
  | cons segment x ih =>
    obtain ⟨q, hq⟩ := ih (position.afterAll segment.text) (startedAfter lineStarted segment)
    exact ⟨q, by rw [List.cons_append, faultsOf, hq, faultsOf, List.append_assoc]⟩

end Lexer

theorem faultless_append_lineFeed (a b : List Char) :
    (tokenize (a ++ '\n' :: b) true).2 = [] ↔
      (tokenize a true).2 = [] ∧ (tokenize b true).2 = [] := by
  obtain ⟨q, hq⟩ := Lexer.faultsOf_append_lineFeed (Segment.all a) (Segment.all b) .start false
  rw [(tokenize_eq _).2, (tokenize_eq a).2, (tokenize_eq b).2, Segment.all_append_lineFeed, hq,
    List.append_eq_nil_iff]
  exact and_congr_right fun _ => ⟨Lexer.faultsOf_eq_nil_of_moved, Lexer.faultsOf_eq_nil_of_moved⟩

end ScalarJit
