import ScalarJit.Proofs.Language.Accepted
import ScalarJit.Proofs.Text.Splice
import ScalarJit.Proofs.Tree.Levels

/-! # Chains of operators

Operators of one level fold onto each other without a new level of operands. A chain of them is read
whatever its length, and its tree is as high as it is long. -/

namespace ScalarJit
namespace Grammar

/-! ### Trees and tokens -/

/-- A number joined to itself by an operator so many times. -/
def chain (op : BinaryOp) (x : Double) : Nat → Expr
  | 0 => .literal x
  | n + 1 =>
    if (Operator.operation op).groupsRight then .binary op (.literal x) (chain op x n)
    else .binary op (chain op x n) (.literal x)

def links (sign : Symbol) (x : Double) : Nat → List TokenKind → List TokenKind
  | 0, rest => rest
  | n + 1, rest => .symbol sign :: .number x :: links sign x n rest

section
variable (op : BinaryOp) (sign : Symbol) (x : Double) (n : Nat)

theorem ty_chain : (chain op x n).ty = .float64 := by
  induction n with
  | zero => rfl
  | succ n ih =>
    rw [chain]
    split
    · rfl
    · exact ih

theorem joints_chain : (chain op x n).joints = n := by
  induction n with
  | zero => rfl
  | succ n ih =>
    rw [chain]
    split <;> simp [Expr.joints, ih]

theorem eq_of_binary_mem_chain {other : BinaryOp} {lhs rhs : Expr}
    (h : .binary other lhs rhs ∈ (chain op x n).parts) : other = op := by
  induction n with
  | zero => simp [chain, Expr.parts] at h
  | succ n ih =>
    have hlink : .binary other lhs rhs ∉ (Expr.literal x).parts := by simp [Expr.parts]
    rw [chain] at h
    split at h
    · rcases (Expr.mem_parts _).1 h with heq | hinner
      · exact (Expr.binary.inj heq).1
      · rw [Expr.inner_binary, List.mem_append] at hinner
        exact ih (hinner.resolve_left hlink)
    · rcases (Expr.mem_parts _).1 h with heq | hinner
      · exact (Expr.binary.inj heq).1
      · rw [Expr.inner_binary, List.mem_append] at hinner
        exact ih (hinner.resolve_right hlink)

theorem links_succ (rest : List TokenKind) :
    links sign x (n + 1) rest = links sign x n (.symbol sign :: .number x :: rest) := by
  induction n with
  | zero => rfl
  | succ n ih => rw [links, ih, links]

end

section
variable {functions : List (Named Function)} {externs : List (Named Signature)} {d : Nat} {σ : Scope}
  {sign : Symbol} {op : BinaryOp} {x : Double}

theorem derives_link {least : Nat} (hle : least ≤ 6) (rest : List TokenKind) :
    Derives functions externs (d + 1) (.level least (.literal x)) σ (.number x :: rest) σ rest :=
  (Derives.tightest .number).weaken hle

theorem derives_chain (hsign : Operator.ofSymbol? sign = some (.operation op)) (n : Nat)
    (rest : List TokenKind) :
    Derives functions externs (d + 1) (.level (Operator.operation op).precedence (chain op x n)) σ
      (.number x :: links sign x n rest) σ rest := by
  have hprec : (Operator.operation op).precedence + 1 ≤ 6 := by cases op <;> decide
  induction n generalizing rest with
  | zero => exact derives_link (Nat.le_of_succ_le hprec) rest
  | succ n ih =>
    rw [chain]
    split
    · next hright =>
      have hty : (chain op x n).ty = (Expr.literal x).ty := ty_chain op x n
      exact .joinRight hsign hright (derives_link hprec _) (ih rest)
        (.operation (by simp [Expr.ty]) hty)
    · next hleft =>
      have hvalue : (chain op x n).ty ≠ .void := by
        rw [ty_chain]
        decide
      have hty : (Expr.literal x).ty = (chain op x n).ty := (ty_chain op x n).symm
      rw [links_succ]
      exact .joinLeft hsign (Bool.eq_false_iff.2 hleft) (ih _) (derives_link hprec rest)
        (.operation hvalue hty)

theorem declares_chain (hsign : Operator.ofSymbol? sign = some (.operation op)) (n : Nat) :
    ∃ f : Function, f.blocks = [⟨none, [], [.leaveWith (chain op x n)]⟩] ∧
      Declares [] [] (.keyword .function :: .identifier "f" :: .symbol .openBracket ::
        .symbol .closedBracket :: .symbol .arrow :: .identifier "Float64" :: .symbol .openCurly ::
        .newline :: .keyword .returns :: .symbol .openBracket :: .number x ::
        links sign x n [.symbol .closedBracket, .newline, .symbol .closedCurly, .endOfFile])
        [("f", f)] [] := by
  have hprec : 1 ≤ (Operator.operation op).precedence := by cases op <;> decide
  have hchain (σ : Scope) (rest : List TokenKind) :
      Derives [] [] nestingLimit (.level 1 (chain op x n)) σ
        (.symbol .openBracket :: .number x :: links sign x n (.symbol .closedBracket :: rest)) σ rest :=
    (Derives.tightest (d := 255 + 1) (.bracketed ((derives_chain hsign n _).weaken hprec))).weaken
      (by decide)
  have hstatement := Derives.leaveWith (hchain (.ofHead "f" ⟨[], .float64⟩)
    [.newline, .symbol .closedCurly, .endOfFile]) (ty_chain op x n)
  have hstatements : Derives [] [] nestingLimit (.statements rootBlock) (.ofHead "f" ⟨[], .float64⟩) _
      ((Scope.ofHead "f" ⟨[], .float64⟩).addStatement rootBlock (.leaveWith (chain op x n)))
      [.symbol .closedCurly, .endOfFile] :=
    .emptyLine (.statement hstatement (.inl rfl) rfl (.emptyLine .noStatements))
  have hhead (mid : List TokenKind) : Head ("f", ⟨[], .float64⟩) (.identifier "f" ::
      .symbol .openBracket :: .symbol .closedBracket :: .symbol .arrow :: .identifier "Float64" :: mid)
      (List.replicate 0 .newline ++ mid) :=
    .noArguments (.arrow (by decide))
  exact ⟨_, rfl, .function (hhead _) rfl rfl (.body hstatements) .done⟩

end

/-! ### Their sources -/

def linkLines (spelling : List Char) : Nat → List Char
  | 0 => [')', '\n', '}']
  | n + 1 => (spelling ++ ['1']) ++ '\n' :: linkLines spelling n

def firstLink : List Char := "func f() -> Float64 \x7b\n return (1".toList

def chained (spelling : List Char) (n : Nat) : List Char :=
  firstLink ++ '\n' :: linkLines spelling n

theorem exists_link (op : BinaryOp) : ∃ spelling sign, Operator.ofSymbol? sign = some (.operation op) ∧
    Segment.all (spelling ++ ['1']) =
      [.lexeme (.symbol sign) spelling, .lexeme (.number (.ofDigits ['1'])) ['1']] := by
  cases op with
  | plus => exact ⟨['+'], .plus, rfl, by decide +kernel⟩
  | minus => exact ⟨['-'], .minus, rfl, by decide +kernel⟩
  | multiply => exact ⟨['*'], .multiply, rfl, by decide +kernel⟩
  | divide => exact ⟨['/'], .divide, rfl, by decide +kernel⟩
  | power => exact ⟨['*', '*'], .power, rfl, by decide +kernel⟩
  | greater => exact ⟨['>'], .greater, rfl, by decide +kernel⟩
  | smaller => exact ⟨['<'], .smaller, rfl, by decide +kernel⟩
  | greaterEquals => exact ⟨['>', '='], .greaterEquals, rfl, by decide +kernel⟩
  | smallerEquals => exact ⟨['<', '='], .smallerEquals, rfl, by decide +kernel⟩

section
variable {spelling : List Char} {sign : Symbol} {op : BinaryOp} {x : Double}
  (hsign : Operator.ofSymbol? sign = some (.operation op))
  (hlink : Segment.all (spelling ++ ['1']) =
    [.lexeme (.symbol sign) spelling, .lexeme (.number x) ['1']])

include hlink

theorem all_linkLines (n : Nat) : Segment.all (linkLines spelling (n + 1)) =
    .lexeme (.symbol sign) spelling :: .lexeme (.number x) ['1'] :: .lineFeed ::
      Segment.all (linkLines spelling n) := by
  rw [linkLines, Segment.all_append_lineFeed, hlink]
  rfl

theorem faultsOf_linkLines (n : Nat) (position : Position) (started : Bool) :
    Lexer.faultsOf (Segment.all (linkLines spelling n)) position started = [] := by
  induction n generalizing position started with
  | zero =>
    have hall : Segment.all (linkLines spelling 0) =
        [.lexeme (.symbol .closedBracket) [')'], .lineFeed, .lexeme (.symbol .closedCurly) ['}']] := by
      rw [linkLines]
      decide +kernel
    rw [hall]
    rfl
  | succ n ih =>
    rw [all_linkLines hlink]
    exact ih _ _

include hsign

theorem significant_linkLines (n : Nat) :
    significant ⟨1, [0]⟩ (Lexer.kindsOf (Segment.all (linkLines spelling n))) =
      links sign x n [.symbol .closedBracket, .newline, .symbol .closedCurly, .endOfFile] := by
  have hmode : (Mode.mk 1 [0]).after (.symbol sign) = ⟨1, [0]⟩ := by
    cases sign <;> first | rfl | cases hsign
  induction n with
  | zero =>
    rw [linkLines, links]
    decide +kernel
  | succ n ih =>
    have hkinds : Lexer.kindsOf (Segment.all (linkLines spelling (n + 1))) =
        .symbol sign :: .number x :: .newline :: Lexer.kindsOf (Segment.all (linkLines spelling n)) := by
      rw [all_linkLines hlink]
      rfl
    rw [hkinds, significant, if_neg (by simp), hmode, significant, if_neg (by simp)]
    show _ :: _ :: significant ⟨1, [0]⟩ (.newline :: _) = _
    rw [significant, if_pos ⟨rfl, Nat.one_pos⟩, ih, links]

/-- The source of a chain is without faults, and its tokens are those of a function. -/
theorem tokens_chained (n : Nat) : (tokenize (chained spelling n) true).2 = [] ∧
    tokens (chained spelling n) = .keyword .function :: .identifier "f" :: .symbol .openBracket ::
      .symbol .closedBracket :: .symbol .arrow :: .identifier "Float64" :: .symbol .openCurly ::
      .newline :: .keyword .returns :: .symbol .openBracket :: .number (.ofDigits ['1']) ::
      links sign x n [.symbol .closedBracket, .newline, .symbol .closedCurly, .endOfFile] := by
  have hfirst : Segment.all firstLink = [.lexeme (.keyword .function) "func".toList, .blank ' ',
      .lexeme (.identifier "f") ['f'], .lexeme (.symbol .openBracket) ['('],
      .lexeme (.symbol .closedBracket) [')'], .blank ' ', .lexeme (.symbol .arrow) ['-', '>'],
      .blank ' ', .lexeme (.identifier "Float64") "Float64".toList, .blank ' ',
      .lexeme (.symbol .openCurly) ['{'], .lineFeed, .blank ' ',
      .lexeme (.keyword .returns) "return".toList, .blank ' ', .lexeme (.symbol .openBracket) ['('],
      .lexeme (.number (.ofDigits ['1'])) ['1']] := by
    decide +kernel
  have hall : Segment.all (chained spelling n) =
      Segment.all firstLink ++ .lineFeed :: Segment.all (linkLines spelling n) :=
    Segment.all_append_lineFeed ..
  rw [hfirst] at hall
  obtain ⟨hkinds, hfaults⟩ := tokenize_eq (chained spelling n)
  rw [hall] at hkinds hfaults
  constructor
  · rw [hfaults]
    exact faultsOf_linkLines hlink n _ _
  · rw [tokens, hkinds, ← significant_linkLines hsign hlink]
    rfl

end
end Grammar

namespace Program

/-- With any one operator alone there are trees of any height in sources without errors. -/
theorem exists_higher (op : BinaryOp) (n : Nat) : ∃ source, (parse source).errorCount = 0 ∧
    ∃ entry ∈ (parse source).functions, ∃ e ∈ entry.2.parts,
      (∀ other lhs rhs, .binary other lhs rhs ∈ e.parts → other = op) ∧
      ¬e.HeightAtMost entry.2.blocks n := by
  obtain ⟨spelling, sign, hsign, hlink⟩ := Grammar.exists_link op
  obtain ⟨hnone, htokens⟩ := Grammar.tokens_chained hsign hlink n
  obtain ⟨f, hblocks, hdeclares⟩ := Grammar.declares_chain hsign n
  rw [← htokens] at hdeclares
  have hstart := Grammar.stands_ofSource hnone
  obtain ⟨herrors, hfunctions, -⟩ := hdeclares.complete 0 _ _ hstart hstart.length_le
  have hfunctions : (parse (Grammar.chained spelling n)).functions = [("f", f)] := hfunctions
  refine ⟨Grammar.chained spelling n, herrors, ("f", f), ?_⟩
  rw [hfunctions]
  have hpart := Function.mem_parts.2 (.inr ⟨0, _, _, by rw [hblocks]; rfl,
    List.mem_singleton_self _, Expr.self_mem_parts _⟩)
  refine ⟨List.mem_singleton_self _, _, hpart, ?_, ?_⟩
  · intro other lhs rhs hpart
    rcases (Expr.mem_parts _).1 hpart with heq | hinner
    · cases heq
    · exact Grammar.eq_of_binary_mem_chain op _ n hinner
  · intro h
    have hle := h.joints_le
    rw [Expr.joints, Grammar.joints_chain] at hle
    omega

/-- No number bounds the height of the trees in sources without errors. -/
theorem not_bounded_height : ¬∃ n, ∀ source, (parse source).errorCount = 0 →
    ∀ entry ∈ (parse source).functions, ∀ e ∈ entry.2.parts, e.HeightAtMost entry.2.blocks n := by
  rintro ⟨n, hall⟩
  obtain ⟨source, herrors, entry, hentry, e, he, -, hheight⟩ := exists_higher .power n
  exact hheight (hall source herrors entry hentry e he)

end Program
end ScalarJit
