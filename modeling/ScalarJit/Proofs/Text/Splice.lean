import ScalarJit.Token.Segment
import ScalarJit.Diagnostic

/-! # Texts put together at line feeds

A line feed ends every lexeme and every comment, so a text that is put together at a line feed is cut
into the segments of its parts. Places in the second part are those that it has on its own, further
down by the lines of the first part, and so are its lines. -/

namespace ScalarJit

namespace Position

def Before (p q : Position) : Prop := p.line < q.line ∨ p.line = q.line ∧ p.column < q.column

instance (p q : Position) : Decidable (p.Before q) :=
  inferInstanceAs (Decidable (p.line < q.line ∨ p.line = q.line ∧ p.column < q.column))

def UpTo (p q : Position) : Prop := p.line < q.line ∨ p.line = q.line ∧ p.column ≤ q.column

instance (p q : Position) : Decidable (p.UpTo q) :=
  inferInstanceAs (Decidable (p.line < q.line ∨ p.line = q.line ∧ p.column ≤ q.column))

def down (count : Nat) (p : Position) : Position := ⟨p.line + count, p.column⟩

theorem UpTo.refl (p : Position) : p.UpTo p := .inr ⟨rfl, Nat.le_refl _⟩

theorem UpTo.trans {p q r : Position} (h : p.UpTo q) (h' : q.UpTo r) : p.UpTo r := by
  unfold UpTo at *
  omega

theorem Before.upTo {p q : Position} (h : p.Before q) : p.UpTo q := by
  unfold Before at h
  unfold UpTo
  omega

theorem Before.trans_upTo {p q r : Position} (h : p.Before q) (h' : q.UpTo r) : p.Before r := by
  unfold Before UpTo at *
  omega

theorem not_before_iff {p q : Position} : ¬p.Before q ↔ q.UpTo p := by
  unfold Before UpTo
  omega

theorem line_down (count : Nat) (p : Position) : (p.down count).line = p.line + count := rfl

theorem before_down_iff {count : Nat} {p q : Position} :
    (p.down count).Before (q.down count) ↔ p.Before q := by
  unfold Before down
  dsimp only
  omega

theorem before_after (p : Position) (c : Char) : p.Before (p.after c) := by
  unfold Before after tabWidth
  split
  · exact .inl (Nat.lt_succ_self _)
  · split
    · exact .inr ⟨rfl, Nat.lt_add_of_pos_right (by decide)⟩
    · exact .inr ⟨rfl, Nat.lt_succ_self _⟩

theorem upTo_afterAll (p : Position) (text : List Char) : p.UpTo (p.afterAll text) := by
  induction text generalizing p with
  | nil => exact .refl p
  | cons c text ih => exact (p.before_after c).upTo.trans (ih _)

theorem before_afterAll (p : Position) {text : List Char} (h : text ≠ []) :
    p.Before (p.afterAll text) := by
  cases text with
  | nil => exact absurd rfl h
  | cons c text => exact (p.before_after c).trans_upTo (upTo_afterAll _ text)

theorem afterAll_down (count : Nat) (p : Position) (text : List Char) :
    (p.down count).afterAll text = (p.afterAll text).down count := by
  induction text generalizing p with
  | nil => rfl
  | cons c text ih =>
    have hafter : (p.down count).after c = (p.after c).down count := by
      unfold after down
      split
      · rw [Nat.add_right_comm]
      · split <;> rfl
    rw [afterAll_cons, afterAll_cons, hafter, ih]

theorem line_afterAll (p : Position) (text : List Char) :
    (p.afterAll text).line = p.line + text.count '\n' := by
  induction text generalizing p with
  | nil => rfl
  | cons c text ih =>
    rw [afterAll_cons, ih, after, List.count_cons]
    by_cases hc : c = '\n'
    · simp only [hc, if_true, beq_self_eq_true]
      omega
    · have hne : (c == '\n') = false := by simpa using hc
      simp only [hc, if_false, hne, Bool.false_eq_true]
      split <;> rfl

end Position

def Diagnostic.down (count : Nat) (d : Diagnostic) : Diagnostic :=
  { d with position := d.position.down count }

theorem Diagnostic.down_down (m n : Nat) (d : Diagnostic) : (d.down m).down n = d.down (m + n) := by
  unfold Diagnostic.down Position.down
  dsimp only
  rw [Nat.add_assoc]

/-! ### Lines -/

namespace Text

theorem afterFirstLine_cons (c : Char) (text : List Char) :
    afterFirstLine (c :: text) = if c = '\n' then text else afterFirstLine text := by
  unfold afterFirstLine
  by_cases hc : c = '\n' <;> simp [hc]

theorem lineAt_cons_succ (c : Char) (text : List Char) (n : Nat) :
    lineAt (c :: text) (n + 1) = if c = '\n' then lineAt text n else lineAt text (n + 1) := by
  rw [lineAt_succ, afterFirstLine_cons]
  by_cases hc : c = '\n'
  · rw [if_pos hc, if_pos hc]
  · rw [if_neg hc, if_neg hc, lineAt_succ]

theorem lineAt_behind (before behind : List Char) (n : Nat) :
    lineAt (before ++ '\n' :: behind) (before.count '\n' + 1 + n) = lineAt behind n := by
  induction before with
  | nil =>
    rw [List.nil_append, List.count_nil, Nat.zero_add, Nat.add_comm, lineAt_cons_succ, if_pos rfl]
  | cons c before ih =>
    rw [List.cons_append]
    by_cases hc : c = '\n'
    · have hcount : (c :: before).count '\n' + 1 + n = before.count '\n' + 1 + n + 1 := by
        rw [hc, List.count_cons_self]
        omega
      rw [hcount, lineAt_cons_succ, if_pos hc, ih]
    · have hcount : (c :: before).count '\n' + 1 + n = before.count '\n' + n + 1 := by
        rw [List.count_cons_of_ne hc]
        omega
      have hsame : before.count '\n' + n + 1 = before.count '\n' + 1 + n := by omega
      rw [hcount, lineAt_cons_succ, if_neg hc, hsame, ih]

theorem firstLine_before {before : List Char} (h : before.getLast? ≠ some '\r')
    (behind : List Char) : firstLine (before ++ '\n' :: behind) = firstLine before := by
  unfold firstLine
  have hline : ('\n' :: behind).takeWhile (· != '\n') = [] := rfl
  rw [List.takeWhile_append, hline, List.append_nil, List.length_append]
  by_cases hall : (before.takeWhile (· != '\n')).length = before.length
  · have hwhole : before.takeWhile (· != '\n') = before :=
      (List.takeWhile_prefix _).eq_of_length hall
    rw [if_pos hall, hwhole]
    simp [h]
  · have hlt : (before.takeWhile (· != '\n')).length < before.length :=
      Nat.lt_of_le_of_ne (List.takeWhile_prefix _).length_le hall
    rw [if_neg hall]
    simp only [hlt, true_and, List.length_cons]
    have hlt' : (before.takeWhile (· != '\n')).length < before.length + (behind.length + 1) := by omega
    simp only [hlt', true_and]

theorem lineAt_before {before : List Char} (h : before.getLast? ≠ some '\r') (behind : List Char)
    {n : Nat} (hn : n ≤ before.count '\n') :
    lineAt (before ++ '\n' :: behind) n = lineAt before n := by
  induction before generalizing n with
  | nil =>
    obtain rfl : n = 0 := Nat.le_zero.1 hn
    rw [lineAt_zero, lineAt_zero, firstLine_before h]
  | cons c before ih =>
    cases n with
    | zero => rw [lineAt_zero, lineAt_zero, firstLine_before h]
    | succ n =>
      have hlast : before.getLast? ≠ some '\r' := by
        cases before with
        | nil => simp
        | cons d before => rwa [List.getLast?_cons_cons] at h
      rw [List.cons_append, lineAt_cons_succ, lineAt_cons_succ]
      by_cases hc : c = '\n'
      · rw [hc, List.count_cons_self] at hn
        rw [if_pos hc, if_pos hc, ih hlast (by omega)]
      · rw [List.count_cons_of_ne hc] at hn
        rw [if_neg hc, if_neg hc, ih hlast hn]

end Text

/-! ### Segments -/

namespace Segment

theorem takeWhile_append_lineFeed {p : Char → Bool} (hp : p '\n' = false) (text behind : List Char) :
    (text ++ '\n' :: behind).takeWhile p = text.takeWhile p := by
  induction text with
  | nil => rw [List.nil_append, List.takeWhile_cons_of_neg (by simp [hp]), List.takeWhile_nil]
  | cons c text ih =>
    rw [List.cons_append, List.takeWhile_cons, List.takeWhile_cons, ih]

theorem dropWhile_append_lineFeed {p : Char → Bool} (hp : p '\n' = false) (text behind : List Char) :
    (text ++ '\n' :: behind).dropWhile p = text.dropWhile p ++ '\n' :: behind := by
  induction text with
  | nil => rw [List.nil_append, List.dropWhile_cons_of_neg (by simp [hp])]; rfl
  | cons c text ih =>
    rw [List.cons_append, List.dropWhile_cons, List.dropWhile_cons, ih]
    split <;> rfl

theorem isPrefixOf_append_lineFeed {spelling : List Char} (h : '\n' ∉ spelling)
    (text behind : List Char) :
    spelling.isPrefixOf (text ++ '\n' :: behind) = spelling.isPrefixOf text := by
  induction spelling generalizing text with
  | nil => rw [List.isPrefixOf_nil_left, List.isPrefixOf_nil_left]
  | cons c spelling ih =>
    have hrest : '\n' ∉ spelling := fun hmem => h (List.mem_cons_of_mem c hmem)
    cases text with
    | nil =>
      have hne : (c == '\n') = false := by
        rw [beq_eq_false_iff_ne]
        rintro rfl
        exact h List.mem_cons_self
      rw [List.nil_append, List.isPrefixOf_cons_cons, hne, Bool.false_and]
      rfl
    | cons d text => rw [List.cons_append, List.isPrefixOf_cons_cons, List.isPrefixOf_cons_cons, ih hrest]

theorem leadingSymbol?_append_lineFeed (text behind : List Char) :
    leadingSymbol? (text ++ '\n' :: behind) = (leadingSymbol? text).map
      fun found => (found.1, found.2.1, found.2.2 ++ '\n' :: behind) := by
  have hplain : ∀ entry ∈ Symbol.spellings, '\n' ∉ entry.1 := by decide
  have hleading : ∀ t : List Char, leadingSymbol? t = (Symbol.spellings.find? fun entry =>
      entry.1.isPrefixOf t).map fun entry => (entry.2, entry.1, t.drop entry.1.length) := fun _ => rfl
  have hfind : ∀ entries : List (List Char × Symbol), (∀ entry ∈ entries, '\n' ∉ entry.1) →
      entries.find? (fun entry => entry.1.isPrefixOf (text ++ '\n' :: behind)) =
        entries.find? fun entry => entry.1.isPrefixOf text := by
    intro entries hentries
    induction entries with
    | nil => rfl
    | cons entry entries ih =>
      have hrest := ih fun other hmem => hentries other (List.mem_cons_of_mem entry hmem)
      have hthis := isPrefixOf_append_lineFeed (hentries entry List.mem_cons_self) text behind
      simp only [List.find?_cons, hthis, hrest]
  rw [hleading, hleading, hfind Symbol.spellings hplain]
  cases hfound : Symbol.spellings.find? fun entry => entry.1.isPrefixOf text with
  | none => rfl
  | some entry =>
    have hstarts := List.find?_some hfound
    have hle : entry.1.length ≤ text.length := (List.isPrefixOf_iff_prefix.1 hstarts).length_le
    simp only [Option.map_some, List.drop_append_of_le_length hle]

theorem first_append_lineFeed (c : Char) (rest behind : List Char) :
    first c (rest ++ '\n' :: behind) = ((first c rest).1, (first c rest).2 ++ '\n' :: behind) := by
  have htake := takeWhile_append_lineFeed (p := (· != '\n')) rfl rest behind
  have hdrop := dropWhile_append_lineFeed (p := (· != '\n')) rfl rest behind
  have hdigit : Char.isDigit '\n' = false := rfl
  have hword : isWordRest '\n' = false := rfl
  have hsymbol := leadingSymbol?_append_lineFeed (c :: rest) behind
  rw [List.cons_append] at hsymbol
  unfold first
  rw [htake, hdrop, takeWhile_append_lineFeed hdigit, dropWhile_append_lineFeed hdigit,
    takeWhile_append_lineFeed hword, dropWhile_append_lineFeed hword, hsymbol]
  split
  · rfl
  split
  · rfl
  split
  · rfl
  split
  · rfl
  split
  · rfl
  split
  · rfl
  cases leadingSymbol? (c :: rest) with
  | none => rfl
  | some found => rfl

theorem all_append_lineFeed (text behind : List Char) :
    all (text ++ '\n' :: behind) = all text ++ .lineFeed :: all behind := by
  fun_induction all text with
  | case1 =>
    rw [List.nil_append, all, List.nil_append]
    rfl
  | case2 c rest ih => rw [List.cons_append, all, first_append_lineFeed, ih, List.cons_append]

theorem all_closedCurly (rest : List Char) :
    all ('}' :: rest) = .lexeme (.symbol .closedCurly) ['}'] :: all rest := by
  have hsymbol : leadingSymbol? ('}' :: rest) = some (.closedCurly, ['}'], rest) := by
    rw [leadingSymbol?]
    rfl
  have hfirst : first '}' rest = (.lexeme (.symbol .closedCurly) ['}'], rest) := by
    unfold first
    rw [hsymbol]
    rfl
  rw [all, hfirst]

end Segment
end ScalarJit
