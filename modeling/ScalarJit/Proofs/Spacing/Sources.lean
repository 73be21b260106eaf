import ScalarJit.Proofs.Language.Accepted
import ScalarJit.Proofs.Spacing.Alike

/-! # Spacing does not matter

Texts with the same tokens are read as the same program, and the same is said of them. Line feeds inside
brackets do not matter either, as long as there are no errors. -/

namespace ScalarJit
namespace Grammar
namespace Spacing

theorem alike_ofSource {a b : List Char} (ha : (tokenize a true).2 = []) (hb : (tokenize b true).2 = [])
    (h : (tokenize b true).1.map (·.kind) = (tokenize a true).1.map (·.kind)) :
    Alike (.ofSource a) (.ofSource b) := by
  have htidy : ∀ {source : List Char}, (tokenize source true).2 = [] →
      (State.atStart source).lexer.Tidy .newline := by
    intro source hnone
    have hfaults := (tokenize_eq source).2
    exact ⟨⟨hfaults.symm.trans hnone, Segment.proper_all source⟩, fun hend => by cases hend⟩
  have hupcoming : (State.atStart b).upcoming = (State.atStart a).upcoming := by
    rw [(tokenize_eq a).1, (tokenize_eq b).1] at h
    exact congrArg (TokenKind.newline :: ·) h
  have halike : Alike (State.atStart a) (State.atStart b) :=
    ⟨htidy ha, htidy hb, hupcoming, rfl, rfl, rfl, rfl, rfl, rfl⟩
  exact halike.bump

end Spacing

/-- The bound of a whole source is never used up, so that one larger than both does for two. -/
theorem declarations_ofSource {source : List Char} {bound : Nat}
    (h : (State.ofSource source).remaining ≤ bound) :
    declarations bound (.ofSource source) =
      declarations (State.ofSource source).remaining (.ofSource source) :=
  declarations_of_le (placed_ofSource source) (State.length_ahead_le _) h

end Grammar

namespace Program

/-- Two texts with the same tokens read as the same program, and the same is said of both. -/
theorem parse_of_kinds {a b : List Char} (ha : (tokenize a true).2 = []) (hb : (tokenize b true).2 = [])
    (h : (tokenize b true).1.map (·.kind) = (tokenize a true).1.map (·.kind)) :
    (parse b).functions = (parse a).functions ∧ (parse b).externs = (parse a).externs ∧
      (parse b).diagnostics.map Diagnostic.said = (parse a).diagnostics.map Diagnostic.said := by
  let bound := max (Grammar.State.ofSource a).remaining (Grammar.State.ofSource b).remaining
  have halike := Grammar.Spacing.alike_declarations bound (Grammar.Spacing.alike_ofSource ha hb h)
  rw [Grammar.declarations_ofSource (Nat.le_max_left _ _),
    Grammar.declarations_ofSource (Nat.le_max_right _ _)] at halike
  exact ⟨halike.functions, halike.externs, halike.said⟩

/-- What counts of the tokens of a source without errors is all that matters. -/
theorem parse_of_tokens {a b : List Char} (hb : (tokenize b true).2 = [])
    (h : Grammar.tokens b = Grammar.tokens a) (ha : (parse a).errorCount = 0) :
    (parse b).errorCount = 0 ∧ (parse b).functions = (parse a).functions ∧
      (parse b).externs = (parse a).externs := by
  have hdeclares := declares_parse ha
  rw [← h] at hdeclares
  have hstands := Grammar.stands_ofSource hb
  exact hdeclares.complete 0 _ _ hstands hstands.length_le

/-- Of two texts without faults, the same is read and the same is said if they have the same tokens. If
they differ in line feeds inside brackets at most, one is read without errors if the other is, and as
the same program. -/
theorem spacing_parse (a b : List Char) (ha : (tokenize a true).2 = []) (hb : (tokenize b true).2 = []) :
    ((tokenize b true).1.map (·.kind) = (tokenize a true).1.map (·.kind) →
      (parse b).functions = (parse a).functions ∧ (parse b).externs = (parse a).externs ∧
        (parse b).diagnostics.map Diagnostic.said = (parse a).diagnostics.map Diagnostic.said) ∧
    (Grammar.tokens b = Grammar.tokens a →
      ((parse b).errorCount = 0 ↔ (parse a).errorCount = 0) ∧
        ((parse a).errorCount = 0 →
          (parse b).functions = (parse a).functions ∧ (parse b).externs = (parse a).externs)) := by
  constructor
  · intro h
    exact parse_of_kinds ha hb h
  · intro h
    refine ⟨⟨fun he => (parse_of_tokens ha h.symm he).1, fun he => (parse_of_tokens hb h he).1⟩, ?_⟩
    intro he
    exact (parse_of_tokens hb h he).2

def tightText : List Char := "func f(x:Float64)->Float64\x7b\nreturn x+y\n\x7d".toList

def looseText : List Char :=
  "\tfunc  f ( x : Float64 ) -> Float64 \x7b # head\r\n\t\treturn x + y\n  \x7d # end".toList

def flatText : List Char := "func f(x: Float64) \x7b\n f(x + 1)\n\x7d".toList

def brokenText : List Char := "func f(\nx: Float64\n) \x7b\n f(\n\nx +\n1)\n\x7d".toList

theorem spacing_parse_texts :
    (parse looseText).functions = (parse tightText).functions ∧
      (parse looseText).diagnostics.map Diagnostic.said =
        [(.error, "Variable y is not defined")] ∧
      (tokenize brokenText true).1.map (·.kind) ≠ (tokenize flatText true).1.map (·.kind) ∧
      (parse brokenText).errorCount = 0 ∧ (parse brokenText).functions = (parse flatText).functions := by
  have htight := (spacing_parse tightText looseText (by decide +kernel) (by decide +kernel)).1
    (by decide +kernel)
  have hflat := (spacing_parse flatText brokenText (by decide +kernel) (by decide +kernel)).2
    (by decide +kernel)
  have hnone : (parse flatText).errorCount = 0 := by decide +kernel
  have hsaid : (parse tightText).diagnostics.map Diagnostic.said =
    [(.error, "Variable y is not defined")] := by decide +kernel
  exact ⟨htight.1, htight.2.2.trans hsaid, by decide +kernel, hflat.1.2 hnone, (hflat.2 hnone).1⟩

end Program
end ScalarJit
