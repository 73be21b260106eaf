import ScalarJit.Proofs.Grammar.Progress
import ScalarJit.Proofs.Language.CompleteDeclarations

/-! # Accepted sources

Every fault of a source is reported as an error on the way to its end. So a source without errors has
no faults, and reads as the rules of the language say. -/

namespace ScalarJit
namespace Grammar

theorem errorCount_faults (source : List Char) (faults : List LocatedFault) :
    Diagnostic.errorCount (faults.map (·.diagnostic source)) = faults.length := by
  induction faults with
  | nil => rfl
  | cons f faults ih =>
    rw [List.map_cons, Diagnostic.errorCount, List.countP_cons_of_pos (by rfl), List.length_cons, ← ih]
    rfl

def State.faults (s : State) : List LocatedFault :=
  Lexer.faultsOf s.lexer.rest s.lexer.position s.lexer.lineStarted

/-- Errors reported and faults that are still to come. -/
def State.due (s : State) : Nat := s.errors + s.faults.length

theorem due_bump (s : State) : s.bump.due = s.due := by
  have hfaults : s.faults = (s.lexer.next (s.brackets == 0)).faults ++ s.bump.faults :=
    Lexer.faultsOf_scan (s.brackets == 0) s.lexer.rest s.lexer.position s.lexer.lineStarted
  have herrors : s.bump.errors = s.errors + (s.lexer.next (s.brackets == 0)).faults.length := by
    rw [← errorCount_faults s.source, ← State.errors_add]
    rfl
  rw [State.due, State.due, herrors, hfaults, List.length_append, Nat.add_assoc]

theorem motion_due : Motion fun s t => s.due ≤ t.due where
  refl s := Nat.le_refl _
  trans h h' := Nat.le_trans h h'
  bump s := Nat.le_of_eq (due_bump s).symm
  brackets s _ := Nat.le_refl _
  inside h := h
  report s p := Nat.add_le_add_right (Nat.le_of_lt (s.errors_report p)) _
  openBlock s := Nat.le_refl _
  addStatement s _ _ := Nat.le_refl _
  closeBlock s _ := Nat.le_refl _
  use s _ := Nat.le_refl _
  declare {s u v _ _ _ _} _ _ h _ h' := by
    rw [due_bump, due_bump] at h
    rw [due_bump] at h'
    exact Nat.le_trans h h'

end Grammar

namespace Program

theorem faults_le_errorCount (source : List Char) :
    (tokenize source true).2.length ≤ (parse source).errorCount := by
  have hplaced := Grammar.placed_ofSource source
  have hbound := (Grammar.State.ofSource source).length_ahead_le
  have hrest := (Grammar.passes_declarations _ hplaced).placed.ended
    (Grammar.end_declarations hplaced hbound)
  have hstart : (Grammar.State.ofSource source).due = (tokenize source true).2.length := by
    have hfaults := (tokenize_eq source).2
    have hdue := Grammar.due_bump (Grammar.State.atStart source)
    exact hdue.trans ((Nat.zero_add _).trans (congrArg List.length hfaults.symm))
  have hend : (Grammar.declarations (Grammar.State.ofSource source).remaining
      (.ofSource source)).due = (parse source).errorCount := by
    rw [Grammar.State.due, Grammar.State.faults, hrest]
    rfl
  have hdue := Grammar.motion_due.declarations (fun _ _ _ => Nat.le_refl _)
    (Grammar.State.ofSource source).remaining (.ofSource source)
  rwa [hstart, hend] at hdue

theorem faultless_of_errorCount {source : List Char} (h : (parse source).errorCount = 0) :
    (tokenize source true).2 = [] := by
  have hle := faults_le_errorCount source
  exact List.length_eq_zero_iff.1 (by omega)

/-- A source without errors is a program of the language, and reads as this program. -/
theorem declares_parse {source : List Char} (h : (parse source).errorCount = 0) :
    Grammar.Declares [] [] (Grammar.tokens source) (parse source).functions (parse source).externs := by
  have hstart := Grammar.stands_ofSource (faultless_of_errorCount h)
  exact Grammar.read_declarations _ _ _ _ hstart hstart.length_le h

end Program
end ScalarJit
