import ScalarJit.Proofs.Token.Lexing

/-! # Line feeds as tokens and as blanks

Whoever asks a lexer may change between two calls whether line feeds are tokens. The other tokens, the
places of all of them and the faults on the way do not depend on it: they are those of the segments
that the calls pass over. -/

namespace ScalarJit
namespace Lexer

def ask : List Bool → Lexer → List Token × List LocatedFault
  | [], _ => ([], [])
  | keepNewlines :: calls, l =>
    let step := l.next keepNewlines
    let (tokens, faults) := ask calls step.lexer
    (step.token :: tokens, step.faults ++ faults)

/-- The calls stop with the first end of file. -/
def AsksToEnd (calls : List Bool) (l : Lexer) : Prop :=
  (l.ask calls).1.findIdx (fun token => decide (token.kind = .endOfFile)) + 1 = calls.length

instance (calls : List Bool) (l : Lexer) : Decidable (l.AsksToEnd calls) :=
  inferInstanceAs (Decidable (_ = _))

def withoutNewlines (tokens : List Token) : List Token :=
  tokens.filter fun token => decide (token.kind ≠ .newline)

section
variable {calls : List Bool} {keepNewlines : Bool} {l : Lexer}

theorem asksToEnd_cons_of_end (h : (l.next keepNewlines).token.kind = .endOfFile) :
    l.AsksToEnd (keepNewlines :: calls) ↔ calls = [] := by
  simp [AsksToEnd, ask, List.findIdx_cons, h]

theorem asksToEnd_cons_of_more (h : (l.next keepNewlines).token.kind ≠ .endOfFile) :
    l.AsksToEnd (keepNewlines :: calls) ↔ (l.next keepNewlines).lexer.AsksToEnd calls := by
  simp [AsksToEnd, ask, List.findIdx_cons, h]

theorem exists_asksToEnd (l : Lexer) (flags : Nat → Bool) :
    ∃ count, l.AsksToEnd ((List.range count).map flags) := by
  induction hlength : l.rest.length using Nat.strong_induction_on generalizing l flags with
  | _ length ih =>
    by_cases hend : (l.next (flags 0)).token.kind = .endOfFile
    · exact ⟨1, (asksToEnd_cons_of_end hend).2 rfl⟩
    · have hshorter := l.length_rest_next_lt (flags 0) hend
      obtain ⟨count, hcount⟩ := ih _ (by omega) (l.next (flags 0)).lexer (fun i => flags (i + 1)) rfl
      refine ⟨count + 1, ?_⟩
      rw [List.range_succ_eq_map, List.map_cons, List.map_map]
      exact (asksToEnd_cons_of_more hend).2 hcount

end

/-! ### Segments without line feeds -/

/-- A segment that is a line feed as a token is none as a blank, and any other is the same token. -/
theorem tokenOf_filter {segment : Segment} {behind : List Char} (h : segment.Meant behind)
    (keepNewlines : Bool) :
    (tokenOf keepNewlines segment).filter (fun kind => decide (kind ≠ .newline)) =
      tokenOf false segment := by
  cases h <;> cases keepNewlines <;> rfl

theorem withoutNewlines_tokensIn {segments : List Segment}
    (hmeant : ∀ segment ∈ segments, ∃ behind, segment.Meant behind) (keepNewlines : Bool)
    (before : List Segment) :
    withoutNewlines (tokensIn keepNewlines before segments) = tokensIn false before segments := by
  induction segments generalizing before with
  | nil => rfl
  | cons segment rest ih =>
    obtain ⟨behind, hsegment⟩ := hmeant segment List.mem_cons_self
    have hrest := ih (fun other hother => hmeant other (List.mem_cons_of_mem _ hother)) (before ++ [segment])
    have hfirst : withoutNewlines (tokensIn keepNewlines before [segment]) =
        tokensIn false before [segment] := by
      have hkind := tokenOf_filter hsegment keepNewlines
      cases htoken : tokenOf keepNewlines segment with
      | none =>
        rw [htoken] at hkind
        rw [tokensIn_singleton_of_none htoken, tokensIn_singleton_of_none hkind.symm]
        rfl
      | some kind =>
        rw [htoken] at hkind
        rw [tokensIn_singleton_of_some htoken]
        by_cases hline : kind = .newline
        · rw [Option.filter_some_neg (by simpa using hline)] at hkind
          rw [tokensIn_singleton_of_none hkind.symm]
          simp [withoutNewlines, hline]
        · rw [Option.filter_some_pos (by simpa using hline)] at hkind
          rw [tokensIn_singleton_of_some hkind.symm]
          simp [withoutNewlines, hline]
    rw [← List.singleton_append, tokensIn_append, tokensIn_append, withoutNewlines, List.filter_append]
    exact congrArg₂ _ hfirst hrest

/-! ### Call after call -/

/-- However the flag changes, the calls give the tokens and faults of the segments that are left. -/
theorem StandsBehind.ask {source : List Char} {done : List Segment} {l : Lexer} {calls : List Bool}
    (h : l.StandsBehind source done) (hend : l.AsksToEnd calls) :
    withoutNewlines (l.ask calls).1 = tokensIn false done l.rest ++ [⟨.endOfFile, .behind source⟩] ∧
      (l.ask calls).2 = faultsIn done l.rest := by
  induction calls generalizing l done with
  | nil => simp [AsksToEnd] at hend
  | cons keepNewlines calls ih =>
    obtain ⟨passed, hstands, hfaults, htoken⟩ := h.answers keepNewlines
    have hrest := h.rest_next hstands
    have hmeant : ∀ segment ∈ passed, ∃ behind, segment.Meant behind := fun segment hsegment =>
      h.meant segment (by rw [hrest]; exact List.mem_append_left _ hsegment)
    have hpassed := withoutNewlines_tokensIn hmeant keepNewlines done
    rw [hrest, tokensIn_append, faultsIn_append, ← hfaults, ← hpassed, Lexer.ask]
    rcases htoken with htoken | ⟨hnil, hnone, htoken⟩
    · have hmore : (l.next keepNewlines).token.kind ≠ .endOfFile := by
        intro hkind
        obtain ⟨segment, hsegment, htoken⟩ := tokenOf_of_mem_tokensIn (htoken ▸ List.mem_singleton_self _)
        obtain ⟨behind, hmeant⟩ := hmeant segment hsegment
        exact hmeant.tokenOf_ne keepNewlines (htoken.trans (congrArg some hkind))
      obtain ⟨htokens, hlater⟩ := ih hstands ((asksToEnd_cons_of_more hmore).1 hend)
      rw [htoken, List.append_assoc, ← htokens, ← hlater]
      exact ⟨List.filter_append (p := fun token : Token => decide (token.kind ≠ .newline)) [_] _, rfl⟩
    · obtain rfl := (asksToEnd_cons_of_end (by rw [htoken])).1 hend
      rw [hnil, hnone, htoken]
      exact ⟨rfl, rfl⟩

/-- The newline mode changes no other token. However the flag changes from call to call, the calls come
to the end of file, and without line feeds their tokens are those of the source, with the same values
and places, and their faults are all faults of the source in order. -/
theorem ask_withoutNewlines (source : List Char) :
    (∀ flags : Nat → Bool, ∃ count, (ofSource source).AsksToEnd ((List.range count).map flags)) ∧
    ∀ calls, (ofSource source).AsksToEnd calls →
      withoutNewlines ((ofSource source).ask calls).1 = withoutNewlines (tokenize source true).1 ∧
      ((ofSource source).ask calls).2 = (tokenize source true).2 := by
  refine ⟨exists_asksToEnd _, fun calls hend => ?_⟩
  have hsource := StandsBehind.ofSource source
  obtain ⟨htokens, hfaults⟩ := hsource.ask hend
  have hall : tokenize source true = _ := hsource.collect true (Nat.lt_succ_self _)
  rw [htokens, hfaults, hall]
  refine ⟨?_, rfl⟩
  rw [← withoutNewlines_tokensIn hsource.meant true]
  simp [withoutNewlines]

theorem ask_withoutNewlines_tabbed :
    let source := "let\t# a\n\n\té x\n\n\t1\n".toList
    let calls := [true, false, true, false, true, false]
    (ofSource source).AsksToEnd calls ∧
      ((ofSource source).ask calls).1 ≠ withoutNewlines ((ofSource source).ask calls).1 ∧
      withoutNewlines ((ofSource source).ask calls).1 = withoutNewlines (tokenize source true).1 ∧
      ((ofSource source).ask calls).2 = (tokenize source true).2 := by
  have hend : (ofSource "let\t# a\n\n\té x\n\n\t1\n".toList).AsksToEnd
      [true, false, true, false, true, false] := by
    decide +kernel
  exact ⟨hend, by decide +kernel, (ask_withoutNewlines _).2 _ hend⟩

end Lexer
end ScalarJit
