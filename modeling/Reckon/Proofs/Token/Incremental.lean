import Reckon.Proofs.Token.Window

/-!
# Scanning token by token

A scanner may be asked for tokens one by one before it scans what is left. A step hands out the first of the tokens ahead,
or the ending if there is none, and then there is none again. So what was handed out and what is scanned afterwards are
the tokens of the source, with the ending repeated as often as it was asked for in vain (`take_append_finish`).
-/

namespace Reckon
namespace Scanner

variable {s t : Scanner}

/-- The `eof` that the scanner comes to. -/
def ending (s : Scanner) : Token :=
  .eof (s.here.after s.rest).line (s.here.after s.rest).offset

/-- The next tokens, as many as asked for, with the scanner after them. -/
def take : Nat → Scanner → List Token × Scanner
  | 0, s => ([], s)
  | n + 1, s =>
      let (token, t) := s.token
      let (tokens, u) := take n t
      (token :: tokens, u)

theorem take_succ (s : Scanner) (n : Nat) :
    s.take (n + 1) = (s.token.1 :: (s.token.2.take n).1, (s.token.2.take n).2) := rfl

theorem Follows.refl (hs : 0 < s.here.lineStarts.size) : Follows s s := ⟨hs, rfl, rfl⟩

theorem Follows.ending_eq (h : Follows s t) : t.ending = s.ending := by
  rw [Scanner.ending, h.ending, Scanner.ending]

theorem finish_eq (hs : 0 < s.here.lineStarts.size) :
    s.finish = ⟨s.tokens ++ [s.ending], s.allErrors, (s.here.after s.rest).lineStarts, (s.here.after s.rest).offset⟩ :=
  finishAfter_eq hs []

/-- Scanning goes on from a later place as from the earlier one, but for the tokens handed out on the way. -/
theorem Follows.finish_eq (h : Follows s t) (hs : 0 < s.here.lineStarts.size) :
    t.finish = { s.finish with tokens := t.tokens ++ [s.ending] } := by
  rw [Scanner.finish_eq hs, Scanner.finish_eq h.lines, h.ending_eq, h.errors, h.ending]

/-! ## One token -/

theorem token_spec (hs : 0 < s.here.lineStarts.size) :
    Follows s s.token.2 ∧
      (s.tokens = s.token.1 :: s.token.2.tokens ∨ s.tokens = [] ∧ s.token.1 = s.ending ∧ s.token.2.tokens = []) := by
  cases hnext : s.next? with
  | mk found t =>
      cases found with
      | some token =>
          obtain ⟨htokens, ht⟩ := of_next?_eq_some hs hnext
          have htoken : s.token = (token, t) := by simp only [Scanner.token, hnext]
          rw [htoken]
          exact ⟨ht, .inl htokens⟩
      | none =>
          obtain ⟨htokens, hrest, ht⟩ := of_next?_eq_none hs hnext
          have htoken : s.token = (t.eof, t) := by simp only [Scanner.token, hnext]
          have hending : t.eof = s.ending := by
            rw [← ht.ending_eq, Scanner.ending, hrest]
            rfl
          have hnone : t.tokens = [] := by
            rw [Scanner.tokens, hrest, Piece.cut, Piece.tokens, Piece.collect]
          rw [htoken]
          exact ⟨ht, .inr ⟨htokens, hending, hnone⟩⟩

/-! ## Any number of tokens -/

theorem take_spec (hs : 0 < s.here.lineStarts.size) (n : Nat) :
    Follows s (s.take n).2 ∧ (s.take n).1.length = n ∧
      (s.take n).1 ++ (s.take n).2.tokens = s.tokens ++ List.replicate (n - s.tokens.length) s.ending := by
  induction n generalizing s with
  | zero => exact ⟨.refl hs, rfl, by simp [take]⟩
  | succ n ih =>
      obtain ⟨hfollows, htoken⟩ := token_spec hs
      obtain ⟨hlater, hlength, htokens⟩ := ih hfollows.lines
      rw [hfollows.ending_eq] at htokens
      rw [take_succ]
      refine ⟨hfollows.trans hlater, by rw [List.length_cons, hlength], ?_⟩
      rw [List.cons_append, htokens]
      rcases htoken with hahead | ⟨hnone, hending, hstill⟩
      · rw [hahead, List.length_cons, Nat.add_sub_add_right, List.cons_append]
      · rw [hnone, hstill, hending]
        simp [List.replicate_succ]

end Scanner

/--
Whatever number of tokens is asked for one by one, they and the tokens of the rest are the tokens of the source, of which
`eof` is repeated for each time that it was asked for in vain. The errors and the lines are those of the source.
-/
theorem take_append_finish (source : String) (n : Nat) :
    let taken := (Scanner.ofSource source).take n
    let rest := taken.2.finish
    ∃ ts eof, (scan source).tokens = ts ++ [eof] ∧ eof.kind = .eof ∧ (∀ t ∈ ts, t.kind ≠ .eof) ∧
      taken.1.length = n ∧
      taken.1 ++ rest.tokens =
        (scan source).tokens ++ List.replicate (n + 1 - (scan source).tokens.length) eof ∧
      rest.errors = (scan source).errors ∧ rest.lines = (scan source).lines := by
  intro taken rest
  have hs : 0 < (Scanner.ofSource source).here.lineStarts.size := Nat.one_pos
  obtain ⟨hfollows, hlength, htokens⟩ := Scanner.take_spec hs n
  have hrest : rest = { scan source with tokens := taken.2.tokens ++ [(Scanner.ofSource source).ending] } :=
    hfollows.finish_eq hs
  have hscan : (scan source).tokens = (Scanner.ofSource source).tokens ++ [(Scanner.ofSource source).ending] := by
    rw [scan, Scanner.finish_eq hs]
  have hne : ∀ t ∈ (Scanner.ofSource source).tokens, t.kind ≠ .eof := Piece.tokens_ne_eof (Piece.tiled_cut source.toList)
  refine ⟨_, _, hscan, rfl, hne, hlength, ?_, by rw [hrest], by rw [hrest]⟩
  rw [hrest, hscan, List.length_append, List.length_singleton, Nat.add_sub_add_right]
  dsimp only
  rw [← List.append_assoc, htokens, List.append_assoc, List.append_assoc, ← List.replicate_succ', List.replicate_succ,
    List.singleton_append]

/-- Three tokens are asked for where there is one, with an error and a line break before it. -/
theorem take_append_finish_behind_end :
    ((Scanner.ofSource "@\n(").take 3).1 ++ ((Scanner.ofSource "@\n(").take 3).2.finish.tokens =
      (scan "@\n(").tokens ++ List.replicate 2 (.eof 1 3) ∧
    ((Scanner.ofSource "@\n(").take 3).2.finish.errors = [.lexical 0 ⟨0, 1⟩ .unexpectedCharacter] := by
  have hscan : (scan "@\n(").tokens.length = 2 ∧ (scan "@\n(").tokens.getLast? = some (.eof 1 3) ∧
      (scan "@\n(").errors = [.lexical 0 ⟨0, 1⟩ .unexpectedCharacter] := by
    rw [scan_eq]
    cbv
  obtain ⟨hlength, hlast, herrors⟩ := hscan
  obtain ⟨ts, eof, htokens, -, -, -, htaken, hsame, -⟩ := take_append_finish "@\n(" 3
  rw [htokens, List.getLast?_concat] at hlast
  obtain rfl := Option.some.inj hlast
  rw [hlength] at htaken
  exact ⟨htaken, hsame.trans herrors⟩

end Reckon
