import Reckon.Proofs.Token.Spans
import Reckon.Proofs.Token.Window

/-!
# Nothing of a source is lost

What is found in a source, its tokens and its errors together, lies there one behind the other, and what is left before,
between and after is blank.
-/

namespace Reckon

open Text Piece

theorem Text.byteLength_pos {cs : List Char} (h : cs ≠ []) : 0 < byteLength cs := by
  obtain ⟨c, cs, rfl⟩ := List.exists_cons_of_ne_nil h
  have := c.utf8Size_pos
  rw [byteLength_cons]
  omega

/-! ## Trivia -/

/-- Blanks and comments, with `rest` after them. A comment goes on to a line break or to the end of the source. -/
inductive Trivia : List Char → List Char → Prop where
  | nil {rest : List Char} : Trivia [] rest
  | blank {c : Char} {cs rest : List Char} (hc : c ∈ [' ', '\r', '\t', '\n']) (hcs : Trivia cs rest) :
      Trivia (c :: cs) rest
  | comment {body cs rest : List Char} (hb : '\n' ∉ body) (hr : RunEnds (· != '\n') (cs ++ rest)) (hcs : Trivia cs rest) :
      Trivia ('/' :: '/' :: (body ++ cs)) rest

theorem Piece.First.trivia {p : Piece} {cs rest : List Char} (h : First p (cs ++ rest)) (hp : p.content = .blank)
    (hcs : Trivia cs rest) : Trivia (p.text ++ cs) rest := by
  generalize hw : cs ++ rest = whole at h
  cases h with
  | blank hc => exact .blank (isSpace_iff.mp hc) hcs
  | comment hb hr => exact .comment hb (hw ▸ hr) hcs
  | token _ _ _ => cases hp
  | unterminated _ => cases hp
  | unexpected _ => cases hp

/-! ## Marks -/

/-- What is found in a source. -/
inductive Mark where
  | token (t : Token)
  | error (e : CompileError)

def Mark.span : Mark → Span
  | .token t => t.span
  | .error e => e.span

/-- The tokens but for `eof`, and the errors, merged by where they begin. -/
def Scan.marks (s : Scan) : List Mark :=
  ((s.tokens.filter (·.kind != .eof)).map .token).merge (s.errors.map .error) fun a b => a.span.start ≤ b.span.start

/-- What lies from `start` up to `stop` before, between and after the spans. -/
def Span.gaps (start stop : Nat) : List Span → List Span
  | [] => [⟨start, stop⟩]
  | s :: ss => ⟨start, s.start⟩ :: gaps s.stop stop ss

namespace Piece

def mark? (p : Piece) (offset line : Nat) : Option Mark :=
  ((p.token? offset line).map .token).or ((p.error? offset line).map .error)

abbrev marks : Nat → Nat → List Piece → List Mark := collect mark?

section
variable {p : Piece} {ps : List Piece} {offset line : Nat}

theorem mark?_eq_none_iff : p.mark? offset line = none ↔ p.content = .blank := by
  obtain ⟨text, content⟩ := p
  cases content <;> simp [mark?, token?, error?]

theorem span_of_mark?_eq_some {m : Mark} (h : p.mark? offset line = some m) :
    m.span = ⟨offset, offset + byteLength p.text⟩ := by
  obtain ⟨text, content⟩ := p
  cases content <;> cases h <;> rfl

theorem merge_cons_left {α : Type} {le : α → α → Bool} {a : α} {as bs : List α} (h : ∀ b ∈ bs, le a b) :
    (a :: as).merge bs le = a :: as.merge bs le := by
  cases bs with
  | nil => simp
  | cons b bs => exact List.cons_merge_cons_pos le as bs (h b List.mem_cons_self)

theorem merge_cons_right {α : Type} {le : α → α → Bool} {b : α} {as bs : List α} (h : ∀ a ∈ as, le a b = false) :
    as.merge (b :: bs) le = b :: as.merge bs le := by
  cases as with
  | nil => simp
  | cons a as => exact List.cons_merge_cons_neg le as bs (by simp [h a List.mem_cons_self])

theorem le_start_of_mem_tokens {t : Token} (h : t ∈ tokens offset line ps) : offset ≤ t.span.start := by
  refine (pairwise_collect fun p offset line t h => ?_).1 t h
  rw [(of_token?_eq_some h).2]

theorem le_start_of_mem_errors {e : CompileError} (h : e ∈ errors offset line ps) : offset ≤ e.span.start := by
  refine (pairwise_collect fun p offset line e h => ?_).1 e h
  rw [(of_error?_eq_some h).2]
  rfl

/-- Tokens and errors that are merged by where they begin come in the order of the pieces they were found as. -/
theorem merge_eq_marks (hne : ∀ p ∈ ps, p.text ≠ []) :
    ((tokens offset line ps).map .token).merge ((errors offset line ps).map .error)
      (fun a b => a.span.start ≤ b.span.start) = marks offset line ps := by
  induction ps generalizing offset line with
  | nil => simp [tokens, errors, marks, collect]
  | cons p ps ih =>
      obtain ⟨text, content⟩ := p
      have hpos : 0 < byteLength text := byteLength_pos (hne _ List.mem_cons_self)
      have hrest := @ih (offset + byteLength text) (line + lineBreaks text) fun q hq => hne q (List.mem_cons_of_mem _ hq)
      simp only [tokens, errors, marks, collect] at hrest ⊢
      cases content with
      | blank => simpa [token?, error?, mark?] using hrest
      | token kind literal =>
          simp only [token?, error?, mark?, Option.toList_some, Option.toList_none, List.nil_append, List.singleton_append,
            List.map_cons, Option.map_some, Option.some_or]
          rw [merge_cons_left, hrest]
          intro m hm
          obtain ⟨e, he, rfl⟩ := List.mem_map.mp hm
          have := le_start_of_mem_errors he
          exact decide_eq_true (show offset ≤ e.span.start by omega)
      | fault fault =>
          simp only [token?, error?, mark?, Option.toList_some, Option.toList_none, List.nil_append, List.singleton_append,
            List.map_cons, Option.map_some, Option.map_none, Option.none_or]
          rw [merge_cons_right, hrest]
          intro m hm
          obtain ⟨t, ht, rfl⟩ := List.mem_map.mp hm
          have := le_start_of_mem_tokens ht
          exact decide_eq_false (show ¬ t.span.start ≤ offset by omega)

end

/-! ## Coverage -/

/-- The text that begins at a place consists of the parts that are marked, with trivia before each and after the last. -/
inductive Covered : Nat → List Mark → List Char → Prop where
  | last {place : Nat} {gap : List Char} (h : Trivia gap []) : Covered place [] gap
  | next {place : Nat} {m : Mark} {ms : List Mark} {gap text rest : List Char} (hgap : Trivia gap (text ++ rest))
      (hm : m.span = ⟨place + byteLength gap, place + byteLength (gap ++ text)⟩)
      (h : Covered (place + byteLength (gap ++ text)) ms rest) : Covered place (m :: ms) (gap ++ text ++ rest)

theorem Covered.of_blank {p : Piece} {place : Nat} {ms : List Mark} {cs : List Char} (hp : First p cs)
    (hb : p.content = .blank) (h : Covered (place + byteLength p.text) ms cs) : Covered place ms (p.text ++ cs) := by
  cases h with
  | last hgap => exact .last (First.trivia (by simpa using hp) hb hgap)
  | @next _ m ms gap text rest hgap hm h =>
      have happ : p.text ++ (gap ++ text ++ rest) = (p.text ++ gap) ++ text ++ rest := by simp
      rw [happ]
      exact .next (First.trivia (by simpa using hp) hb hgap) (by simpa [Nat.add_assoc] using hm)
        (by simpa [Nat.add_assoc] using h)

theorem Tiled.covered {ps : List Piece} {offset line : Nat} (h : Tiled ps) :
    Covered offset (marks offset line ps) (texts ps) := by
  induction h generalizing offset line with
  | nil => exact .last .nil
  | @cons p ps hp hps ih =>
      rw [marks, collect, texts_cons]
      cases hm : p.mark? offset line with
      | none => exact .of_blank hp (mark?_eq_none_iff.mp hm) ih
      | some m => exact .next .nil (by simpa using span_of_mark?_eq_some hm) ih

theorem Covered.trivia_of_mem_gaps {place : Nat} {ms : List Mark} {cs : List Char} {gap : Span}
    (h : Covered place ms cs) (pre : List Char) (hpre : byteLength pre = place)
    (hgap : gap ∈ Span.gaps place (byteLength (pre ++ cs)) (ms.map Mark.span)) :
    Trivia (slice (pre ++ cs) gap.start gap.stop) (slice (pre ++ cs) gap.stop (byteLength (pre ++ cs))) := by
  induction h generalizing pre with
  | @last place cs ht =>
      obtain rfl := List.mem_singleton.mp hgap
      subst hpre
      rw [slice_suffix, slice_end]
      exact ht
  | @next place m ms before text rest ht hm h ih =>
      subst hpre
      rcases List.mem_cons.mp hgap with rfl | hgap
      · have hsplit : pre ++ (before ++ text ++ rest) = pre ++ before ++ (text ++ rest) := by simp
        rw [hm, hsplit]
        dsimp only
        rw [← byteLength_append, slice_suffix, byteLength_append, slice_append]
        exact ht
      · have hsplit : pre ++ (before ++ text ++ rest) = pre ++ (before ++ text) ++ rest := by simp
        rw [hm] at hgap
        rw [hsplit] at hgap ⊢
        exact ih _ (byteLength_append pre _) hgap

end Piece

/-! ## Sources -/

theorem filter_ne_eof_scan (source : String) :
    (scan source).tokens.filter (·.kind != .eof) = Piece.tokens 0 0 (cut source.toList) := by
  have hne : ∀ t ∈ Piece.tokens 0 0 (cut source.toList), (t.kind != .eof) = true := by
    intro t ht
    simpa using tokens_ne_eof (tiled_cut source.toList) t ht
  rw [scan_eq, List.filter_append, List.filter_eq_self.mpr hne]
  simp [Token.eof]

theorem Piece.text_ne_nil_of_mem_cut {cs : List Char} {p : Piece} (h : p ∈ cut cs) : p.text ≠ [] := by
  obtain ⟨before, after, hcut⟩ := List.append_of_mem h
  exact (first_middle hcut).text_ne_nil

theorem scan_marks_eq (source : String) : (scan source).marks = Piece.marks 0 0 (cut source.toList) := by
  have herrors : (scan source).errors = Piece.errors 0 0 (cut source.toList) := by rw [scan_eq]
  rw [Scan.marks, filter_ne_eof_scan, herrors, merge_eq_marks fun p hp => text_ne_nil_of_mem_cut hp]

theorem lexeme_eq_slice {source : String} {t : Token} (h : t ∈ (scan source).tokens) :
    t.lexeme = String.ofList (slice source.toList t.span.start t.span.stop) := by
  rw [scan_eq] at h
  rcases List.mem_append.mp h with h | h
  · obtain ⟨before, text, after, hcs, hspan, hlexeme, -⟩ := matchedIn_of_mem h
    rw [hlexeme, hspan, hcs, slice_append]
  · rw [List.mem_singleton.mp h, Token.eof, slice_end]

theorem pairwise_tokens (source : String) :
    (scan source).tokens.Pairwise fun s t => s.span.stop ≤ t.span.start := by
  have hwithin {t : Token} (h : t ∈ (scan source).tokens) := (within_of_mem_tokens h).stop_le
  rw [scan_eq] at hwithin ⊢
  refine List.pairwise_append.mpr ⟨(pairwise_collect fun p offset line t h => ?_).2, List.pairwise_singleton _ _, ?_⟩
  · rw [(of_token?_eq_some h).2]
  · intro s hs t ht
    rw [List.mem_singleton.mp ht]
    exact hwithin (List.mem_append_left _ hs)

/--
The tokens and errors of a source lie one behind the other in it. They are parts of it, none of them empty, and what is
before, between and after them is trivia.
-/
theorem scan_covers (source : String) :
    (∀ m ∈ (scan source).marks, m.span.start < m.span.stop ∧ m.span.stop ≤ byteLength source.toList ∧
      isBoundary source.toList m.span.start ∧ isBoundary source.toList m.span.stop) ∧
    ((scan source).marks.Pairwise fun a b => a.span.stop ≤ b.span.start) ∧
    (∀ t ∈ (scan source).tokens, t.lexeme = String.ofList (slice source.toList t.span.start t.span.stop)) ∧
    (∀ gap ∈ Span.gaps 0 (byteLength source.toList) ((scan source).marks.map Mark.span),
      Trivia (slice source.toList gap.start gap.stop) (slice source.toList gap.stop (byteLength source.toList))) ∧
    ((scan source).tokens.Pairwise fun s t => s.span.stop ≤ t.span.start) ∧
    ((scan source).errors.Pairwise fun d e => d.span.stop ≤ e.span.start) ∧
    ∃ ts eof, (scan source).tokens = ts ++ [eof] ∧ (∀ t ∈ ts, t.kind ≠ .eof) ∧ eof.kind = .eof ∧
      eof.span = ⟨byteLength source.toList, byteLength source.toList⟩ ∧ eof.lexeme = "" := by
  have htiled := tiled_cut source.toList
  have hcovered : Covered 0 (Piece.marks 0 0 (cut source.toList)) source.toList := by
    have := @Tiled.covered _ 0 0 htiled
    rwa [texts_cut] at this
  rw [scan_marks_eq]
  refine ⟨fun m hm => ?_, (pairwise_collect fun _ _ _ _ => span_of_mark?_eq_some).2, fun t => lexeme_eq_slice,
    fun gap => hcovered.trivia_of_mem_gaps [] rfl, pairwise_tokens source, pairwise_errors source, ?_⟩
  · obtain ⟨before, p, after, hcut, hp⟩ := exists_of_mem_collect hm
    have hspan := span_of_mark?_eq_some hp
    rw [Nat.zero_add] at hspan
    have hwithin : m.span.Within source.toList := ⟨_, _, _, texts_middle hcut, hspan⟩
    refine ⟨?_, hwithin.stop_le, hwithin.isBoundary_start, hwithin.isBoundary_stop⟩
    rw [hspan]
    exact Nat.lt_add_of_pos_right (byteLength_pos (first_middle hcut).text_ne_nil)
  · rw [scan_eq]
    exact ⟨_, _, rfl, tokens_ne_eof htiled, rfl, rfl, rfl⟩

/-- A comment lies between the first line and the error on the second one. -/
theorem scan_covers_comment :
    (scan "a // b\n@c").marks.map Mark.span = [⟨0, 1⟩, ⟨7, 8⟩, ⟨8, 9⟩] ∧ Trivia " // b\n".toList "@c".toList := by
  have hmarks : (scan "a // b\n@c").marks.map Mark.span = [⟨0, 1⟩, ⟨7, 8⟩, ⟨8, 9⟩] := by
    rw [scan_marks_eq]
    cbv
  have hgap : ⟨1, 7⟩ ∈ Span.gaps 0 (byteLength "a // b\n@c".toList) ((scan "a // b\n@c").marks.map Mark.span) := by
    rw [hmarks]
    decide +kernel
  exact ⟨hmarks, (scan_covers "a // b\n@c").2.2.2.1 _ hgap⟩

end Reckon
