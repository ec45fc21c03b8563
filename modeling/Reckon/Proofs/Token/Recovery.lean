import Reckon.Proofs.Token.Coverage
import Reckon.Proofs.Token.Separation

/-!
# Unexpected characters

A character that can begin nothing is reported and passed over. It acts like as many spaces as it has bytes: with these in
its place, the tokens and the lines of a source stay what they are, and only the report of the character is gone
(`scan_blankedSource`).
-/

namespace Reckon

open Text Piece

/-- The text that begins at a place, with spaces instead of some characters, one for each byte. -/
def Text.blanked (isGone : Nat → Bool) (place : Nat) : List Char → List Char
  | [] => []
  | c :: cs =>
      (if isGone place then List.replicate c.utf8Size ' ' else [c]) ++ blanked isGone (place + c.utf8Size) cs

/-- Is the character at this place reported as unexpected? -/
def unexpectedAt (errors : List CompileError) (place : Nat) : Bool :=
  errors.any fun e => e.fault = .unexpectedCharacter ∧ e.span.start ≤ place ∧ place < e.span.stop

/-- The source with spaces instead of all characters that are reported as unexpected. -/
def blankedSource (source : String) : String :=
  String.ofList (blanked (unexpectedAt (scan source).errors) 0 source.toList)

example : blankedSource "nil é \"é\"" = "nil    \"é\"" := by
  rw [blankedSource, scan_eq]
  cbv

/-! ## Texts -/

namespace Text
variable {isGone : Nat → Bool} {place : Nat} {cs : List Char}

theorem blanked_append (isGone : Nat → Bool) (place : Nat) (as bs : List Char) :
    blanked isGone place (as ++ bs) = blanked isGone place as ++ blanked isGone (place + byteLength as) bs := by
  induction as generalizing place with
  | nil => rfl
  | cons c as ih => simp [blanked, ih, Nat.add_assoc]

theorem blanked_eq_self (h : ∀ i, place ≤ i → i < place + byteLength cs → isGone i = false) :
    blanked isGone place cs = cs := by
  induction cs generalizing place with
  | nil => rfl
  | cons c cs ih =>
      have hsize := c.utf8Size_pos
      rw [byteLength_cons] at h
      have hplace := h place (Nat.le_refl _) (by omega)
      have hrest : blanked isGone (place + c.utf8Size) cs = cs := ih fun i hi hlt => h i (by omega) (by omega)
      simp [blanked, hplace, hrest]

theorem breakEnds_eq_nil (start : Nat) (h : '\n' ∉ cs) : breakEnds start cs = [] := by
  refine List.eq_nil_of_length_eq_zero ?_
  rw [length_breakEnds, lineBreaks]
  exact List.count_eq_zero.mpr h

end Text

/-! ## Pieces -/

namespace Piece

def space : Piece := ⟨[' '], .blank⟩

/-- Spaces in place of an unexpected character. All other pieces stay. -/
def blanks (p : Piece) : List Piece :=
  match p.content with
  | .fault .unexpectedCharacter => List.replicate (byteLength p.text) space
  | _ => [p]

variable {p : Piece} {ps : List Piece} {rest : List Char}

theorem blanks_of_unexpected (h : p.content = .fault .unexpectedCharacter) :
    p.blanks = List.replicate (byteLength p.text) space := by
  simp [blanks, h]

theorem blanks_of_ne (h : p.content ≠ .fault .unexpectedCharacter) : p.blanks = [p] := by
  unfold blanks
  split
  · contradiction
  · rfl

theorem First.of_unexpected (hp : First p rest) (h : p.content = .fault .unexpectedCharacter) :
    ∃ c, p.text = [c] ∧ initial c = .nothing := by
  obtain ⟨text, content⟩ := p
  subst h
  rcases hp.of_fault with ⟨-, hc⟩ | ⟨hfault, -⟩
  · exact hc
  · cases hfault

theorem texts_replicate_space (n : Nat) : texts (List.replicate n space) = List.replicate n ' ' := by
  induction n with
  | zero => rfl
  | succ n ih =>
      rw [List.replicate_succ, texts_cons, ih]
      rfl

theorem newline_not_mem_of_unexpected {c : Char} (h : initial c = .nothing) (n : Nat) :
    '\n' ∉ [c] ∧ '\n' ∉ List.replicate n ' ' := by
  constructor
  · rw [List.mem_singleton]
    rintro rfl
    cases h
  · simp [List.mem_replicate]

theorem byteLength_replicate_space (n : Nat) : byteLength (List.replicate n ' ') = n := by
  induction n with
  | zero => rfl
  | succ n ih =>
      have hsize : ' '.utf8Size = 1 := rfl
      rw [List.replicate_succ, byteLength_cons, ih, hsize, Nat.add_comm]

/-- The spaces are as long as the character was, and like it no line breaks. -/
theorem First.texts_blanks (hp : First p rest) : byteLength (texts p.blanks) = byteLength p.text ∧
    ∀ start, breakEnds start (texts p.blanks) = breakEnds start p.text := by
  by_cases h : p.content = .fault .unexpectedCharacter
  · obtain ⟨c, htext, hc⟩ := hp.of_unexpected h
    obtain ⟨hchar, hspaces⟩ := newline_not_mem_of_unexpected hc (byteLength p.text)
    rw [blanks_of_unexpected h, texts_replicate_space]
    refine ⟨byteLength_replicate_space _, fun start => ?_⟩
    rw [breakEnds_eq_nil start hspaces, breakEnds_eq_nil start (htext ▸ hchar)]
  · simp [blanks_of_ne h]

theorem First.lineBreaks_blanks (hp : First p rest) : lineBreaks (texts p.blanks) = lineBreaks p.text := by
  rw [← length_breakEnds 0, hp.texts_blanks.2, length_breakEnds]

theorem Tiled.texts_blanks (hps : Tiled ps) (start : Nat) :
    byteLength (texts (ps.flatMap blanks)) = byteLength (texts ps) ∧
      breakEnds start (texts (ps.flatMap blanks)) = breakEnds start (texts ps) := by
  induction hps generalizing start with
  | nil => exact ⟨rfl, rfl⟩
  | @cons p ps hp hps ih =>
      obtain ⟨hlength, hbreaks⟩ := hp.texts_blanks
      obtain ⟨hlengths, hrest⟩ := ih (start + byteLength p.text)
      rw [List.flatMap_cons, texts_append, texts_cons, byteLength_append, byteLength_append, hlength, hlengths]
      refine ⟨rfl, ?_⟩
      rw [breakEnds_append, breakEnds_append, hlength, hbreaks, hrest]

/-! ## The pieces of the new source -/

/-- Pieces stay as they are up to the first unexpected character. -/
theorem exists_unexpected (ps : List Piece) : ps.flatMap blanks = ps ∨
    ∃ before p after, ps = before ++ p :: after ∧ before.flatMap blanks = before ∧
      p.content = .fault .unexpectedCharacter := by
  induction ps with
  | nil => exact .inl rfl
  | cons p ps ih =>
      by_cases h : p.content = .fault .unexpectedCharacter
      · exact .inr ⟨[], p, ps, rfl, rfl, h⟩
      · have hp := blanks_of_ne h
        rcases ih with heq | ⟨before, q, after, rfl, hbefore, hq⟩
        · exact .inl (by rw [List.flatMap_cons, hp, heq, List.singleton_append])
        · exact .inr ⟨p :: before, q, after, rfl, by rw [List.flatMap_cons, hp, hbefore, List.singleton_append], hq⟩

/-- A piece that may stand before an unexpected character may stand before a space. -/
theorem First.space {c : Char} {more more' : List Char} (hp : First p (c :: more)) (hc : initial c = .nothing)
    (h : p.content ≠ .fault .unexpectedCharacter) : First p (' ' :: more') := by
  generalize hr : c :: more = whole at hp
  cases hp with
  | blank hspace => exact .blank hspace
  | comment hb hends =>
      -- only a line break ends a comment, and it is expected
      have hbreak := hends c (by rw [← hr]; rfl)
      obtain rfl : c = '\n' := by simpa using hbreak
      cases hc
  | token ht hl hs =>
      subst hr
      have hshort : First ⟨_, .token _ _⟩ [] := @First.of_append _ [] (c :: more) (.token ht hl hs)
      exact hshort.append_apart (apart_of_isSpace rfl)
  | unterminated hb => cases hr
  | unexpected hc' => exact absurd rfl h

theorem First.blanks (hp : First p (texts ps)) (hps : Tiled ps) (h : p.content ≠ .fault .unexpectedCharacter) :
    First p (texts (ps.flatMap Piece.blanks)) := by
  rcases exists_unexpected ps with heq | ⟨before, q, after, rfl, hbefore, hq⟩
  · rwa [heq]
  · obtain ⟨c, htext, hc⟩ := hps.first.of_unexpected hq
    obtain ⟨n, hsize⟩ := Nat.exists_eq_succ_of_ne_zero (Nat.ne_of_gt c.utf8Size_pos)
    have hspaces : texts q.blanks = ' ' :: List.replicate n ' ' := by
      rw [blanks_of_unexpected hq, texts_replicate_space, htext, byteLength_cons, byteLength_nil, hsize]
      rfl
    rw [List.flatMap_append, List.flatMap_cons, hbefore, texts_append, texts_append, hspaces, List.cons_append]
    rw [texts_append, texts_cons, htext] at hp
    by_cases hnil : texts before = []
    · rw [hnil] at hp ⊢
      exact First.space hp hc h
    · exact hp.of_append.append_apart_of_ne_nil hnil (apart_of_isSpace rfl)

theorem tiled_replicate_space {qs : List Piece} (hqs : Tiled qs) (n : Nat) : Tiled (List.replicate n space ++ qs) := by
  induction n with
  | zero => exact hqs
  | succ n ih => exact .cons (.blank rfl) ih

theorem Tiled.blanks (hps : Tiled ps) : Tiled (ps.flatMap Piece.blanks) := by
  induction hps with
  | nil => exact .nil
  | @cons p ps hp hps ih =>
      rw [List.flatMap_cons]
      by_cases h : p.content = .fault .unexpectedCharacter
      · rw [blanks_of_unexpected h]
        exact tiled_replicate_space ih _
      · rw [blanks_of_ne h]
        exact .cons (hp.blanks hps h) ih

/-! ## What is found in it -/

/-- Nothing is found in spaces, and all else is found where it was. -/
theorem Tiled.collect_blanks {α : Type} {f g : Piece → Nat → Nat → Option α} {offset line : Nat} (hps : Tiled ps)
    (hspace : ∀ offset line, f Piece.space offset line = none)
    (hgone : ∀ p : Piece, p.content = .fault .unexpectedCharacter → ∀ offset line, g p offset line = none)
    (hkept : ∀ p : Piece, p.content ≠ .fault .unexpectedCharacter → f p = g p) :
    collect f offset line (ps.flatMap Piece.blanks) = collect g offset line ps := by
  have hspaces (n offset line : Nat) : collect f offset line (List.replicate n Piece.space) = [] := by
    induction n generalizing offset line with
    | zero => rfl
    | succ n ih => rw [List.replicate_succ, collect, hspace, ih, Option.toList_none, List.nil_append]
  induction hps generalizing offset line with
  | nil => rfl
  | @cons p ps hp hps ih =>
      rw [List.flatMap_cons, collect_append, hp.texts_blanks.1, hp.lineBreaks_blanks, ih, collect]
      congr 1
      by_cases h : p.content = .fault .unexpectedCharacter
      · rw [blanks_of_unexpected h, hspaces, hgone p h, Option.toList_none]
      · rw [blanks_of_ne h, collect, collect, List.append_nil, hkept p h]

theorem Tiled.tokens_blanks {offset line : Nat} (hps : Tiled ps) :
    tokens offset line (ps.flatMap Piece.blanks) = tokens offset line ps := by
  refine hps.collect_blanks (fun _ _ => rfl) (fun p h offset line => ?_) (fun _ _ => rfl)
  rw [token?, h]

theorem collect_filter {α : Type} (f : Piece → Nat → Nat → Option α) (q : α → Bool) (offset line : Nat) (ps : List Piece) :
    (collect f offset line ps).filter q = collect (fun p offset line => (f p offset line).filter q) offset line ps := by
  induction ps generalizing offset line with
  | nil => rfl
  | cons p ps ih =>
      rw [collect, collect, List.filter_append, ih]
      cases h : f p offset line with
      | none => rfl
      | some a => cases hq : q a <;> simp [Option.filter, hq]

theorem Tiled.errors_blanks {offset line : Nat} (hps : Tiled ps) : errors offset line (ps.flatMap Piece.blanks) =
    (errors offset line ps).filter (·.fault ≠ .unexpectedCharacter) := by
  rw [errors, collect_filter]
  refine hps.collect_blanks (fun _ _ => rfl) (fun p h offset line => ?_) fun p h => ?_
  · simp [error?, h, CompileError.lexical]
  · funext offset line
    cases he : p.error? offset line with
    | none => rfl
    | some e =>
        have hfault : e.fault ≠ .unexpectedCharacter := by
          intro hfault
          exact h (hfault ▸ (of_error?_eq_some he).1)
        simp [Option.filter, hfault]

/-! ## Where the characters are -/

theorem unexpectedAt_append (as bs : List CompileError) (place : Nat) :
    unexpectedAt (as ++ bs) place = (unexpectedAt as place || unexpectedAt bs place) :=
  List.any_append

theorem unexpectedAt_eq_false {errors : List CompileError} {place : Nat}
    (h : ∀ e ∈ errors, e.fault = .unexpectedCharacter → place < e.span.start ∨ e.span.stop ≤ place) :
    unexpectedAt errors place = false := by
  refine List.any_eq_false.mpr fun e he => ?_
  simp only [decide_eq_true_eq, not_and, Nat.not_lt]
  intro hfault hstart
  have := h e he hfault
  omega

/-- Of all places in the pieces, those of unexpected characters are the ones that are reported. -/
theorem Tiled.blanked_texts {isGone : Nat → Bool} {offset line : Nat} (hps : Tiled ps)
    (h : ∀ place, offset ≤ place → isGone place = unexpectedAt (errors offset line ps) place) :
    blanked isGone offset (texts ps) = texts (ps.flatMap Piece.blanks) := by
  induction hps generalizing offset line with
  | nil => rfl
  | @cons p ps hp hps ih =>
      have hsplit (place : Nat) (hplace : offset ≤ place) : isGone place =
          (unexpectedAt (p.error? offset line).toList place ||
            unexpectedAt (errors (offset + byteLength p.text) (line + lineBreaks p.text) ps) place) := by
        rw [h place hplace, ← unexpectedAt_append]
        rfl
      rw [texts_cons, blanked_append, List.flatMap_cons, texts_append,
        @ih (offset + byteLength p.text) (line + lineBreaks p.text) fun place hplace => ?_]
      · congr 1
        by_cases hp' : p.content = .fault .unexpectedCharacter
        · obtain ⟨c, htext, -⟩ := hp.of_unexpected hp'
          have hsize := c.utf8Size_pos
          have hgone : isGone offset = true := by
            rw [hsplit offset (Nat.le_refl _)]
            simp [unexpectedAt, error?, hp', CompileError.lexical, htext, hsize]
          rw [blanks_of_unexpected hp', texts_replicate_space, htext]
          simp [blanked, hgone]
        · have hstays (place : Nat) (hplace : offset ≤ place) (hlt : place < offset + byteLength p.text) :
              isGone place = false := by
            rw [hsplit place hplace, Bool.or_eq_false_iff]
            constructor
            · refine unexpectedAt_eq_false fun e he hfault => ?_
              exact absurd (hfault ▸ (of_error?_eq_some (Option.mem_toList.mp he)).1) hp'
            · refine unexpectedAt_eq_false fun e he _ => .inl ?_
              exact Nat.lt_of_lt_of_le hlt (le_start_of_mem_errors he)
          rw [blanks_of_ne hp', blanked_eq_self hstays]
          simp
      · rw [hsplit place (by omega), unexpectedAt_eq_false, Bool.false_or]
        intro e he _
        rw [(of_error?_eq_some (Option.mem_toList.mp he)).2]
        exact .inr hplace

end Piece

/-! ## Sources -/

theorem toList_blankedSource (source : String) :
    (blankedSource source).toList = texts ((cut source.toList).flatMap Piece.blanks) := by
  have h : ∀ place, 0 ≤ place →
      unexpectedAt (scan source).errors place = unexpectedAt (errors 0 0 (cut source.toList)) place := by
    intro place _
    rw [scan_eq]
  have h := (tiled_cut source.toList).blanked_texts h
  rw [texts_cut] at h
  rw [blankedSource, String.toList_ofList, h]

theorem scan_blankedSource (source : String) :
    scan (blankedSource source) =
      { tokens := (scan source).tokens
        errors := (scan source).errors.filter (·.fault ≠ .unexpectedCharacter)
        lines := (scan source).lines } := by
  have htiled := tiled_cut source.toList
  obtain ⟨hlength, hbreaks⟩ := htiled.texts_blanks 0
  rw [texts_cut] at hlength hbreaks
  have hlines := length_breakEnds 0 (texts ((cut source.toList).flatMap Piece.blanks))
  rw [hbreaks, length_breakEnds] at hlines
  rw [scan_eq, scan_eq, toList_blankedSource, htiled.blanks.cut_texts, htiled.tokens_blanks, htiled.errors_blanks,
    LineTable.ofText, LineTable.ofText, Text.lineStarts, Text.lineStarts, hbreaks, hlength, hlines]

end Reckon
