import Reckon.Proofs.Token.Window

/-!
# What stands apart

Outside strings no token goes on over a blank or a parenthesis, so a token stays what it is when one of them and anything
else come after it. A line break separates comments as well: a source with a line break outside its strings is scanned as
the two sources before and behind it (`scan_append_newline`).
-/

namespace Reckon

open Text Piece

/-! ## Blanks and parentheses -/

/-- Outside strings, the character is in no token but the one it is by itself, and in no mark of a comment. -/
structure Apart (c : Char) : Prop where
  lexeme : ∀ kind literal text, Lexeme kind literal text → kind.initial ≠ .quote → c ∈ text → text = [c]
  comment : c ≠ '/'

section
variable {kind : Kind} {literal : Option Literal} {text rest more cs : List Char} {c : Char}

theorem apart_of_classes (hd : c.isDigit = false) (hw : continuesWord c = false) (hmarks : c ∉ ['.', '=', '/'])
    (hj : ∀ kind, symbol? c = some kind → withEqual? kind = none) : Apart c where
  lexeme := by
    intro kind literal text h hk hmem
    have hdigits {cs : List Char} (hcs : Digits cs) : c ∉ cs := by
      intro hmem
      rw [hcs.isDigit c hmem] at hd
      cases hd
    cases hi : kind.initial with
    | quote => exact absurd hi hk
    | digit =>
        obtain ⟨-, ⟨hcs, -⟩ | ⟨whole, fraction, hwhole, hfraction, rfl, -⟩⟩ := h.of_digit hi
        · exact absurd hmem (hdigits hcs)
        · simp_all
    | letter =>
        obtain ⟨-, -, hletters⟩ := h.of_letter hi
        rw [hletters c hmem] at hw
        cases hw
    | symbol =>
        obtain ⟨-, ⟨d, rfl, -⟩ | ⟨d, base, rfl, hc, hjoined⟩⟩ := h.of_symbol hi
        · rw [List.mem_singleton.mp hmem]
        · obtain rfl : c = d := by simp_all
          rw [hj base hc] at hjoined
          cases hjoined
    | space => exact absurd hi h.initial_ne.1
    | nothing => exact absurd hi h.initial_ne.2
  comment := by simp_all

theorem apart_of_isSpace (hc : isSpace c) : Apart c := by
  simp only [isSpace_iff, List.mem_cons, List.not_mem_nil, or_false] at hc
  rcases hc with rfl | rfl | rfl | rfl <;>
    exact apart_of_classes rfl rfl (by decide) (by simp [symbol?])

theorem apart_leftParen : Apart '(' :=
  apart_of_classes rfl rfl (by decide) (by simp [symbol?, withEqual?])

theorem apart_rightParen : Apart ')' :=
  apart_of_classes rfl rfl (by decide) (by simp [symbol?, withEqual?])

/-- What begins a text and does not have the character in it ends before the character comes. -/
theorem prefix_of_append (hcs : c ∉ cs) (h : cs <+: text ++ c :: more) : cs <+: text := by
  obtain ⟨post, h⟩ := h
  rcases List.append_eq_append_iff.mp h with ⟨middle, rfl, -⟩ | ⟨middle, rfl, hmiddle⟩
  · exact List.prefix_append cs middle
  · cases middle with
    | nil => simp
    | cons d middle =>
        obtain ⟨rfl, -⟩ := List.cons.inj hmiddle
        exact absurd (by simp) hcs

theorem Longest.append_apart (ht : Lexeme kind literal text) (h : Longest text rest) (hc : Apart c) :
    Longest text (rest ++ c :: more) := by
  by_cases hk : kind.initial = .quote
  · obtain ⟨body, hb, rfl, -, -⟩ := ht.of_quote hk
    exact longest_string hb
  · intro kind' literal' other ho hp
    -- the other token begins with the same character, so that it is no string either
    obtain ⟨d, ds, rfl, hd⟩ := ht.initial_eq
    have hi : kind'.initial = kind.initial := (ho.initial_of_prefix hp).trans hd
    by_cases hmem : c ∈ other
    · rw [hc.lexeme _ _ _ ho (hi ▸ hk) hmem]
      simp
    · rw [← List.append_assoc] at hp
      exact h _ _ _ ho (prefix_of_append hmem hp)

namespace Piece

theorem First.append_apart (h : First ⟨text, .token kind literal⟩ rest) (hc : Apart c) :
    First ⟨text, .token kind literal⟩ (rest ++ c :: more) := by
  cases h with
  | token ht hl hs =>
      refine .token ht (hl.append_apart ht hc) fun hp => hs ?_
      rw [← List.append_assoc] at hp
      exact prefix_of_append (by simp [hc.comment]) hp

/-- With something in between, no piece notices the character. -/
theorem First.append_apart_of_ne_nil {p : Piece} (h : First p cs) (hcs : cs ≠ []) (hc : Apart c) :
    First p (cs ++ c :: more) := by
  obtain ⟨d, ds, rfl⟩ := List.exists_cons_of_ne_nil hcs
  cases h with
  | blank hspace => exact .blank hspace
  | comment hb hr => exact .comment hb hr
  | token ht hl hs => exact (First.token ht hl hs).append_apart hc
  | unexpected hd => exact .unexpected hd

/-- What begins with the character may come after pieces in a row if it may come after the last one of them. -/
theorem Tiled.append_apart {ps qs : List Piece} (hps : Tiled ps) (hqs : Tiled qs) (hc : Apart c)
    (htexts : texts qs = c :: more) (hlast : ∀ p ∈ ps.getLast?, First p (c :: more)) : Tiled (ps ++ qs) := by
  induction hps with
  | nil => exact hqs
  | @cons p ps hp hps ih =>
      cases ps with
      | nil => exact .cons (htexts ▸ hlast p rfl) hqs
      | cons q ps =>
          have hne : texts (q :: ps) ≠ [] := fun hnil => by cases hps.eq_nil hnil
          have hrest : First p (texts (q :: ps ++ qs)) := by
            rw [texts_append, htexts]
            exact hp.append_apart_of_ne_nil hne hc
          exact .cons hrest (ih hlast)

end Piece

end

/-! ## Line breaks -/

namespace Text

theorem byteLength_append_newline (cs ds : List Char) :
    byteLength (cs ++ '\n' :: ds) = byteLength ds + (byteLength cs + 1) := by
  have hsize : '\n'.utf8Size = 1 := rfl
  rw [byteLength_append, byteLength_cons, hsize]
  omega

theorem lineBreaks_append_newline (cs ds : List Char) :
    lineBreaks (cs ++ '\n' :: ds) = lineBreaks ds + (lineBreaks cs + 1) := by
  rw [lineBreaks_append, lineBreaks, lineBreaks, lineBreaks, List.count_cons_self]
  omega

theorem breakEnds_add (start bytes : Nat) (cs : List Char) :
    breakEnds (start + bytes) cs = (breakEnds start cs).map (· + bytes) := by
  induction cs generalizing start with
  | nil => rfl
  | cons c cs ih =>
      have := ih (start + c.utf8Size)
      simp only [breakEnds, Nat.add_right_comm start bytes, this]
      split <;> rfl

theorem breakEnds_append (start : Nat) (as bs : List Char) :
    breakEnds start (as ++ bs) = breakEnds start as ++ breakEnds (start + byteLength as) bs := by
  induction as generalizing start with
  | nil => rfl
  | cons c as ih =>
      simp only [List.cons_append, breakEnds, ih, byteLength_cons, Nat.add_assoc]
      split <;> rfl

theorem lineStarts_append_newline (cs ds : List Char) :
    Text.lineStarts (cs ++ '\n' :: ds) =
      Text.lineStarts cs ++ (Text.lineStarts ds).map (· + (byteLength cs + 1)) := by
  have hsize : '\n'.utf8Size = 1 := rfl
  have hmoved := breakEnds_add 0 (byteLength cs + 1) ds
  rw [Nat.zero_add] at hmoved
  simp [Text.lineStarts, breakEnds_append, breakEnds, hsize, hmoved]

end Text

theorem LineTable.ofText_append_newline (cs ds : List Char) :
    ofText (cs ++ '\n' :: ds) =
      ⟨(ofText cs).starts ++ (ofText ds).starts.map (· + (byteLength cs + 1)), byteLength cs + 1 + (ofText ds).length⟩ := by
  rw [ofText, byteLength_append_newline, lineStarts_append_newline, Nat.add_comm (byteLength ds)]
  simp [ofText]

/-- The error when the given numbers of bytes and of lines come before its source. -/
def CompileError.moved (bytes lines : Nat) (e : CompileError) : CompileError :=
  { e with line := e.line + lines, span := e.span.moved bytes }

namespace Piece

def newline : Piece := ⟨['\n'], .blank⟩

variable {p : Piece} {ps qs : List Piece} {cs : List Char}

theorem First.newline {more : List Char} (h : First p []) (hp : p.content ≠ .fault .unterminatedString) :
    First p ('\n' :: more) := by
  cases h with
  | blank hc => exact .blank hc
  | comment hb hr => exact .comment hb (by simp [RunEnds])
  | token ht hl hs => exact (First.token ht hl hs).append_apart (apart_of_isSpace rfl)
  | unterminated hb => exact absurd rfl hp
  | unexpected hc => exact .unexpected hc

theorem Tiled.append_newline (hps : Tiled ps) (hqs : Tiled qs)
    (hp : ∀ p ∈ ps, p.content ≠ .fault .unterminatedString) : Tiled (ps ++ newline :: qs) := by
  refine hps.append_apart (.cons (.blank rfl) hqs) (apart_of_isSpace rfl) rfl fun p hlast => ?_
  obtain ⟨front, rfl⟩ := List.getLast?_eq_some_iff.mp hlast
  exact hps.first.newline (hp p (by simp))

theorem cut_append_newline (hp : ∀ p ∈ cut cs, p.content ≠ .fault .unterminatedString) (ds : List Char) :
    cut (cs ++ '\n' :: ds) = cut cs ++ newline :: cut ds := by
  refine cut_eq_iff.mpr ⟨?_, (tiled_cut cs).append_newline (tiled_cut ds) hp⟩
  rw [texts_append, texts_cons, texts_cut, texts_cut]
  rfl

theorem errors_moved (bytes lines offset line : Nat) (ps : List Piece) :
    errors (offset + bytes) (line + lines) ps = (errors offset line ps).map (·.moved bytes lines) := by
  refine collect_moved fun p offset line => ?_
  obtain ⟨text, content⟩ := p
  cases content <;> simp [error?, CompileError.lexical, CompileError.moved, Span.moved, Nat.add_right_comm]

/-- What is found behind a line break is what is found without anything before it, moved behind the line break. -/
theorem collect_append_newline {α : Type} {f : Piece → Nat → Nat → Option α} {g : Nat → Nat → α → α}
    (hf : ∀ offset line, f newline offset line = none)
    (hg : ∀ bytes lines, collect f (0 + bytes) (0 + lines) qs = (collect f 0 0 qs).map (g bytes lines)) :
    collect f 0 0 (ps ++ newline :: qs) =
      collect f 0 0 ps ++ (collect f 0 0 qs).map (g (byteLength (texts ps) + 1) (lineBreaks (texts ps) + 1)) := by
  have hsize : byteLength newline.text = 1 := rfl
  have hbreaks : lineBreaks newline.text = 1 := rfl
  rw [← hg]
  simp [collect_append, collect, hf, hsize, hbreaks]

theorem tokens_append_newline : tokens 0 0 (ps ++ newline :: qs) =
    tokens 0 0 ps ++ (tokens 0 0 qs).map (·.moved (byteLength (texts ps) + 1) (lineBreaks (texts ps) + 1)) :=
  collect_append_newline (fun _ _ => rfl) fun bytes lines => tokens_moved bytes lines 0 0 qs

theorem errors_append_newline : errors 0 0 (ps ++ newline :: qs) =
    errors 0 0 ps ++ (errors 0 0 qs).map (·.moved (byteLength (texts ps) + 1) (lineBreaks (texts ps) + 1)) :=
  collect_append_newline (fun _ _ => rfl) fun bytes lines => errors_moved bytes lines 0 0 qs

end Piece

/-! ## Sources -/

theorem content_ne_unterminated {source : String} (h : ∀ e ∈ (scan source).errors, e.fault ≠ .unterminatedString) :
    ∀ p ∈ cut source.toList, p.content ≠ .fault .unterminatedString := by
  intro p hp hc
  obtain ⟨before, after, hcut⟩ := List.append_of_mem hp
  refine h (.lexical (lineBreaks (texts before) + lineBreaks p.text)
    ⟨byteLength (texts before), byteLength (texts before) + byteLength p.text⟩ .unterminatedString) ?_ rfl
  simp [scan_eq, hcut, Piece.errors, collect_append, collect, error?, hc]

/--
A source in two parts, with a line break between them, has the tokens, the errors and the lines of the first part and,
moved behind the line break, those of the second one. Only a string that the first part leaves open could go on.
-/
theorem scan_append_newline {s t : String} (h : ∀ e ∈ (scan s).errors, e.fault ≠ .unterminatedString) :
    let bytes := byteLength s.toList + 1
    let lines := (scan s).lines.size
    scan (s ++ "\n" ++ t) =
      { tokens := (scan s).tokens.dropLast ++ (scan t).tokens.map (·.moved bytes lines)
        errors := (scan s).errors ++ (scan t).errors.map (·.moved bytes lines)
        lines := ⟨(scan s).lines.starts ++ (scan t).lines.starts.map (· + bytes), bytes + (scan t).lines.length⟩ } := by
  intro bytes lines
  have htext : (s ++ "\n" ++ t).toList = s.toList ++ '\n' :: t.toList := by simp
  have hcut := cut_append_newline (content_ne_unterminated h) t.toList
  have hlines : lineBreaks s.toList + 1 = lines := by
    simp [lines, scan_eq, LineTable.size, LineTable.ofText, Text.lineStarts, length_breakEnds]
  rw [scan_eq, scan_eq, scan_eq, htext, hcut, tokens_append_newline, errors_append_newline, texts_cut,
    LineTable.ofText_append_newline, byteLength_append_newline, lineBreaks_append_newline, hlines, List.dropLast_concat,
    List.map_append, List.append_assoc]
  rfl

/-- The first part has an error and ends in a comment, and the second part has a line break in a string. -/
theorem scan_append_newline_comment :
    (∀ e ∈ (scan "a @ // b").errors, e.fault ≠ .unterminatedString) ∧
      scan ("a @ // b" ++ "\n" ++ "\"c\nd\" #") =
        { tokens := [⟨.identifier, "a", none, 0, ⟨0, 1⟩⟩,
            ⟨.string, "\"c\nd\"", some (.string "c\nd"), 2, ⟨9, 14⟩⟩, .eof 2 16]
          errors := [.lexical 0 ⟨2, 3⟩ .unexpectedCharacter, .lexical 2 ⟨15, 16⟩ .unexpectedCharacter]
          lines := ⟨#[0, 9, 12], 16⟩ } := by
  have hfirst : scan "a @ // b" =
      { tokens := [⟨.identifier, "a", none, 0, ⟨0, 1⟩⟩, .eof 0 8]
        errors := [.lexical 0 ⟨2, 3⟩ .unexpectedCharacter]
        lines := ⟨#[0], 8⟩ } := by
    rw [scan_eq]
    cbv
  have hsecond : scan "\"c\nd\" #" =
      { tokens := [⟨.string, "\"c\nd\"", some (.string "c\nd"), 1, ⟨0, 5⟩⟩, .eof 1 7]
        errors := [.lexical 1 ⟨6, 7⟩ .unexpectedCharacter]
        lines := ⟨#[0, 3], 7⟩ } := by
    rw [scan_eq]
    cbv
  have hclosed : ∀ e ∈ (scan "a @ // b").errors, e.fault ≠ .unterminatedString := by
    simp [hfirst, CompileError.lexical]
  refine ⟨hclosed, (scan_append_newline hclosed).trans ?_⟩
  rw [hfirst, hsecond]
  cbv

end Reckon
