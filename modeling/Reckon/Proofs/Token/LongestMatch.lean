import Reckon.Proofs.Token.First

/-!
# Scanning is longest match

Each token of a source is the longest one that begins where it begins, and nothing lies between the tokens but blanks,
comments and what is reported as an error.
-/

namespace Reckon

open Text Piece

/-- The token stands in the text, with its span, and is the longest one that begins there. -/
def Token.MatchedIn (t : Token) (cs : List Char) : Prop :=
  ∃ before text after, cs = before ++ text ++ after ∧
    t.span = ⟨byteLength before, byteLength before + byteLength text⟩ ∧ t.lexeme = String.ofList text ∧
    Lexeme t.kind t.literal text ∧ Longest text after ∧ ∀ word, t.kind = .keyword word ↔ text = word.text.toList

/-- No blank, token or comment begins with the character. -/
def BeginsNothing (c : Char) : Prop :=
  c ∉ [' ', '\r', '\t', '\n'] ∧ c ≠ '/' ∧ ∀ kind literal text, Lexeme kind literal text → text.head? ≠ some c

/-- The error covers a character that begins nothing, or a string that is never closed. -/
def CompileError.StandsIn (e : CompileError) (cs : List Char) : Prop :=
  ∃ before text after, cs = before ++ text ++ after ∧
    e = .lexical e.line ⟨byteLength before, byteLength before + byteLength text⟩ e.fault ∧
    ((e.fault = .unexpectedCharacter ∧ ∃ c, text = [c] ∧ BeginsNothing c) ∨
      (e.fault = .unterminatedString ∧ ∃ body, text = '"' :: body ∧ '"' ∉ body ∧ after = []))

theorem Lexeme.keyword_iff {kind : Kind} {literal : Option Literal} {text : List Char} (h : Lexeme kind literal text)
    (word : Keyword) : kind = .keyword word ↔ text = word.text.toList := by
  constructor
  · rintro rfl
    obtain ⟨hk, -, -⟩ := h.of_letter rfl
    cases hw : Keyword.ofLetters? text with
    | none => simp [wordKind, hw] at hk
    | some found =>
        simp only [wordKind, hw, Kind.keyword.injEq] at hk
        rw [hk, Keyword.text_of_ofLetters? hw]
  · rintro rfl
    exact (h.unique (.reserved word)).1

theorem beginsNothing {c : Char} (h : initial c = .nothing) : BeginsNothing c := by
  refine ⟨fun hc => ?_, ?_, fun kind literal text ht hc => ?_⟩
  · rw [initial_of_isSpace (isSpace_iff.mpr hc)] at h
    cases h
  · rintro rfl
    cases h
  · obtain ⟨d, ds, rfl, hd⟩ := ht.initial_eq
    obtain rfl : d = c := by simpa using hc
    exact ht.initial_ne.2 (hd.symm.trans h)

theorem texts_middle {cs : List Char} {before after : List Piece} {p : Piece} (h : cut cs = before ++ p :: after) :
    cs = texts before ++ p.text ++ texts after := by
  have := texts_cut cs
  rw [h] at this
  simpa using this.symm

theorem first_middle {cs : List Char} {before after : List Piece} {p : Piece} (h : cut cs = before ++ p :: after) :
    First p (texts after) := by
  have := tiled_cut cs
  rw [h] at this
  exact this.first

theorem matchedIn_of_mem {cs : List Char} {t : Token} (h : t ∈ Piece.tokens 0 0 (cut cs)) : t.MatchedIn cs := by
  obtain ⟨before, ⟨text, content⟩, after, hcut, hp⟩ := exists_of_mem_collect h
  obtain ⟨rfl, ht⟩ := of_token?_eq_some hp
  obtain ⟨hlexeme, hlong⟩ := (first_middle hcut).of_token
  refine ⟨texts before, text, texts after, texts_middle hcut, ?_, ?_, hlexeme, hlong, hlexeme.keyword_iff⟩
  · rw [ht]
    simp
  · rw [ht]

theorem standsIn_of_mem {cs : List Char} {e : CompileError} (h : e ∈ Piece.errors 0 0 (cut cs)) : e.StandsIn cs := by
  obtain ⟨before, ⟨text, content⟩, after, hcut, hp⟩ := exists_of_mem_collect h
  obtain ⟨rfl, he⟩ := of_error?_eq_some hp
  refine ⟨texts before, text, texts after, texts_middle hcut, ?_, ?_⟩
  · rw [he]
    simp [CompileError.lexical]
  · rcases (first_middle hcut).of_fault with ⟨hfault, c, htext, hc⟩ | hunterminated
    · exact .inl ⟨hfault, c, htext, beginsNothing hc⟩
    · exact .inr hunterminated

theorem eq_nil_of_unterminated {cs : List Char} {es es' : List CompileError} {e : CompileError}
    (h : Piece.errors 0 0 (cut cs) = es ++ e :: es') (he : e.fault = .unterminatedString) : es' = [] := by
  obtain ⟨before, ⟨text, content⟩, after, hcut, hp, -, rfl⟩ := exists_of_collect_eq h
  obtain ⟨rfl, -⟩ := of_error?_eq_some hp
  rcases (first_middle hcut).of_fault with ⟨hfault, -⟩ | ⟨-, -, -, -, hrest⟩
  · rw [he] at hfault
    cases hfault
  · have htiled := tiled_cut cs
    rw [hcut, List.append_cons] at htiled
    rw [htiled.of_append.eq_nil hrest, collect]

/-- Scanning is longest match, for every source. -/
theorem scan_longest_match (source : String) :
    (∃ ps, Tiled ps ∧ texts ps = source.toList ∧ (scan source).errors = Piece.errors 0 0 ps ∧
      (scan source).tokens = Piece.tokens 0 0 ps ++ [.eof (lineBreaks source.toList) (byteLength source.toList)]) ∧
    (∀ t ∈ (scan source).tokens, t.kind ≠ .eof → t.MatchedIn source.toList) ∧
    (∀ e ∈ (scan source).errors, e.StandsIn source.toList) ∧
    ∀ es e es', (scan source).errors = es ++ e :: es' → e.fault = .unterminatedString → es' = [] := by
  rw [scan_eq]
  refine ⟨⟨cut source.toList, tiled_cut _, texts_cut _, rfl, rfl⟩, fun t ht hkind => ?_, fun e he => standsIn_of_mem he,
    fun es e es' => eq_nil_of_unterminated⟩
  rcases List.mem_append.mp ht with ht | ht
  · exact matchedIn_of_mem ht
  · rw [List.mem_singleton.mp ht] at hkind
    exact absurd rfl hkind

/-- The errors of a source do not keep a token from being found. -/
theorem scan_longest_match_identifier : ∃ t ∈ (scan "orchid = @\"a").tokens, t.kind = .identifier ∧
    t.span = ⟨0, 6⟩ ∧ t.MatchedIn "orchid = @\"a".toList := by
  have h : ⟨.identifier, "orchid", none, 0, ⟨0, 6⟩⟩ ∈ (scan "orchid = @\"a").tokens := by
    rw [scan_eq]
    cbv
    exact List.mem_cons_self
  exact ⟨_, h, rfl, rfl, (scan_longest_match _).2.1 _ h (by decide)⟩

end Reckon
