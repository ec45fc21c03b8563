import Reckon.Proofs.Token.Coverage
import Reckon.Proofs.Token.Separation

/-!
# Parentheses around a part of a source

A parenthesis is a token of its own wherever it stands. Put around a window of a source, two of them leave all pieces as
they are, and move those behind them.
-/

namespace Reckon.Piece

open Text

def opening : Piece := ⟨['('], .token .leftParen none⟩

def closing : Piece := ⟨[')'], .token .rightParen none⟩

variable {pre window post : List Piece} {rest : List Char} {p : Piece}

/-! ## Pieces -/

theorem first_single {c : Char} {kind : Kind} (hc : symbol? c = some kind) (hk : withEqual? kind = none) (hs : c ≠ '/') :
    First ⟨[c], .token kind none⟩ rest := by
  refine .token (lexeme_of_symbol? hc) (longest_symbol hc fun joined hj => ?_) fun ⟨post, hpost⟩ => ?_
  · rw [hk] at hj
    cases hj
  · exact hs (List.cons.inj hpost).1.symm

/-- A parenthesis may come before any token that it does not come after. -/
theorem First.before_token {c : Char} {kind : Kind} {literal : Option Literal} {text more : List Char}
    (h : First p (text ++ rest)) (ht : Lexeme kind literal text) (hc : Apart c) : First p (c :: more) := by
  obtain ⟨d, ds, rfl, hd⟩ := ht.initial_eq
  cases h with
  | blank hspace => exact .blank hspace
  | comment hb hr =>
      -- a comment in front of the token ends in a line break, with which no token begins
      obtain rfl : d = '\n' := by simpa using hr d rfl
      exact absurd hd.symm ht.initial_ne.1
  | token ht' hl hs =>
      have hwhole : First ⟨_, .token _ _⟩ ([] ++ (d :: ds ++ rest)) := .token ht' hl hs
      exact hwhole.of_append.append_apart hc
  | unexpected hnothing => exact .unexpected hnothing

theorem tiled_parens (h : Tiled (pre ++ window ++ post)) (hw : IsWindow window) :
    Tiled (pre ++ opening :: (window ++ closing :: post)) := by
  have hwindow : Tiled window := h.cut_short.of_append
  have hclosing : Tiled (closing :: post) := .cons (first_single rfl rfl (by decide)) h.of_append
  have hinner : Tiled (window ++ closing :: post) := by
    refine hwindow.append_apart hclosing apart_rightParen rfl fun p hp => ?_
    obtain ⟨⟨text, content⟩, hlast, kind, literal, rfl⟩ := hw.last
    obtain rfl := Option.some.inj (hlast.symm.trans hp)
    obtain ⟨front, rfl⟩ := List.getLast?_eq_some_iff.mp hlast
    exact hwindow.first.append_apart apart_rightParen
  have hopening : Tiled (opening :: (window ++ closing :: post)) := .cons (first_single rfl rfl (by decide)) hinner
  refine h.cut_short.cut_short.append_apart hopening apart_leftParen rfl fun p hp => ?_
  obtain ⟨front, rfl⟩ := List.getLast?_eq_some_iff.mp hp
  obtain ⟨⟨text, content⟩, hfirst, kind, literal, rfl⟩ := hw.first
  obtain ⟨qs, rfl⟩ := List.head?_eq_some_iff.mp hfirst
  have hhead : Tiled ([] ++ ⟨text, .token kind literal⟩ :: qs) := hwindow
  -- the last piece before the parenthesis was followed by the first token of the window
  rw [List.append_assoc, List.append_assoc] at h
  exact h.first.before_token hhead.first.of_token.1 apart_leftParen

theorem errors_parens (h : errors 0 0 (pre ++ window ++ post) = []) :
    errors 0 0 (pre ++ opening :: (window ++ closing :: post)) = [] := by
  rw [errors_eq_nil_iff] at h ⊢
  intro p hp fault hfault
  simp only [List.mem_append, List.mem_cons] at hp h
  rcases hp with hp | rfl | hp | rfl | hp
  · exact h p (.inl (.inl hp)) fault hfault
  · cases hfault
  · exact h p (.inl (.inr hp)) fault hfault
  · cases hfault
  · exact h p (.inr hp) fault hfault

/-! ## Tokens -/

theorem tokens_moved_bytes (bytes offset line : Nat) (ps : List Piece) :
    tokens (offset + bytes) line ps = (tokens offset line ps).map (·.moved bytes 0) :=
  tokens_moved bytes 0 offset line ps

def openingAt (place line : Nat) : Token := ⟨.leftParen, "(", none, line, ⟨place, place + 1⟩⟩

def closingAt (place line : Nat) : Token := ⟨.rightParen, ")", none, line, ⟨place, place + 1⟩⟩

/-- Each parenthesis is a token, and moves the tokens behind it by one byte. -/
theorem tokens_parens (pre window post : List Piece) :
    let start := byteLength (texts pre)
    let stop := byteLength (texts (pre ++ window))
    let first := lineBreaks (texts pre)
    let last := lineBreaks (texts (pre ++ window))
    tokens 0 0 (pre ++ opening :: (window ++ closing :: post)) =
      tokens 0 0 pre ++ openingAt start first :: ((tokens start first window).map (·.moved 1 0) ++
        closingAt (stop + 1) last :: (tokens stop last post).map (·.moved 2 0)) := by
  intro start stop first last
  have hopening : opening.token? start first = some (openingAt start first) := rfl
  have hclosing : closing.token? (stop + 1) last = some (closingAt (stop + 1) last) := rfl
  have hsizes : byteLength opening.text = 1 ∧ lineBreaks opening.text = 0 ∧
    byteLength closing.text = 1 ∧ lineBreaks closing.text = 0 := ⟨rfl, rfl, rfl, rfl⟩
  have hstop : start + 1 + byteLength (texts window) = stop + 1 := by
    simp only [start, stop, texts_append, byteLength_append]
    omega
  have hlast : first + lineBreaks (texts window) = last := by simp [first, last]
  rw [← tokens_moved_bytes, ← tokens_moved_bytes]
  simp only [tokens, collect_append, collect, Nat.zero_add, hsizes, Nat.add_zero]
  rw [hstop, hlast, hclosing, hopening]
  rfl

theorem mem_tokens_bounds {offset line : Nat} {ps : List Piece} {t : Token} (hne : ∀ p ∈ ps, p.text ≠ [])
    (h : t ∈ tokens offset line ps) :
    offset ≤ t.span.start ∧ t.span.start < t.span.stop ∧ t.span.stop ≤ offset + byteLength (texts ps) := by
  obtain ⟨before, p, after, rfl, hp⟩ := exists_of_mem_collect h
  have hpos : 0 < byteLength p.text := byteLength_pos (hne p (by simp))
  rw [(of_token?_eq_some hp).2]
  simp only [texts_append, texts_cons, byteLength_append]
  omega

end Reckon.Piece
