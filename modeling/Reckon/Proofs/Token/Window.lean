import Reckon.Proofs.Token.First

/-!
# Windows of a source

A window is the part of a source from the beginning of a token to the end of a token. It is cut into the same pieces as
the whole source is there, and it has the same tokens, each of them moved by the place of the window.
-/

namespace Reckon

open Text

/-! ## Moving -/

def Span.moved (bytes : Nat) (s : Span) : Span :=
  ⟨s.start + bytes, s.stop + bytes⟩

/-- The token when the given numbers of bytes and of lines come before its source. -/
def Token.moved (bytes lines : Nat) (t : Token) : Token :=
  { t with line := t.line + lines, span := t.span.moved bytes }

namespace Piece

/-- What a piece gives is moved with its place, and so is what pieces in a row give. -/
theorem collect_moved {α : Type} {f : Piece → Nat → Nat → Option α} {move : α → α} {bytes lines offset line : Nat}
    {ps : List Piece} (hf : ∀ p offset line, f p (offset + bytes) (line + lines) = (f p offset line).map move) :
    collect f (offset + bytes) (line + lines) ps = (collect f offset line ps).map move := by
  induction ps generalizing offset line with
  | nil => rfl
  | cons p ps ih =>
      rw [collect, collect, hf, Nat.add_right_comm offset, Nat.add_right_comm line, ih, List.map_append]
      cases f p offset line <;> rfl

theorem tokens_moved (bytes lines offset line : Nat) (ps : List Piece) :
    tokens (offset + bytes) (line + lines) ps = (tokens offset line ps).map (·.moved bytes lines) := by
  refine collect_moved fun p offset line => ?_
  obtain ⟨text, content⟩ := p
  cases content <;> simp [token?, Token.moved, Span.moved, Nat.add_right_comm]

theorem errors_eq_nil_iff {offset line : Nat} {ps : List Piece} :
    errors offset line ps = [] ↔ ∀ p ∈ ps, ∀ fault, p.content ≠ .fault fault := by
  induction ps generalizing offset line with
  | nil => simp [errors, collect]
  | cons p ps ih =>
      rw [errors, collect, List.append_eq_nil_iff, ih, List.forall_mem_cons]
      obtain ⟨text, content⟩ := p
      cases content <;> simp [error?]

theorem tokens_ne_eof {offset line : Nat} {ps : List Piece} (h : Tiled ps) :
    ∀ t ∈ tokens offset line ps, t.kind ≠ .eof := by
  intro t ht heof
  obtain ⟨before, ⟨text, content⟩, after, rfl, hp⟩ := exists_of_mem_collect ht
  obtain ⟨rfl, -⟩ := of_token?_eq_some hp
  have := h.first.of_token.1.initial_ne.2
  rw [heof] at this
  exact this rfl

/-! ## Cutting a window -/

theorem RunEnds.of_append {p : Char → Bool} {cs ds : List Char} (h : RunEnds p (cs ++ ds)) : RunEnds p cs := by
  intro c hc
  cases cs with
  | nil => cases hc
  | cons d cs => exact h c hc

/-- The first piece of a text stays the first one when the text after it is cut short. -/
theorem First.of_append {p : Piece} {rest post : List Char} (h : First p (rest ++ post)) : First p rest := by
  generalize hr : rest ++ post = whole at h
  cases h with
  | blank hc => exact .blank hc
  | comment hb hrun => exact .comment hb (RunEnds.of_append (hr ▸ hrun))
  | unexpected hc => exact .unexpected hc
  | unterminated hb =>
      obtain ⟨rfl, -⟩ := List.append_eq_nil_iff.mp hr
      exact .unterminated hb
  | @token kind literal text _ ht hl hc =>
      have hpre : text ++ rest <+: text ++ whole := ⟨post, by rw [List.append_assoc, hr]⟩
      refine .token ht (fun _ _ _ ho hp => hl _ _ _ ho (hp.trans hpre)) fun hs => hc (hs.trans hpre)

theorem Tiled.cut_short {ps qs : List Piece} (h : Tiled (ps ++ qs)) : Tiled ps := by
  induction ps with
  | nil => exact .nil
  | cons p ps ih =>
      cases h with
      | cons hp hps =>
          have hrest : First p (texts ps ++ texts qs) := texts_append ps qs ▸ hp
          exact .cons hrest.of_append (ih hps)

theorem cut_texts_of_infix {cs : List Char} {before ps after : List Piece} (h : cut cs = before ++ ps ++ after) :
    cut (texts ps) = ps := by
  have := tiled_cut cs
  rw [h] at this
  exact this.cut_short.of_append.cut_texts

def IsToken (p : Piece) : Prop :=
  ∃ kind literal, p.content = .token kind literal

theorem isToken_of_token? {p : Piece} {offset line : Nat} {t : Token} (h : p.token? offset line = some t) : p.IsToken :=
  ⟨_, _, (of_token?_eq_some h).1⟩

/-- The pieces begin and end with tokens. -/
structure IsWindow (ps : List Piece) : Prop where
  first : ∃ p ∈ ps.head?, p.IsToken
  last : ∃ p ∈ ps.getLast?, p.IsToken

/--
Tokens in a row come from pieces in a row, which begin and end where the tokens do. The tokens before and after them come
from the pieces before and after.
-/
theorem exists_window {offset line : Nat} {ps : List Piece} {before us after ts : List Token} {first last : Token}
    (h : tokens offset line ps = before ++ us ++ after) (hfirst : us.head? = some first) (hlast : us = ts ++ [last]) :
    ∃ pre window post, ps = pre ++ window ++ post ∧ IsWindow window ∧ tokens offset line pre = before ∧
      tokens (offset + byteLength (texts pre)) (line + lineBreaks (texts pre)) window = us ∧
      first.span.start = offset + byteLength (texts pre) ∧
      last.span.stop = offset + byteLength (texts pre) + byteLength (texts window) := by
  obtain ⟨vs, rfl⟩ := List.head?_eq_some_iff.mp hfirst
  rw [List.append_assoc, List.cons_append] at h
  obtain ⟨pre, p, rest, rfl, hp, hbefore, hrest⟩ := exists_of_collect_eq h
  obtain ⟨-, hstart⟩ := of_token?_eq_some hp
  -- the tokens from the first one on, in which the last one is found
  have hwhole : tokens (offset + byteLength (texts pre)) (line + lineBreaks (texts pre)) (p :: rest) =
      ts ++ last :: after := by
    have hts : ts ++ last :: after = first :: (vs ++ after) := by
      rw [List.append_cons, ← hlast, List.cons_append]
    rw [hts, tokens, collect, hp, ← hrest]
    simp [Nat.add_assoc]
  obtain ⟨middle, q, post, hsplit, hq, hmiddle, -⟩ := exists_of_collect_eq hwhole
  obtain ⟨-, hstop⟩ := of_token?_eq_some hq
  have hhead : (middle ++ [q]).head? = some p := by
    cases middle with
    | nil => rw [(List.cons.inj hsplit).1]; rfl
    | cons r middle => rw [(List.cons.inj hsplit).1]; rfl
  refine ⟨pre, middle ++ [q], post, by rw [hsplit]; simp,
    ⟨⟨p, hhead, isToken_of_token? hp⟩, ⟨q, by simp, isToken_of_token? hq⟩⟩, hbefore, ?_, by rw [hstart],
    by rw [hstop]; simp [Nat.add_assoc]⟩
  rw [tokens, collect_append, hmiddle, hlast, collect, hq]
  simp [collect]

end Piece
end Reckon
