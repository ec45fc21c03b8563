import Reckon.Proofs.Expr.Unplaced
import Reckon.Proofs.Token.Coverage
import Reckon.Proofs.Token.Separation

/-!
# Sources laid out anew

The lexemes of a source may be written down with other blanks and comments between them. What is scanned then is the same
but for the places, as long as a blank keeps each lexeme from the next one.
-/

namespace Reckon

open Text Piece

/-! ## Separators -/

/-- Blanks and comments, each comment with the line break that ends it. -/
inductive Separator : List Char → Prop where
  | nil : Separator []
  | blank {c : Char} {cs : List Char} (hc : c ∈ [' ', '\r', '\t', '\n']) (hcs : Separator cs) : Separator (c :: cs)
  | comment {body cs : List Char} (hb : '\n' ∉ body) (hcs : Separator cs) :
      Separator ('/' :: '/' :: (body ++ '\n' :: cs))

/-- A separator is trivia whatever comes after it. -/
theorem Separator.trivia {cs : List Char} (h : Separator cs) (rest : List Char) : Trivia cs rest := by
  induction h with
  | nil => exact .nil
  | blank hc _ ih => exact .blank hc ih
  | comment hb _ ih => exact .comment hb (by simp [RunEnds]) (.blank (by simp) ih)

/-- Trivia in front of pieces are blank pieces. -/
theorem Trivia.exists_pieces {cs rest : List Char} {qs : List Piece} (h : Trivia cs rest) (hqs : Tiled qs)
    (hrest : texts qs = rest) : ∃ ps, texts ps = cs ∧ (∀ p ∈ ps, p.content = .blank) ∧ Tiled (ps ++ qs) := by
  induction h with
  | nil => exact ⟨[], rfl, by simp, hqs⟩
  | @blank c cs rest hc hcs ih =>
      obtain ⟨ps, rfl, hblank, htiled⟩ := ih hrest
      exact ⟨⟨[c], .blank⟩ :: ps, rfl, by simpa using hblank, .cons (.blank (isSpace_iff.mpr hc)) htiled⟩
  | @comment body cs rest hb hr hcs ih =>
      obtain ⟨ps, rfl, hblank, htiled⟩ := ih hrest
      have hends : RunEnds (· != '\n') (texts (ps ++ qs)) := by rwa [texts_append, hrest]
      exact ⟨⟨'/' :: '/' :: body, .blank⟩ :: ps, rfl, by simpa using hblank, .cons (.comment hb hends) htiled⟩

namespace Piece
variable {ps qs : List Piece}

theorem tokens_eq_nil_of_blank {offset line : Nat} (h : ∀ p ∈ ps, p.content = .blank) : tokens offset line ps = [] := by
  refine List.eq_nil_iff_forall_not_mem.mpr fun t ht => ?_
  obtain ⟨before, p, after, rfl, hp⟩ := exists_of_mem_collect ht
  simp [token?, h p (by simp)] at hp

theorem tokens_append_of_blank {offset line : Nat} (h : ∀ q ∈ qs, q.content = .blank) :
    tokens offset line (qs ++ ps) = tokens (offset + byteLength (texts qs)) (line + lineBreaks (texts qs)) ps := by
  have hnil := @tokens_eq_nil_of_blank qs offset line h
  rw [tokens] at hnil
  rw [tokens, collect_append, hnil, List.nil_append]

theorem faultless_append_of_blank (h : ∀ q ∈ qs, q.content = .blank) (hps : ∀ p ∈ ps, ∀ fault, p.content ≠ .fault fault) :
    ∀ p ∈ qs ++ ps, ∀ fault, p.content ≠ .fault fault := by
  intro p hp fault hfault
  rcases List.mem_append.mp hp with hp | hp
  · rw [h p hp] at hfault
    cases hfault
  · exact hps p hp fault hfault

end Piece

/-! ## Lexemes -/

/-- The lexeme by itself is the token. -/
def Token.Standalone (t : Token) : Prop :=
  First ⟨t.lexeme.toList, .token t.kind t.literal⟩ []

theorem standalone_of_mem_tokens {cs : List Char} {t : Token} (h : t ∈ Piece.tokens 0 0 (cut cs)) : t.Standalone := by
  obtain ⟨before, ⟨text, content⟩, after, hcut, hp⟩ := exists_of_mem_collect h
  obtain ⟨rfl, ht⟩ := of_token?_eq_some hp
  have hfirst : First ⟨text, .token t.kind t.literal⟩ ([] ++ texts after) := first_middle hcut
  have hlexeme : t.lexeme.toList = text := by rw [ht, String.toList_ofList]
  rw [Token.Standalone, hlexeme]
  exact hfirst.of_append

/-- One separator in front of the tokens and one behind each of them. There is something between two tokens, and what is
behind a token begins with a blank. -/
structure Separates (ts : List Token) (front : String) (behind : List String) : Prop where
  length_eq : behind.length = ts.length
  front : Separator front.toList
  separator : ∀ w ∈ behind, Separator w.toList
  blank : ∀ w ∈ behind, ∀ c ∈ w.toList.head?, c ∈ [' ', '\r', '\t', '\n']
  between : ∀ w ∈ behind.dropLast, w ≠ ""

/-- The lexemes with the given separators, one in front and one behind each lexeme. -/
def relaid (ts : List Token) (front : String) (behind : List String) : String :=
  front ++ String.join (List.zipWith (fun t w => t.lexeme ++ w) ts behind)

theorem Separates.tail {t : Token} {ts : List Token} {front w : String} {ws : List String}
    (h : Separates (t :: ts) front (w :: ws)) : Separates ts front ws where
  length_eq := Nat.succ.inj h.length_eq
  front := h.front
  separator := fun v hv => h.separator v (List.mem_cons_of_mem w hv)
  blank := fun v hv => h.blank v (List.mem_cons_of_mem w hv)
  between := by
    intro v hv
    cases ws with
    | nil => cases hv
    | cons u ws => exact h.between v (List.mem_cons_of_mem w hv)

/-- A blank comes after the lexeme, or nothing at all. -/
theorem Separates.first {t : Token} {ts : List Token} {front w : String} {ws : List String} {rest : List Char}
    (h : Separates (t :: ts) front (w :: ws)) (ht : t.Standalone) (hrest : ws = [] → rest = []) :
    First ⟨t.lexeme.toList, .token t.kind t.literal⟩ (w.toList ++ rest) := by
  cases hw : w.toList with
  | cons c cs =>
      have hc := h.blank w List.mem_cons_self c (by rw [hw]; rfl)
      exact First.append_apart ht (apart_of_isSpace (isSpace_iff.mpr hc))
  | nil =>
      cases ws with
      | nil =>
          rw [hrest rfl]
          exact ht
      | cons v ws => exact absurd (String.toList_eq_nil_iff.mp hw) (h.between w List.mem_cons_self)

/-- The pieces of the lexemes and of the separators behind them. -/
theorem Separates.exists_pieces {ts : List Token} {front : String} {behind : List String}
    (hts : ∀ t ∈ ts, t.Standalone) (h : Separates ts front behind) :
    ∃ ps, texts ps = (List.zipWith (fun t w => t.lexeme ++ w) ts behind).flatMap String.toList ∧ Tiled ps ∧
      (∀ p ∈ ps, ∀ fault, p.content ≠ .fault fault) ∧
      ∀ offset line, (Piece.tokens offset line ps).map Token.unplaced = ts.map Token.unplaced := by
  induction ts generalizing behind with
  | nil => exact ⟨[], rfl, .nil, by simp, fun _ _ => rfl⟩
  | cons t ts ih =>
      obtain ⟨w, ws, rfl⟩ := List.exists_cons_of_length_eq_add_one h.length_eq
      obtain ⟨ps, htexts, htiled, hclean, htokens⟩ := ih (fun u hu => hts u (List.mem_cons_of_mem t hu)) h.tail
      obtain ⟨qs, hqs, hblank, hqps⟩ := (h.separator w List.mem_cons_self).trivia (texts ps) |>.exists_pieces htiled rfl
      have hfirst : First ⟨t.lexeme.toList, .token t.kind t.literal⟩ (texts (qs ++ ps)) := by
        rw [texts_append, hqs]
        refine h.first (hts t List.mem_cons_self) fun hws => ?_
        rw [htexts, hws, List.zipWith_nil_right, List.flatMap_nil]
      refine ⟨⟨t.lexeme.toList, .token t.kind t.literal⟩ :: (qs ++ ps), ?_, .cons hfirst hqps, ?_, fun offset line => ?_⟩
      · simp [hqs, htexts]
      · exact List.forall_mem_cons.mpr ⟨fun _ => nofun, faultless_append_of_blank hblank hclean⟩
      · have hrest (offset line : Nat) : (Piece.tokens offset line (qs ++ ps)).map Token.unplaced = ts.map Token.unplaced := by
          rw [tokens_append_of_blank hblank, htokens]
        rw [Piece.tokens, collect, List.map_append, hrest]
        simp [token?, Token.unplaced]

/-- Sources with the same lexemes, and separators between them, have the same tokens but for the places. -/
theorem scan_relaid {source front : String} {behind : List String}
    (h : Separates (scan source).tokens.dropLast front behind) :
    (scan (relaid (scan source).tokens.dropLast front behind)).errors = [] ∧
      (scan (relaid (scan source).tokens.dropLast front behind)).tokens.map Token.unplaced =
        (scan source).tokens.map Token.unplaced := by
  have hdrop : (scan source).tokens.dropLast = Piece.tokens 0 0 (cut source.toList) := by
    rw [scan_eq, List.dropLast_concat]
  rw [hdrop] at h ⊢
  obtain ⟨ps, htexts, htiled, hclean, htokens⟩ := h.exists_pieces fun t => standalone_of_mem_tokens
  obtain ⟨qs, hqs, hblank, hqps⟩ := (h.front.trivia (texts ps)).exists_pieces htiled rfl
  have hcut : cut (relaid (Piece.tokens 0 0 (cut source.toList)) front behind).toList = qs ++ ps := by
    refine cut_eq_iff.mpr ⟨?_, hqps⟩
    rw [relaid, String.toList_append, String.toList_join, texts_append, hqs, htexts]
  rw [scan_eq, scan_eq, hcut]
  refine ⟨errors_eq_nil_iff.mpr (faultless_append_of_blank hblank hclean), ?_⟩
  rw [List.map_append, tokens_append_of_blank hblank, htokens, List.map_append]
  rfl

end Reckon
