import Reckon.Proofs.Token.Lexeme

/-!
# The first piece of a text

`First p rest` says without an algorithm that the piece is the first one of a text and that `rest` comes after it. For a
token that is longest match. `Piece.first` finds exactly this piece (`first_eq_iff`).
-/

namespace Reckon

open Text

namespace Piece

inductive First : Piece → List Char → Prop where
  | blank {c : Char} {rest : List Char} (hc : isSpace c) : First ⟨[c], .blank⟩ rest
  | comment {body rest : List Char} (hb : '\n' ∉ body) (hr : RunEnds (· != '\n') rest) :
      First ⟨'/' :: '/' :: body, .blank⟩ rest
  | token {kind : Kind} {literal : Option Literal} {text rest : List Char} (ht : Lexeme kind literal text)
      (hl : Longest text rest) (hc : ¬ ['/', '/'] <+: text ++ rest) : First ⟨text, .token kind literal⟩ rest
  | unterminated {body : List Char} (hb : '"' ∉ body) : First ⟨'"' :: body, .fault .unterminatedString⟩ []
  | unexpected {c : Char} {rest : List Char} (hc : initial c = .nothing) :
      First ⟨[c], .fault .unexpectedCharacter⟩ rest

/-! ## Longest matches -/

section
variable {c : Char} {cs body rest whole fraction : List Char} {kind : Kind}

theorem mem_run_iff {d : Char} {p : Char → Bool} (hp : ∀ c, p c = (c != d)) : (∀ c ∈ cs, p c) ↔ d ∉ cs := by
  simp only [hp, bne_iff_ne, ne_eq]
  exact ⟨fun h hd => h d hd rfl, fun h c hc hcd => h (hcd ▸ hc)⟩

theorem longest_string (hb : '"' ∉ body) : Longest ('"' :: (body ++ ['"'])) rest := by
  intro kind literal other ho hp
  obtain ⟨body', hb', rfl, -, -⟩ := ho.of_quote (ho.initial_of_prefix hp)
  obtain ⟨post, hpost⟩ := hp
  have hquote (tail : List Char) : RunEnds (· != '"') ('"' :: tail) := by simp [RunEnds]
  have hsplit : body' ++ '"' :: post = body ++ '"' :: rest := by simpa using hpost
  obtain ⟨rfl, -⟩ := run_unique ((mem_run_iff fun _ => rfl).mpr hb') ((mem_run_iff fun _ => rfl).mpr hb)
    (hquote post) (hquote rest) hsplit
  exact Nat.le_refl _

theorem runEnds_point (cs : List Char) : RunEnds Char.isDigit ('.' :: cs) := by simp [RunEnds]

theorem longest_integer (hw : Digits whole) (hr : RunEnds Char.isDigit rest)
    (hpoint : ∀ d tail, rest = '.' :: d :: tail → d.isDigit = false) : Longest whole rest := by
  intro kind literal other ho hp
  obtain ⟨c, cs, rfl⟩ := List.exists_cons_of_ne_nil hw.ne_nil
  have hi := (ho.initial_of_prefix hp).trans (initial_of_isDigit (hw.isDigit c (by simp)))
  obtain ⟨-, ⟨hd, -⟩ | ⟨whole', fraction, hw', hf, rfl, -⟩⟩ := ho.of_digit hi
  · exact length_le_of_run hd.isDigit hr hp
  · -- the digit behind the point is what does not come after the integer
    obtain ⟨post, hpost⟩ := hp
    rw [List.append_assoc] at hpost
    obtain ⟨-, htail⟩ := run_unique hw'.isDigit hw.isDigit (runEnds_point _) hr hpost
    obtain ⟨d, ds, rfl⟩ := List.exists_cons_of_ne_nil hf.ne_nil
    have hd := hpoint d (ds ++ post) (by simpa using htail.symm)
    rw [hf.isDigit d (by simp)] at hd
    cases hd

theorem longest_decimal (hw : Digits whole) (hr : RunEnds Char.isDigit rest) :
    Longest (whole ++ '.' :: fraction) rest := by
  intro kind literal other ho hp
  obtain ⟨c, cs, rfl⟩ := List.exists_cons_of_ne_nil hw.ne_nil
  have hi := (ho.initial_of_prefix hp).trans (initial_of_isDigit (hw.isDigit c (by simp)))
  rw [List.append_assoc] at hp
  obtain ⟨-, ⟨hd, -⟩ | ⟨whole', fraction', hw', hf', rfl, -⟩⟩ := ho.of_digit hi
  · have := length_le_of_run hd.isDigit (runEnds_point _) hp
    rw [List.length_append]
    omega
  · obtain ⟨post, hpost⟩ := hp
    rw [List.append_assoc] at hpost
    obtain ⟨rfl, htail⟩ := run_unique hw'.isDigit hw.isDigit (runEnds_point _) (runEnds_point _) hpost
    have := length_le_of_run hf'.isDigit hr ⟨post, (List.cons.inj htail).2⟩
    simp only [List.length_append, List.length_cons]
    omega

theorem longest_whole (text : List Char) : Longest text [] := by
  intro kind literal other _ hp
  rw [List.append_nil] at hp
  exact hp.length_le

theorem longest_word (hc : startsWord c) (hr : RunEnds continuesWord rest) : Longest (c :: cs) rest := by
  intro kind literal other ho hp
  obtain ⟨-, -, hletters⟩ := ho.of_letter ((ho.initial_of_prefix hp).trans (initial_of_startsWord hc))
  exact length_le_of_run hletters hr hp

theorem longest_joined (hc : symbol? c = some kind) : Longest [c, '='] rest := by
  intro kind' literal other ho hp
  obtain ⟨-, ⟨d, rfl, -⟩ | ⟨d, base, rfl, -, -⟩⟩ :=
    ho.of_symbol ((ho.initial_of_prefix hp).trans (initial_of_symbol? hc))
  · simp
  · simp

theorem longest_symbol (hc : symbol? c = some kind)
    (hr : ∀ joined, withEqual? kind = some joined → rest.head? ≠ some '=') : Longest [c] rest := by
  intro kind' literal other ho hp
  obtain ⟨-, ⟨d, rfl, -⟩ | ⟨d, base, rfl, hd, hj⟩⟩ :=
    ho.of_symbol ((ho.initial_of_prefix hp).trans (initial_of_symbol? hc))
  · simp
  · obtain ⟨post, hpost⟩ := hp
    obtain ⟨rfl, rfl⟩ : d = c ∧ '=' :: post = rest := by simpa using hpost
    rw [hc] at hd
    exact absurd rfl (hr kind' (Option.some.inj hd ▸ hj))

end

/-! ## Numerals -/

theorem ofNumeral?_of_digits {cs : List Char} (h : Digits cs) :
    Decimal.ofNumeral? cs = some ⟨Nat.ofDigitChars 10 cs 0, 0⟩ := by
  have htake := takeWhile_run h.isDigit runEnds_nil
  have hdrop := dropWhile_run h.isDigit runEnds_nil
  rw [List.append_nil] at htake hdrop
  simp [Decimal.ofNumeral?, htake, hdrop, h.ne_nil]

theorem ofNumeral?_of_point {whole fraction : List Char} (hw : Digits whole) (hf : Digits fraction) :
    Decimal.ofNumeral? (whole ++ '.' :: fraction) =
      some ⟨Nat.ofDigitChars 10 (whole ++ fraction) 0, -fraction.length⟩ := by
  have hall : fraction.all Char.isDigit := List.all_eq_true.mpr hf.isDigit
  simp [Decimal.ofNumeral?, takeWhile_run hw.isDigit (runEnds_point fraction),
    dropWhile_run hw.isDigit (runEnds_point fraction), hw.ne_nil, hf.ne_nil, hall]

theorem digits_takeWhile {c : Char} (hc : c.isDigit) (cs : List Char) : Digits ((c :: cs).takeWhile Char.isDigit) where
  ne_nil := by simp [hc]
  isDigit := List.all_eq_true.mp List.all_takeWhile

theorem number_first {c : Char} (hc : c.isDigit) (cs : List Char) :
    ∃ text literal rest, number (c :: cs) = (⟨text, .token .number literal⟩, rest) ∧ Lexeme .number literal text ∧
      Longest text rest := by
  have hw := digits_takeWhile hc cs
  have hends := runEnds_dropWhile Char.isDigit (c :: cs)
  unfold number splitNumeral
  split
  rename_i text rest hsplit
  split at hsplit
  · rename_i d tail hdrop
    rw [hdrop] at hends
    split at hsplit
    · rename_i hd
      obtain ⟨rfl, rfl⟩ := Prod.mk.inj hsplit
      have hf := digits_takeWhile hd tail
      rw [List.takeWhile_cons_of_pos hd] at hf
      rw [ofNumeral?_of_point hw hf]
      exact ⟨_, _, _, rfl, .decimal hw hf, longest_decimal hw (runEnds_dropWhile _ tail)⟩
    · rename_i hd
      obtain ⟨rfl, rfl⟩ := Prod.mk.inj hsplit
      rw [ofNumeral?_of_digits hw]
      refine ⟨_, _, _, rfl, .integer hw, longest_integer hw hends fun d' tail' h => ?_⟩
      obtain ⟨-, rfl, -⟩ : '.' = '.' ∧ d = d' ∧ tail = tail' := by simpa using h
      exact Bool.eq_false_iff.mpr hd
  · rename_i hpoint
    obtain ⟨rfl, rfl⟩ := Prod.mk.inj hsplit
    rw [ofNumeral?_of_digits hw]
    exact ⟨_, _, _, rfl, .integer hw, longest_integer hw hends fun d tail h => absurd h (hpoint d tail)⟩

/-! ## The first piece -/

theorem comment_first (cs : List Char) : First (comment ('/' :: cs)).1 (comment ('/' :: cs)).2 := by
  have hrun : ∀ d ∈ cs.takeWhile (· != '\n'), d != '\n' := List.all_eq_true.mp List.all_takeWhile
  have hbody := (mem_run_iff fun _ => rfl).mp hrun
  simpa [comment] using First.comment hbody (runEnds_dropWhile (· != '\n') cs)

theorem string_first (cs : List Char) : First (string cs).1 (string cs).2 := by
  have hrun : ∀ d ∈ cs.takeWhile (· != '"'), d != '"' := List.all_eq_true.mp List.all_takeWhile
  have hbody := (mem_run_iff fun _ => rfl).mp hrun
  have hends := runEnds_dropWhile (· != '"') cs
  unfold string
  split
  · exact .unterminated hbody
  · rename_i quote rest hdrop
    rw [hdrop] at hends
    obtain rfl : quote = '"' := by simpa [RunEnds] using hends
    exact .token (.string hbody) (longest_string hbody) (by simp)

theorem word_first {c : Char} (hc : startsWord c) (cs : List Char) (hs : ¬ ['/', '/'] <+: c :: cs) :
    First (word (c :: cs)).1 (word (c :: cs)).2 := by
  have hcont : continuesWord c := by simp [continuesWord, hc]
  have hrun : ∀ d ∈ cs.takeWhile continuesWord, continuesWord d := List.all_eq_true.mp List.all_takeWhile
  have hlong : Longest (c :: cs.takeWhile continuesWord) (cs.dropWhile continuesWord) :=
    longest_word hc (runEnds_dropWhile continuesWord cs)
  have hletters : ∀ d ∈ cs.takeWhile continuesWord, d.isAlphanum ∨ d = '_' := by
    intro d hd
    have := hrun d hd
    simp only [continuesWord, startsWord, Bool.or_eq_true, beq_iff_eq] at this
    simp only [Char.isAlphanum, Bool.or_eq_true]
    rcases this with (h | h) | h <;> simp [h]
  simp only [word, List.takeWhile_cons_of_pos hcont, List.dropWhile_cons_of_pos hcont]
  refine .token ?_ hlong (by simpa [List.takeWhile_append_dropWhile] using hs)
  by_cases hreserved : ∃ word : Keyword, word.text.toList = c :: cs.takeWhile continuesWord
  · obtain ⟨word, hword⟩ := hreserved
    rw [← hword, wordKind_text]
    exact .reserved word
  · have hne := not_exists.mp hreserved
    rw [wordKind_of_ne hne]
    exact .identifier (by simpa [startsWord] using hc) hletters hne

theorem symbol_first {c : Char} {kind : Kind} (hc : symbol? c = some kind) (cs : List Char)
    (hs : ¬ ['/', '/'] <+: c :: cs) : First (symbol c kind cs).1 (symbol c kind cs).2 := by
  unfold symbol
  split
  · rename_i joined rest hj
    exact .token (lexeme_of_withEqual? hc hj) (longest_joined hc) hs
  · rename_i hne
    refine .token (lexeme_of_symbol? hc) (longest_symbol hc fun joined hj hhead => ?_) hs
    obtain ⟨rest, rfl⟩ := List.head?_eq_some_iff.mp hhead
    exact hne joined rest hj rfl

theorem first_first (c : Char) (cs : List Char) : First (first c cs).1 (first c cs).2 := by
  unfold first
  split
  · rename_i hspace
    exact .blank hspace
  rename_i hspace
  split
  · rename_i hc
    obtain ⟨tail, rfl⟩ := List.head?_eq_some_iff.mp hc.2
    exact comment_first tail
  rename_i hc
  have hs : ¬ ['/', '/'] <+: c :: cs := by
    rintro ⟨post, hpost⟩
    obtain ⟨rfl, rfl⟩ : '/' = c ∧ '/' :: post = cs := by simpa using hpost
    exact hc ⟨rfl, rfl⟩
  split
  · exact string_first cs
  rename_i hquote
  split
  · rename_i hd
    obtain ⟨text, literal, rest, hnumber, ht, hl⟩ := number_first hd cs
    have happ := number_append (c :: cs)
    rw [hnumber] at happ ⊢
    exact .token ht hl (happ ▸ hs)
  rename_i hd
  split
  · rename_i hw
    exact word_first hw cs hs
  rename_i hw
  split
  · rename_i kind hk
    exact symbol_first hk cs hs
  · rename_i hk
    exact .unexpected (initial_eq_nothing_iff.mpr (by simp_all))

theorem Longest.length_eq {kind kind' : Kind} {literal literal' : Option Literal} {text text' rest rest' : List Char}
    (ht : Lexeme kind literal text) (ht' : Lexeme kind' literal' text') (hl : Longest text rest)
    (hl' : Longest text' rest') (h : text ++ rest = text' ++ rest') : text.length = text'.length := by
  have hle := hl' _ _ _ ht ⟨rest, h⟩
  have hge := hl _ _ _ ht' ⟨rest', h.symm⟩
  omega

namespace First
variable {p : Piece} {c : Char} {cs rest : List Char}

/-- A token is found where one is: nothing else begins there. -/
theorem token_eq {kind : Kind} {literal : Option Literal} {text : List Char} (ht : Lexeme kind literal text)
    (hl : Longest text rest) (hc : ¬ ['/', '/'] <+: text ++ rest) {q : Piece} {rest' : List Char} (hq : First q rest')
    (h : text ++ rest = q.text ++ rest') : q = ⟨text, .token kind literal⟩ := by
  obtain ⟨d, ds, rfl, hd⟩ := ht.initial_eq
  cases hq with
  | blank hspace =>
      obtain ⟨rfl, -⟩ := List.cons.inj h
      rw [initial_of_isSpace hspace] at hd
      exact absurd hd.symm ht.initial_ne.1
  | comment hb hr =>
      rw [h] at hc
      exact absurd ⟨_, rfl⟩ hc
  | token ht' hl' hc' =>
      obtain ⟨rfl, -⟩ := List.append_inj h (Longest.length_eq ht ht' hl hl' h)
      obtain ⟨rfl, rfl⟩ := ht.unique ht'
      rfl
  | unterminated hb =>
      obtain ⟨rfl, hds⟩ := List.cons.inj h
      obtain ⟨body, -, hbody, -, -⟩ := ht.of_quote hd.symm
      obtain ⟨-, rfl⟩ := List.cons.inj hbody
      have hmem : '"' ∈ (body ++ ['"']) ++ rest := by simp
      have htext : (body ++ ['"']) ++ rest = _ := hds.trans (List.append_nil _)
      rw [htext] at hmem
      exact absurd hmem hb
  | unexpected hnothing =>
      obtain ⟨rfl, -⟩ := List.cons.inj h
      rw [hnothing] at hd
      exact absurd hd.symm ht.initial_ne.2

theorem first_eq (hp : First p rest) (h : c :: cs = p.text ++ rest) : first c cs = (p, rest) := by
  suffices hpiece : (first c cs).1 = p by
    have happ := first_append c cs
    rw [hpiece, h] at happ
    exact Prod.ext hpiece (List.append_cancel_left happ)
  cases hp with
  | blank hspace =>
      obtain ⟨rfl, rfl⟩ := List.cons.inj h
      simp [first, hspace]
  | comment hb hr =>
      obtain ⟨rfl, rfl⟩ := List.cons.inj h
      have htake := takeWhile_run ((mem_run_iff fun _ => rfl).mpr hb) hr
      simp [first, Piece.comment, isSpace, htake]
  | token ht hl hc =>
      exact token_eq ht hl hc (first_first c cs) (by rw [first_append, h])
  | unterminated hb =>
      obtain ⟨rfl, rfl⟩ := List.cons.inj h
      have hrun := (mem_run_iff (p := (· != '"')) fun _ => rfl).mpr hb
      have htake := takeWhile_run hrun runEnds_nil
      have hdrop := dropWhile_run hrun runEnds_nil
      rw [List.append_nil] at htake hdrop
      simp [first, string, isSpace, htake, hdrop]
  | unexpected hnothing =>
      obtain ⟨rfl, rfl⟩ := List.cons.inj h
      obtain ⟨hspace, hquote, hd, hw, hsymbol⟩ := initial_eq_nothing_iff.mp hnothing
      have hslash : c ≠ '/' := by
        rintro rfl
        cases hsymbol
      simp [first, hspace, hslash, hquote, hd, hw, hsymbol]

end First

theorem first_eq_iff {p : Piece} {c : Char} {cs rest : List Char} :
    first c cs = (p, rest) ↔ c :: cs = p.text ++ rest ∧ First p rest := by
  constructor
  · intro h
    have happ := first_append c cs
    have hfirst := first_first c cs
    rw [h] at happ hfirst
    exact ⟨happ.symm, hfirst⟩
  · rintro ⟨h, hp⟩
    exact hp.first_eq h

/-! ## All pieces -/

/-- Pieces in a row, each of them the first one of the text from there on. -/
inductive Tiled : List Piece → Prop where
  | nil : Tiled []
  | cons {p : Piece} {ps : List Piece} (hp : First p (texts ps)) (hps : Tiled ps) : Tiled (p :: ps)

theorem First.of_token {kind : Kind} {literal : Option Literal} {text rest : List Char}
    (h : First ⟨text, .token kind literal⟩ rest) : Lexeme kind literal text ∧ Longest text rest := by
  cases h with
  | token ht hl _ => exact ⟨ht, hl⟩

theorem First.of_fault {fault : CompileFault} {text rest : List Char} (h : First ⟨text, .fault fault⟩ rest) :
    (fault = .unexpectedCharacter ∧ ∃ c, text = [c] ∧ initial c = .nothing) ∨
      (fault = .unterminatedString ∧ ∃ body, text = '"' :: body ∧ '"' ∉ body ∧ rest = []) := by
  cases h with
  | unexpected hc => exact .inl ⟨rfl, _, rfl, hc⟩
  | unterminated hb => exact .inr ⟨rfl, _, rfl, hb, rfl⟩

theorem First.text_ne_nil {p : Piece} {rest : List Char} (h : First p rest) : p.text ≠ [] := by
  cases h with
  | token ht _ _ =>
      obtain ⟨c, cs, rfl, -⟩ := ht.initial_eq
      simp
  | _ => simp

theorem tiled_cut (cs : List Char) : Tiled (cut cs) := by
  fun_induction cut cs with
  | case1 => exact .nil
  | case2 c cs ih =>
      refine .cons ?_ ih
      rw [texts_cut]
      exact first_first c cs

theorem Tiled.cut_texts {ps : List Piece} (h : Tiled ps) : cut (texts ps) = ps := by
  induction h with
  | nil => rw [texts_nil, cut]
  | @cons p ps hp hps ih =>
      obtain ⟨c, cs, htext⟩ := List.exists_cons_of_ne_nil hp.text_ne_nil
      have hfirst : first c (cs ++ texts ps) = (p, texts ps) := hp.first_eq (by rw [htext, List.cons_append])
      rw [texts_cons, htext, List.cons_append, cut_cons, hfirst, ih]

theorem cut_eq_iff {cs : List Char} {ps : List Piece} : cut cs = ps ↔ texts ps = cs ∧ Tiled ps := by
  constructor
  · rintro rfl
    exact ⟨texts_cut cs, tiled_cut cs⟩
  · rintro ⟨rfl, h⟩
    exact h.cut_texts

theorem Tiled.of_append {ps qs : List Piece} (h : Tiled (ps ++ qs)) : Tiled qs := by
  induction ps with
  | nil => exact h
  | cons p ps ih =>
      cases h with
      | cons hp hps => exact ih hps

theorem Tiled.first {ps qs : List Piece} {p : Piece} (h : Tiled (ps ++ p :: qs)) : First p (texts qs) := by
  cases h.of_append with
  | cons hp hqs => exact hp

theorem Tiled.eq_nil {ps : List Piece} (h : Tiled ps) (ht : texts ps = []) : ps = [] := by
  cases h with
  | nil => rfl
  | cons hp hps => exact absurd (List.append_eq_nil_iff.mp ht).1 hp.text_ne_nil

end Piece
end Reckon
