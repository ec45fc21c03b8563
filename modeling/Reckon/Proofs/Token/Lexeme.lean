import Mathlib
import Reckon.Proofs.Token.Cut

/-!
# The lexical grammar

`Lexeme kind literal text` says that a text by itself is a token of a kind, and what it stands for. A character settles
which class of tokens it can begin, and a text by itself is a token in one way at most.
-/

namespace Reckon

open Piece

def Kind.symbols : List Kind :=
  [.leftParen, .rightParen, .leftBrace, .rightBrace, .comma, .dot, .minus, .plus, .semicolon, .slash, .star,
   .bang, .bangEqual, .equal, .equalEqual, .greater, .greaterEqual, .less, .lessEqual]

structure Digits (cs : List Char) : Prop where
  ne_nil : cs ≠ []
  isDigit : ∀ c ∈ cs, c.isDigit

/-- A number is the natural number of all its digits, over ten for each digit behind the point. -/
inductive Lexeme : Kind → Option Literal → List Char → Prop where
  | symbol {kind : Kind} (hk : kind ∈ Kind.symbols) : Lexeme kind none kind.text.toList
  | string {body : List Char} (hb : '"' ∉ body) :
      Lexeme .string (some (.string (String.ofList body))) ('"' :: (body ++ ['"']))
  | integer {whole : List Char} (hw : Digits whole) :
      Lexeme .number (some (.number (Decimal.mk (Nat.ofDigitChars 10 whole 0) 0).toFloat)) whole
  | decimal {whole fraction : List Char} (hw : Digits whole) (hf : Digits fraction) :
      Lexeme .number
        (some (.number (Decimal.mk (Nat.ofDigitChars 10 (whole ++ fraction) 0) (-fraction.length)).toFloat))
        (whole ++ '.' :: fraction)
  | reserved (word : Keyword) : Lexeme (.keyword word) none word.text.toList
  | identifier {c : Char} {cs : List Char} (hc : c.isAlpha ∨ c = '_') (hcs : ∀ d ∈ cs, d.isAlphanum ∨ d = '_')
      (hw : ∀ word : Keyword, word.text.toList ≠ c :: cs) : Lexeme .identifier none (c :: cs)

/-- No token that begins where the text begins is longer, when `rest` comes after the text. -/
def Longest (text rest : List Char) : Prop :=
  ∀ kind literal other, Lexeme kind literal other → other <+: text ++ rest → other.length ≤ text.length

/-! ## Runs of characters -/

/-- A run of characters of a class ends in front of this text. -/
def RunEnds (p : Char → Bool) (cs : List Char) : Prop :=
  ∀ c ∈ cs.head?, p c = false

section
variable {p : Char → Bool} {as bs cs ds : List Char}

theorem runEnds_nil : RunEnds p [] := by simp [RunEnds]

theorem RunEnds.takeWhile_eq (h : RunEnds p cs) : cs.takeWhile p = [] := by
  cases cs with
  | nil => rfl
  | cons c cs => simp [h c rfl]

theorem RunEnds.dropWhile_eq (h : RunEnds p cs) : cs.dropWhile p = cs := by
  cases cs with
  | nil => rfl
  | cons c cs => simp [h c rfl]

theorem runEnds_dropWhile (p : Char → Bool) (cs : List Char) : RunEnds p (cs.dropWhile p) := by
  intro c hc
  have h := List.head?_dropWhile_not p cs
  rw [Option.mem_def.mp hc] at h
  simpa using h

theorem takeWhile_run (has : ∀ c ∈ as, p c) (hcs : RunEnds p cs) : (as ++ cs).takeWhile p = as := by
  rw [List.takeWhile_append_of_pos has, hcs.takeWhile_eq, List.append_nil]

theorem dropWhile_run (has : ∀ c ∈ as, p c) (hcs : RunEnds p cs) : (as ++ cs).dropWhile p = cs := by
  rw [List.dropWhile_append_of_pos has, hcs.dropWhile_eq]

theorem run_unique (has : ∀ c ∈ as, p c) (hbs : ∀ c ∈ bs, p c) (hcs : RunEnds p cs) (hds : RunEnds p ds)
    (h : as ++ cs = bs ++ ds) : as = bs ∧ cs = ds := by
  constructor
  · rw [← takeWhile_run has hcs, h, takeWhile_run hbs hds]
  · rw [← dropWhile_run has hcs, h, dropWhile_run hbs hds]

theorem length_le_of_run (hbs : ∀ c ∈ bs, p c) (hcs : RunEnds p cs) (h : bs <+: as ++ cs) : bs.length ≤ as.length := by
  obtain ⟨post, h⟩ := h
  rcases List.append_eq_append_iff.mp h with ⟨as', rfl, -⟩ | ⟨cs', rfl, rfl⟩
  · simp
  · cases cs' with
    | nil => simp
    | cons c cs' =>
        have hc := hcs c rfl
        rw [hbs c (by simp)] at hc
        cases hc
end

/-! ## What a character can begin -/

inductive Initial where
  | space | quote | digit | letter | symbol | nothing
deriving DecidableEq

def initial (c : Char) : Initial :=
  if isSpace c then .space
  else if c = '"' then .quote
  else if c.isDigit then .digit
  else if startsWord c then .letter
  else if (symbol? c).isSome then .symbol
  else .nothing

def Kind.initial : Kind → Initial
  | .string => .quote
  | .number => .digit
  | .identifier | .keyword _ => .letter
  | .eof => .nothing
  | _ => .symbol

theorem initial_eq_nothing_iff {c : Char} : initial c = .nothing ↔
    isSpace c = false ∧ c ≠ '"' ∧ c.isDigit = false ∧ startsWord c = false ∧ symbol? c = none := by
  unfold initial
  repeat' split
  all_goals simp_all [Option.isSome_iff_ne_none]

theorem initial_of_isSpace {c : Char} (hc : isSpace c) : initial c = .space := if_pos hc

theorem isSpace_iff {c : Char} : isSpace c ↔ c ∈ [' ', '\r', '\t', '\n'] := by
  simp [isSpace, or_assoc]

theorem initial_ne_of_class {p : Char → Bool} {c : Char} (hp : [' ', '\r', '\t', '\n', '"'].any p = false) (hc : p c) :
    isSpace c = false ∧ c ≠ '"' := by
  have hnot := List.any_eq_false.mp hp
  constructor
  · refine Bool.eq_false_iff.mpr fun hs => hnot c ?_ hc
    exact List.mem_append_left ['"'] (isSpace_iff.mp hs)
  · rintro rfl
    exact hnot '"' (by simp) hc

theorem initial_of_isDigit {c : Char} (hc : c.isDigit) : initial c = .digit := by
  obtain ⟨hs, hq⟩ := initial_ne_of_class (p := Char.isDigit) rfl hc
  simp [initial, hs, hq, hc]

theorem isDigit_eq_false_of_startsWord {c : Char} (hc : startsWord c) : c.isDigit = false := by
  refine Bool.eq_false_iff.mpr fun hd => ?_
  simp only [startsWord, Char.isAlpha, Char.isUpper, Char.isLower, Char.isDigit, Bool.or_eq_true, Bool.and_eq_true,
    decide_eq_true_eq, beq_iff_eq, UInt32.le_iff_toNat_le] at hc hd
  rcases hc with (hc | hc) | rfl
  · simp at hc hd
    omega
  · simp at hc hd
    omega
  · simp at hd

theorem initial_of_startsWord {c : Char} (hc : startsWord c) : initial c = .letter := by
  obtain ⟨hs, hq⟩ := initial_ne_of_class (p := startsWord) rfl hc
  simp [initial, hs, hq, isDigit_eq_false_of_startsWord hc, hc]

theorem initial_of_symbol? {c : Char} {kind : Kind} (hc : symbol? c = some kind) : initial c = .symbol := by
  unfold symbol? at hc
  split at hc <;> first | rfl | cases hc

/-! ## Symbols -/

theorem lexeme_of_symbol? {c : Char} {kind : Kind} (hc : symbol? c = some kind) : Lexeme kind none [c] := by
  have hk : kind ∈ Kind.symbols ∧ kind.text.toList = [c] := by
    unfold symbol? at hc
    split at hc <;> cases hc <;> decide +kernel
  rw [← hk.2]
  exact .symbol hk.1

theorem lexeme_of_withEqual? {c : Char} {kind joined : Kind} (hc : symbol? c = some kind)
    (hj : withEqual? kind = some joined) : Lexeme joined none [c, '='] := by
  have hk : joined ∈ Kind.symbols ∧ joined.text.toList = [c, '='] := by
    unfold symbol? at hc
    split at hc <;> cases hc <;> cases hj <;> decide +kernel
  rw [← hk.2]
  exact .symbol hk.1

theorem Kind.text_of_mem_symbols {kind : Kind} (hk : kind ∈ Kind.symbols) :
    (∃ c, kind.text.toList = [c] ∧ symbol? c = some kind) ∨
      ∃ c base, kind.text.toList = [c, '='] ∧ symbol? c = some base ∧ withEqual? base = some kind := by
  simp only [Kind.symbols, List.mem_cons, List.not_mem_nil, or_false] at hk
  rcases hk with rfl | rfl | rfl | rfl | rfl | rfl | rfl | rfl | rfl | rfl | rfl | rfl | rfl | rfl | rfl | rfl | rfl |
    rfl | rfl
  all_goals first
    | exact .inl ⟨_, by simp [Kind.text]; rfl, rfl⟩
    | exact .inr ⟨_, _, by simp [Kind.text]; rfl, rfl, rfl⟩

theorem Keyword.text_ne_nil (word : Keyword) : word.text.toList ≠ [] := by
  cases word <;> simp [text]

theorem Keyword.startsWord_of_mem {word : Keyword} {c : Char} (hc : c ∈ word.text.toList) : startsWord c := by
  have hall : word.text.toList.all startsWord := by cases word <;> decide +kernel
  exact List.all_eq_true.mp hall c hc

theorem Kind.initial_of_mem_symbols {kind : Kind} (hk : kind ∈ Kind.symbols) : kind.initial = .symbol := by
  revert kind
  decide

theorem wordKind_text (word : Keyword) : wordKind word.text.toList = .keyword word := by
  rw [wordKind, Keyword.ofLetters?_text]

theorem wordKind_of_ne {cs : List Char} (h : ∀ word : Keyword, word.text.toList ≠ cs) : wordKind cs = .identifier := by
  rw [wordKind]
  cases hw : Keyword.ofLetters? cs with
  | none => rfl
  | some word => exact absurd (Keyword.text_of_ofLetters? hw) (h word)

theorem point_not_mem_digits {cs : List Char} (h : Digits cs) : '.' ∉ cs := by
  intro hmem
  cases h.isDigit '.' hmem

/-! ## One token at most -/

namespace Lexeme

theorem initial_eq {kind : Kind} {literal : Option Literal} {text : List Char} (h : Lexeme kind literal text) :
    ∃ c cs, text = c :: cs ∧ initial c = kind.initial := by
  cases h with
  | symbol hk =>
      have hi := Kind.initial_of_mem_symbols hk
      rcases Kind.text_of_mem_symbols hk with ⟨c, ht, hc⟩ | ⟨c, base, ht, hc, -⟩
      · exact ⟨c, [], ht, (initial_of_symbol? hc).trans hi.symm⟩
      · exact ⟨c, ['='], ht, (initial_of_symbol? hc).trans hi.symm⟩
  | string hb => exact ⟨_, _, rfl, rfl⟩
  | integer hw =>
      obtain ⟨c, cs, rfl⟩ := List.exists_cons_of_ne_nil hw.ne_nil
      exact ⟨c, cs, rfl, initial_of_isDigit (hw.isDigit c (by simp))⟩
  | decimal hw hf =>
      obtain ⟨c, cs, rfl⟩ := List.exists_cons_of_ne_nil hw.ne_nil
      exact ⟨c, _, rfl, initial_of_isDigit (hw.isDigit c (by simp))⟩
  | reserved word =>
      obtain ⟨c, cs, hcs⟩ := List.exists_cons_of_ne_nil word.text_ne_nil
      exact ⟨c, cs, hcs, initial_of_startsWord (Keyword.startsWord_of_mem (hcs ▸ List.mem_cons_self))⟩
  | identifier hc hcs hw =>
      refine ⟨_, _, rfl, initial_of_startsWord ?_⟩
      simpa [startsWord] using hc

section
variable {kind kind' : Kind} {literal literal' : Option Literal} {text : List Char}

/-- The beginning of a text settles the class of a token that begins there. -/
theorem initial_of_prefix (h : Lexeme kind literal text) {c : Char} {cs : List Char} (hp : text <+: c :: cs) :
    kind.initial = initial c := by
  obtain ⟨d, ds, rfl, hd⟩ := h.initial_eq
  rw [← hd, (List.cons_prefix_cons.mp hp).1]

theorem initial_ne (h : Lexeme kind literal text) : kind.initial ≠ .space ∧ kind.initial ≠ .nothing := by
  cases h with
  | symbol hs => simp [Kind.initial_of_mem_symbols hs]
  | _ => simp [Kind.initial]

theorem of_quote (h : Lexeme kind literal text) (hk : kind.initial = .quote) :
    ∃ body, '"' ∉ body ∧ text = '"' :: (body ++ ['"']) ∧ kind = .string ∧
      literal = some (.string (String.ofList body)) := by
  cases h with
  | string hb => exact ⟨_, hb, rfl, rfl, rfl⟩
  | symbol hs =>
      rw [Kind.initial_of_mem_symbols hs] at hk
      cases hk
  | integer _ => cases hk
  | decimal _ _ => cases hk
  | reserved _ => cases hk
  | identifier _ _ _ => cases hk

theorem of_digit (h : Lexeme kind literal text) (hk : kind.initial = .digit) :
    kind = .number ∧
      ((Digits text ∧ literal = some (.number (Decimal.mk (Nat.ofDigitChars 10 text 0) 0).toFloat)) ∨
        ∃ whole fraction, Digits whole ∧ Digits fraction ∧ text = whole ++ '.' :: fraction ∧
          literal =
            some (.number (Decimal.mk (Nat.ofDigitChars 10 (whole ++ fraction) 0) (-fraction.length)).toFloat)) := by
  cases h with
  | integer hw => exact ⟨rfl, .inl ⟨hw, rfl⟩⟩
  | decimal hw hf => exact ⟨rfl, .inr ⟨_, _, hw, hf, rfl, rfl⟩⟩
  | symbol hs =>
      rw [Kind.initial_of_mem_symbols hs] at hk
      cases hk
  | string _ => cases hk
  | reserved _ => cases hk
  | identifier _ _ _ => cases hk

theorem of_letter (h : Lexeme kind literal text) (hk : kind.initial = .letter) :
    kind = wordKind text ∧ literal = none ∧ ∀ c ∈ text, continuesWord c := by
  cases h with
  | reserved word =>
      refine ⟨(wordKind_text word).symm, rfl, fun c hc => ?_⟩
      simp [continuesWord, Keyword.startsWord_of_mem hc]
  | identifier hc hcs hw =>
      refine ⟨(wordKind_of_ne hw).symm, rfl, fun d hd => ?_⟩
      rcases List.mem_cons.mp hd with rfl | hd
      · simp [continuesWord, startsWord, hc]
      · have := hcs d hd
        simp only [Char.isAlphanum, Bool.or_eq_true] at this
        simp only [continuesWord, startsWord, Bool.or_eq_true, beq_iff_eq]
        rcases this with (h | h) | h <;> simp [h]
  | symbol hs =>
      rw [Kind.initial_of_mem_symbols hs] at hk
      cases hk
  | string _ => cases hk
  | integer _ => cases hk
  | decimal _ _ => cases hk

theorem of_symbol (h : Lexeme kind literal text) (hk : kind.initial = .symbol) :
    literal = none ∧ ((∃ c, text = [c] ∧ symbol? c = some kind) ∨
      ∃ c base, text = [c, '='] ∧ symbol? c = some base ∧ withEqual? base = some kind) := by
  cases h with
  | symbol hs => exact ⟨rfl, Kind.text_of_mem_symbols hs⟩
  | string _ => cases hk
  | integer _ => cases hk
  | decimal _ _ => cases hk
  | reserved _ => cases hk
  | identifier _ _ _ => cases hk

theorem unique (h : Lexeme kind literal text) (h' : Lexeme kind' literal' text) : kind = kind' ∧ literal = literal' := by
  obtain ⟨c, cs, rfl, hc⟩ := h.initial_eq
  have hk := h.initial_of_prefix (List.prefix_refl _)
  have hk' := h'.initial_of_prefix (List.prefix_refl _)
  cases hi : initial c with
  | quote =>
      obtain ⟨body, -, htext, rfl, rfl⟩ := h.of_quote (hk.trans hi)
      obtain ⟨body', -, htext', rfl, rfl⟩ := h'.of_quote (hk'.trans hi)
      have hbody : body = body' := by simpa [htext] using htext'
      exact ⟨rfl, by rw [hbody]⟩
  | digit =>
      obtain ⟨rfl, hnumber⟩ := h.of_digit (hk.trans hi)
      obtain ⟨rfl, hnumber'⟩ := h'.of_digit (hk'.trans hi)
      refine ⟨rfl, ?_⟩
      rcases hnumber with ⟨hd, rfl⟩ | ⟨whole, fraction, hw, hf, htext, rfl⟩ <;>
        rcases hnumber' with ⟨hd', rfl⟩ | ⟨whole', fraction', hw', hf', htext', rfl⟩
      · rfl
      · exact absurd (by simp [htext']) (point_not_mem_digits hd)
      · exact absurd (by simp [htext]) (point_not_mem_digits hd')
      · rw [htext] at htext'
        have hpoint (cs : List Char) : RunEnds Char.isDigit ('.' :: cs) := by simp [RunEnds]
        obtain ⟨rfl, hfraction⟩ := run_unique hw.isDigit hw'.isDigit (hpoint _) (hpoint _) htext'
        obtain ⟨-, rfl⟩ := List.cons.inj hfraction
        rfl
  | letter =>
      obtain ⟨rfl, rfl, -⟩ := h.of_letter (hk.trans hi)
      obtain ⟨rfl, rfl, -⟩ := h'.of_letter (hk'.trans hi)
      exact ⟨rfl, rfl⟩
  | symbol =>
      obtain ⟨rfl, hs⟩ := h.of_symbol (hk.trans hi)
      obtain ⟨rfl, hs'⟩ := h'.of_symbol (hk'.trans hi)
      refine ⟨?_, rfl⟩
      rcases hs with ⟨d, ht, hd⟩ | ⟨d, base, ht, hd, hj⟩ <;> rcases hs' with ⟨d', ht', hd'⟩ | ⟨d', base', ht', hd', hj'⟩
      all_goals
        rw [ht] at ht'
        simp at ht'
      · simp_all
      · subst ht'
        rw [hd] at hd'
        cases hd'
        rw [hj] at hj'
        exact Option.some.inj hj'
  | space => exact absurd (hk.trans hi) h.initial_ne.1
  | nothing => exact absurd (hk.trans hi) h.initial_ne.2
end

end Lexeme
end Reckon
