import Reckon.Error

/-!
# Pieces of a source

A source is cut into pieces: blanks and comments, tokens, and parts in which something is wrong. `Piece.first` takes
the first piece off a text. Nothing is lost by it, and no piece is empty.

A token is as long as it can be: a symbol takes an equals sign after it if there is a symbol of both, a word all the
letters and digits, a number all the digits, and the point only if a digit follows.
-/

namespace Reckon

inductive Piece.Content where
  | blank
  | token (kind : Kind) (literal : Option Literal)
  | fault (fault : CompileFault)
deriving Repr

structure Piece where
  text : List Char
  content : Piece.Content
deriving Repr

namespace Piece

/-! ## Characters -/

/-- The blank characters between tokens, line breaks included. -/
def isSpace (c : Char) : Bool :=
  c == ' ' || c == '\r' || c == '\t' || c == '\n'

/-- An ASCII letter or an underscore. -/
def startsWord (c : Char) : Bool :=
  c.isAlpha || c == '_'

def continuesWord (c : Char) : Bool :=
  startsWord c || c.isDigit

def symbol? : Char → Option Kind
  | '(' => some .leftParen
  | ')' => some .rightParen
  | '\x7b' => some .leftBrace
  | '\x7d' => some .rightBrace
  | ',' => some .comma
  | '.' => some .dot
  | '-' => some .minus
  | '+' => some .plus
  | ';' => some .semicolon
  | '/' => some .slash
  | '*' => some .star
  | '!' => some .bang
  | '=' => some .equal
  | '<' => some .less
  | '>' => some .greater
  | _ => none

/-- The symbol that a symbol and an equals sign make together. -/
def withEqual? : Kind → Option Kind
  | .bang => some .bangEqual
  | .equal => some .equalEqual
  | .less => some .lessEqual
  | .greater => some .greaterEqual
  | _ => none

/-! ## Sorts of pieces -/

/-- Runs to the end of the line, without the line break. -/
def comment (cs : List Char) : Piece × List Char :=
  (⟨'/' :: cs.takeWhile (· != '\n'), .blank⟩, cs.dropWhile (· != '\n'))

/-- Runs to the next quote, over line breaks too, and is at fault if there is none. -/
def string (cs : List Char) : Piece × List Char :=
  let body := cs.takeWhile (· != '"')
  match cs.dropWhile (· != '"') with
  | [] => (⟨'"' :: body, .fault .unterminatedString⟩, [])
  | quote :: rest => (⟨'"' :: (body ++ [quote]), .token .string (some (.string (String.ofList body)))⟩, rest)

/-- Splits a text after the numeral it begins with. -/
def splitNumeral (cs : List Char) : List Char × List Char :=
  let whole := cs.takeWhile Char.isDigit
  match cs.dropWhile Char.isDigit with
  | '.' :: d :: rest =>
      if d.isDigit then
        (whole ++ '.' :: d :: rest.takeWhile Char.isDigit, rest.dropWhile Char.isDigit)
      else (whole, '.' :: d :: rest)
  | rest => (whole, rest)

def number (cs : List Char) : Piece × List Char :=
  let (text, rest) := splitNumeral cs
  match Decimal.ofNumeral? text with
  | some d => (⟨text, .token .number (some (.number d.toFloat))⟩, rest)
  | none => (⟨text, .fault .invalidNumber⟩, rest)

def wordKind (letters : List Char) : Kind :=
  match Keyword.ofLetters? letters with
  | some word => .keyword word
  | none => .identifier

def word (cs : List Char) : Piece × List Char :=
  let letters := cs.takeWhile continuesWord
  (⟨letters, .token (wordKind letters) none⟩, cs.dropWhile continuesWord)

def symbol (c : Char) (kind : Kind) (cs : List Char) : Piece × List Char :=
  match withEqual? kind, cs with
  | some joined, '=' :: rest => (⟨[c, '='], .token joined none⟩, rest)
  | _, _ => (⟨[c], .token kind none⟩, cs)

/-- The first piece of the text `c :: cs`, and the text after it. -/
def first (c : Char) (cs : List Char) : Piece × List Char :=
  if isSpace c then (⟨[c], .blank⟩, cs)
  else if c = '/' ∧ cs.head? = some '/' then comment cs
  else if c = '"' then string cs
  else if c.isDigit then number (c :: cs)
  else if startsWord c then word (c :: cs)
  else
    match symbol? c with
    | some kind => symbol c kind cs
    | none => (⟨[c], .fault .unexpectedCharacter⟩, cs)

/-! ## Nothing is lost -/

theorem splitNumeral_append (cs : List Char) : (splitNumeral cs).1 ++ (splitNumeral cs).2 = cs := by
  unfold splitNumeral
  split
  · rename_i d rest h
    split
    · simp only [List.append_assoc, List.cons_append, List.takeWhile_append_dropWhile]
      rw [← h, List.takeWhile_append_dropWhile]
    · rw [← h, List.takeWhile_append_dropWhile]
  · simp [List.takeWhile_append_dropWhile]

theorem string_append (cs : List Char) : (string cs).1.text ++ (string cs).2 = '"' :: cs := by
  have h := List.takeWhile_append_dropWhile (p := (· != '"')) (l := cs)
  unfold string
  split
  · rename_i hd
    simpa [hd] using h
  · rename_i hd
    simpa [hd] using h

theorem number_append (cs : List Char) : (number cs).1.text ++ (number cs).2 = cs := by
  have h := splitNumeral_append cs
  unfold number
  split
  rename_i hs
  rw [hs] at h
  split <;> exact h

/-- A piece and the text after it make up the text that the piece was taken off. -/
theorem first_append (c : Char) (cs : List Char) : (first c cs).1.text ++ (first c cs).2 = c :: cs := by
  unfold first
  split
  · rfl
  split
  · rename_i h
    simp [comment, h.1, List.takeWhile_append_dropWhile]
  split
  · rename_i h
    rw [h, string_append]
  split
  · exact number_append _
  split
  · exact List.takeWhile_append_dropWhile
  split
  · unfold symbol
    split <;> rfl
  · rfl

theorem splitNumeral_ne_nil {c : Char} (h : c.isDigit) (cs : List Char) : (splitNumeral (c :: cs)).1 ≠ [] := by
  unfold splitNumeral
  split
  · split <;> simp [h]
  · simp [h]

theorem first_ne_nil (c : Char) (cs : List Char) : (first c cs).1.text ≠ [] := by
  unfold first
  split
  · simp
  split
  · simp [comment]
  split
  · unfold string
    split <;> simp
  split
  · rename_i h
    have := splitNumeral_ne_nil h cs
    unfold number
    split
    rename_i hs
    rw [hs] at this
    split <;> exact this
  split
  · rename_i h
    simp [word, continuesWord, h]
  split
  · unfold symbol
    split <;> simp
  · simp

theorem length_first_lt (c : Char) (cs : List Char) : (first c cs).2.length < (c :: cs).length := by
  have h := congrArg List.length (first_append c cs)
  have := List.length_pos_iff.mpr (first_ne_nil c cs)
  rw [List.length_append] at h
  omega

end Piece
end Reckon
