import Reckon.Source.LineTable
import Reckon.Token.Piece

/-!
# Scanning

A scanner goes over a source piece by piece. It keeps what is left of the source, the place it has come to with the
line starts met on the way, and the errors met on the way. Faulty pieces are recorded and passed over like blanks, so
that scanning always goes on to the end, where `eof` stands and is found again as often as one asks.
-/

namespace Reckon

/-- A place in a source, in bytes, with the beginnings of the lines up to there. -/
structure Position where
  offset : Nat
  lineStarts : Array Nat
deriving Repr, Inhabited

namespace Position

def start : Position := ⟨0, #[0]⟩

def line (p : Position) : Nat :=
  p.lineStarts.size - 1

/-- The place after a character. A line begins after each line break. -/
def pass : Position → Char → Position
  | ⟨offset, lineStarts⟩, c =>
      let next := offset + c.utf8Size
      ⟨next, if c = '\n' then lineStarts.push next else lineStarts⟩

def after (p : Position) (cs : List Char) : Position :=
  cs.foldl pass p

end Position

/-- All that scanning a source gives. -/
structure Scan where
  /-- In the order of the source, the last one `eof`. -/
  tokens : List Token
  /-- In the order of the source. -/
  errors : List CompileError
  lines : LineTable
deriving Repr

structure Scanner where
  rest : List Char
  here : Position
  errors : Array CompileError
deriving Repr

namespace Scanner

def ofSource (source : String) : Scanner :=
  ⟨source.toList, .start, #[]⟩

def eof (s : Scanner) : Token :=
  .eof s.here.line s.here.offset

/-- Passes a piece, with `rest` after it, and records the error if it is faulty. Gives the span of the piece too. -/
def pass : Scanner → Piece → List Char → Span × Scanner
  | ⟨_, here, errors⟩, piece, rest =>
      let start := here.offset
      let there := here.after piece.text
      let span : Span := ⟨start, there.offset⟩
      match piece.content with
      | .fault fault => (span, ⟨rest, there, errors.push (.lexical there.line span fault)⟩)
      | _ => (span, ⟨rest, there, errors⟩)

@[simp] theorem pass_rest (s : Scanner) (piece : Piece) (rest : List Char) : (s.pass piece rest).2.rest = rest := by
  obtain ⟨_, here, errors⟩ := s
  simp only [pass]
  split <;> rfl

/-- The next token, if one is left. The scanner moves behind it, or to the end of the source. -/
def next? (s : Scanner) : Option Token × Scanner :=
  match _h : s.rest with
  | [] => (none, s)
  | c :: cs =>
      let found := Piece.first c cs
      let passed := s.pass found.1 found.2
      match found.1.content with
      | .token kind literal =>
          (some ⟨kind, String.ofList found.1.text, literal, passed.2.here.line, passed.1⟩, passed.2)
      | _ => passed.2.next?
termination_by s.rest.length
decreasing_by
  rw [_h, pass_rest]
  exact Piece.length_first_lt c cs

theorem length_next?_lt {s t : Scanner} {token : Token} (h : s.next? = (some token, t)) :
    t.rest.length < s.rest.length := by
  fun_induction next? s with
  | case1 s hs => simp at h
  | case2 s c cs hs found passed kind literal hc =>
    obtain ⟨-, rfl⟩ := Prod.mk.inj h
    rw [hs, pass_rest]
    exact Piece.length_first_lt c cs
  | case3 s c cs hs found passed hc ih =>
    rw [hs]
    exact Nat.lt_trans (by simpa [passed] using ih h) (Piece.length_first_lt c cs)

/-- The next token, which at the end of the source is `eof`. -/
def token (s : Scanner) : Token × Scanner :=
  match s.next? with
  | (some token, s) => (token, s)
  | (none, s) => (s.eof, s)

/-- Scans to the end, after the tokens of `found`, the last of which comes first. -/
def finishAfter (found : List Token) (s : Scanner) : Scan :=
  match _h : s.next? with
  | (some token, t) => finishAfter (token :: found) t
  | (none, t) =>
      { tokens := (t.eof :: found).reverse
        errors := t.errors.toList
        lines := ⟨t.here.lineStarts, t.here.offset⟩ }
termination_by s.rest.length
decreasing_by exact length_next?_lt _h

/-- Scans what is left of the source. The errors and lines are those of the whole source. -/
def finish (s : Scanner) : Scan :=
  s.finishAfter []

end Scanner

def scan (source : String) : Scan :=
  (Scanner.ofSource source).finish

end Reckon
