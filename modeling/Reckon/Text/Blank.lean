import Reckon.Text.Basic

/-!
# Blank characters

The characters with the Unicode property `White_Space`, and texts without the blank characters at their ends.
-/

namespace Reckon.Text

/-- The characters with the property `White_Space`, as ranges of code points. -/
def blankRanges : List (Nat × Nat) :=
  [(0x09, 0x0d), (0x20, 0x20), (0x85, 0x85), (0xa0, 0xa0), (0x1680, 0x1680), (0x2000, 0x200a),
   (0x2028, 0x2029), (0x202f, 0x202f), (0x205f, 0x205f), (0x3000, 0x3000)]

def isBlank (c : Char) : Bool :=
  inRanges blankRanges c

def trimStart (cs : List Char) : List Char :=
  cs.dropWhile isBlank

def allBlank (cs : List Char) : Bool :=
  cs.all isBlank

theorem isBlank_of_isWhitespace {c : Char} (h : c.isWhitespace) : isBlank c := by
  have : c = ' ' ∨ c = '\t' ∨ c = '\r' ∨ c = '\n' := by
    simpa [Char.isWhitespace, or_assoc] using h
  rcases this with rfl | rfl | rfl | rfl <;> decide

theorem allBlank_iff_trimStart_eq_nil (cs : List Char) : allBlank cs ↔ trimStart cs = [] := by
  induction cs with
  | nil => simp [allBlank, trimStart]
  | cons c cs ih =>
    cases h : isBlank c <;> simp_all [allBlank, trimStart]

end Reckon.Text
