/-!
# Bytes and lines

Bytes read as UTF-8, and bytes cut after each line break.
-/

namespace Reckon.Text

/-- The text with these bytes, if they are valid UTF-8. -/
def decode? (bytes : List UInt8) : Option String :=
  String.fromUTF8? ⟨bytes.toArray⟩

/-- Cuts bytes after each line break. What follows the last one is a line if it is not empty. -/
def byteLines : List UInt8 → List (List UInt8)
  | [] => []
  | b :: bytes =>
      if b = 10 then [b] :: byteLines bytes
      else
        match byteLines bytes with
        | [] => [[b]]
        | line :: lines => (b :: line) :: lines

theorem flatten_byteLines (bytes : List UInt8) : (byteLines bytes).flatten = bytes := by
  induction bytes with
  | nil => rfl
  | cons b bytes ih =>
    unfold byteLines
    split
    · simp [ih]
    · split <;> simp_all

end Reckon.Text
