/-!
# Text measured in bytes

Texts are lists of characters, and places in them are counted in bytes of UTF-8. This module holds the length of
a text, the places where its characters end, the part of a text between two places, and where its lines begin. Classes of
characters are given as ranges of code points.
-/

namespace Reckon.Text

def byteLength : List Char → Nat
  | [] => 0
  | c :: cs => c.utf8Size + byteLength cs

/-- The places where the characters of a text end, when the text begins at `start`. -/
def ends (start : Nat) : List Char → List Nat
  | [] => []
  | c :: cs => (start + c.utf8Size) :: ends (start + c.utf8Size) cs

/-- A place between two characters, or at either end. -/
def isBoundary (cs : List Char) (place : Nat) : Bool :=
  place == 0 || (ends 0 cs).contains place

/-- The characters that begin at or after `start` and before `stop`, when the text itself begins at `place`. -/
def sliceAt (place start stop : Nat) : List Char → List Char
  | [] => []
  | c :: cs =>
      let rest := sliceAt (place + c.utf8Size) start stop cs
      if start ≤ place ∧ place < stop then c :: rest else rest

def slice (cs : List Char) (start stop : Nat) : List Char :=
  sliceAt 0 start stop cs

def lineBreaks (cs : List Char) : Nat :=
  cs.count '\n'

/-- The places just after each line break, when the text begins at `start`. -/
def breakEnds (start : Nat) : List Char → List Nat
  | [] => []
  | c :: cs =>
      let next := start + c.utf8Size
      if c = '\n' then next :: breakEnds next cs else breakEnds next cs

/-- Where the lines of a text begin: at its beginning and after each line break. -/
def lineStarts (cs : List Char) : List Nat :=
  0 :: breakEnds 0 cs

def inRanges (ranges : List (Nat × Nat)) (c : Char) : Bool :=
  ranges.any fun (first, last) => first ≤ c.toNat && c.toNat ≤ last

/-! ## Lengths -/

@[simp] theorem byteLength_nil : byteLength [] = 0 := rfl

@[simp] theorem byteLength_cons (c : Char) (cs : List Char) : byteLength (c :: cs) = c.utf8Size + byteLength cs := rfl

@[simp] theorem byteLength_append (as bs : List Char) :
    byteLength (as ++ bs) = byteLength as + byteLength bs := by
  induction as with
  | nil => simp
  | cons c as ih => simp [ih, Nat.add_assoc]

@[simp] theorem lineBreaks_append (as bs : List Char) :
    lineBreaks (as ++ bs) = lineBreaks as + lineBreaks bs := by
  simp [lineBreaks]

/-! ## Slices -/

section
variable {place start stop : Nat} {cs : List Char}

theorem sliceAt_append (place start stop : Nat) (as bs : List Char) : sliceAt place start stop (as ++ bs) =
    sliceAt place start stop as ++ sliceAt (place + byteLength as) start stop bs := by
  induction as generalizing place with
  | nil => rfl
  | cons c as ih =>
    simp only [List.cons_append, sliceAt, ih, byteLength_cons, Nat.add_assoc]
    split <;> rfl

theorem sliceAt_of_le_start (h : place + byteLength cs ≤ start) : sliceAt place start stop cs = [] := by
  induction cs generalizing place with
  | nil => rfl
  | cons c cs ih =>
    have := c.utf8Size_pos
    rw [byteLength_cons] at h
    rw [sliceAt, if_neg (by omega)]
    exact ih (by omega)

theorem sliceAt_of_stop_le (h : stop ≤ place) : sliceAt place start stop cs = [] := by
  induction cs generalizing place with
  | nil => rfl
  | cons c cs ih =>
    rw [sliceAt, if_neg (by omega)]
    exact ih (by omega)

theorem sliceAt_of_within (hstart : start ≤ place) (hstop : place + byteLength cs ≤ stop) :
    sliceAt place start stop cs = cs := by
  induction cs generalizing place with
  | nil => rfl
  | cons c cs ih =>
    have := c.utf8Size_pos
    rw [byteLength_cons] at hstop
    rw [sliceAt, if_pos (by omega), ih (by omega) (by omega)]

end

theorem slice_append (before cs after : List Char) :
    slice (before ++ cs ++ after) (byteLength before) (byteLength before + byteLength cs) = cs := by
  rw [slice, sliceAt_append, sliceAt_append, sliceAt_of_le_start (by omega),
    sliceAt_of_within (by omega) (by omega), sliceAt_of_stop_le (by simp)]
  simp

theorem slice_prefix (cs after : List Char) : slice (cs ++ after) 0 (byteLength cs) = cs := by
  have h := slice_append [] cs after
  rwa [byteLength_nil, Nat.zero_add, List.nil_append] at h

theorem slice_suffix (before cs : List Char) :
    slice (before ++ cs) (byteLength before) (byteLength (before ++ cs)) = cs := by
  have h := slice_append before cs []
  rwa [List.append_nil, ← byteLength_append] at h

theorem slice_end (cs : List Char) : slice cs (byteLength cs) (byteLength cs) = [] := by
  have h := slice_suffix cs []
  rwa [List.append_nil] at h

end Reckon.Text
