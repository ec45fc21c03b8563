import Reckon.Proofs.Number.Places
import Reckon.Proofs.Number.Positional

/-!
# Distinct texts

What is written for a magnitude, in whichever notation, is written for no other one (`Layout.Writes.unique`), so that in a
layout that tells the zeros apart different numbers have different texts (`write_literal_inj`). The other layout does not
tell apart what is equal (`write_result_eq_iff`).
-/

namespace Reckon

theorem Digits.ne {c : Char} {ds : List Char} (hds : Digits ds) (hc : c.isDigit = false) : ∀ d ∈ ds, d ≠ c := by
  rintro d hd rfl
  rw [hds.isDigit d hd] at hc
  cases hc

theorem Digits.exists_head {ds : List Char} (hds : Digits ds) : ∃ c rest, ds = c :: rest ∧ c.isDigit := by
  obtain ⟨c, rest, rfl⟩ := List.exists_cons_of_ne_nil hds.ne_nil
  exact ⟨c, rest, rfl, hds.isDigit c (by simp)⟩

namespace Decimal

variable {d d' : Decimal} {ds es : List Char}

/-! ## Positional notation -/

theorem pattern_eq_of_positional_eq (hd : d.pattern < Number.infinity) (hd' : d'.pattern < Number.infinity)
    (h : d.positional = d'.positional) : d.pattern = d'.pattern := by
  have hlexeme := lexeme_positional d
  rw [h] at hlexeme
  have hfloat : d.toFloat = d'.toFloat := by
    simpa using (hlexeme.unique (lexeme_positional d')).2
  rw [← Number.pattern_ofPattern hd, ← Number.pattern_ofPattern hd', ← toFloat, ← toFloat, hfloat]

theorem positional_head (d : Decimal) : ∃ c rest, d.positional = c :: rest ∧ c.isDigit := by
  rcases Int.lt_or_le d.exponent 0 with he | he
  · obtain ⟨whole, fraction, hd⟩ := exists_pointed he
    obtain ⟨c, rest, rfl, hc⟩ := hd.digits_whole.exists_head
    exact ⟨c, _, hd.text, hc⟩
  · exact (digits_positional he).exists_head

theorem mem_positional {c : Char} (h : c ∈ d.positional) : c.isDigit ∨ c = '.' := by
  rcases Int.lt_or_le d.exponent 0 with he | he
  · obtain ⟨whole, fraction, hd⟩ := exists_pointed he
    rw [hd.text] at h
    rcases List.mem_append.mp h with h | h
    · exact .inl (hd.digits_whole.isDigit c h)
    · rcases List.mem_cons.mp h with rfl | h
      · exact .inr rfl
      · exact .inl (hd.digits_fraction.isDigit c h)
  · exact .inl ((digits_positional he).isDigit c h)

/-! ## Notation with an exponent -/

theorem eq_of_toDigits_eq {n m : Nat} (h : Nat.toDigits 10 n = Nat.toDigits 10 m) : n = m := by
  rw [← Nat.ofDigitChars_ten_toDigits (n := n), h, Nat.ofDigitChars_ten_toDigits]

theorem digits_numerals (d : Decimal) : Digits d.numerals :=
  digits_toDigits d.digits

theorem mem_significand {c : Char} (h : c ∈ significand ds) : c ∈ ds ∨ c = '.' := by
  unfold significand at h
  split at h
  · rcases List.mem_cons.mp h with rfl | h
    · exact .inl (by simp)
    · rcases List.mem_cons.mp h with rfl | h
      · exact .inr rfl
      · exact .inl (List.mem_cons_of_mem _ h)
  · exact .inl h

/-- The digits are left if the point is taken out. -/
theorem filter_significand (hds : Digits ds) : (significand ds).filter (· ≠ '.') = ds := by
  have hself : ds.filter (· ≠ '.') = ds := by
    rw [List.filter_eq_self]
    intro c hc
    simpa using hds.ne (c := '.') rfl c hc
  unfold significand
  split
  · rw [← List.singleton_append, List.filter_append] at hself ⊢
    exact hself
  · exact hself

/-- The letter parts the digits from the exponent. -/
theorem eq_of_exponential_eq {n m : Int} (hds : Digits ds) (hes : Digits es) (h : exponential ds n = exponential es m) :
    ds = es ∧ n = m := by
  have hletter : ∀ {fs}, Digits fs → ∀ c ∈ significand fs, decide (c ≠ 'e') := by
    intro fs hfs c hc
    rw [decide_eq_true_iff]
    rcases mem_significand hc with hc | rfl
    · exact hfs.ne rfl c hc
    · decide
  have hends : ∀ cs, RunEnds (fun c => decide (c ≠ 'e')) ('e' :: cs) := by
    intro cs c hc
    obtain rfl : 'e' = c := by simpa using hc
    rfl
  obtain ⟨hsignificand, hexponent⟩ := run_unique (hletter hds) (hletter hes) (hends _) (hends _) h
  simp only [List.cons.injEq, true_and] at hexponent
  obtain ⟨hsign, hnatAbs⟩ := hexponent
  have habs := eq_of_toDigits_eq hnatAbs
  refine ⟨?_, ?_⟩
  · rw [← filter_significand hds, hsignificand, filter_significand hes]
  · split at hsign <;> split at hsign
    · omega
    · cases hsign
    · cases hsign
    · omega

theorem scientific_head (d : Decimal) : ∃ c rest, d.scientific = c :: rest ∧ c.isDigit := by
  obtain ⟨c, rest, hds, hc⟩ := d.digits_numerals.exists_head
  rw [scientific_eq_exponential, exponential, hds]
  cases rest <;> exact ⟨c, _, rfl, hc⟩

theorem letter_mem_scientific (d : Decimal) : 'e' ∈ d.scientific := by
  rw [scientific_eq_exponential, exponential]
  exact List.mem_append_right _ (by simp)

theorem mem_scientific {c : Char} (h : c ∈ d.scientific) : c.isAlphanum ∨ c ∈ ['.', '+', '-'] := by
  rw [scientific_eq_exponential, exponential] at h
  rcases List.mem_append.mp h with h | h
  · rcases mem_significand h with h | rfl
    · exact .inl (by simp [Char.isAlphanum, d.digits_numerals.isDigit c h])
    · exact .inr (by simp)
  · rcases List.mem_cons.mp h with rfl | h
    · exact .inl rfl
    · rcases List.mem_cons.mp h with rfl | h
      · split <;> exact .inr (by simp)
      · exact .inl (by simp [Char.isAlphanum, (digits_toDigits _).isDigit c h])

theorem eq_of_scientific_eq (h : d.scientific = d'.scientific) : d = d' := by
  rw [scientific_eq_exponential, scientific_eq_exponential] at h
  obtain ⟨hnumerals, horder⟩ := eq_of_exponential_eq d.digits_numerals d'.digits_numerals h
  have hdigits := eq_of_toDigits_eq hnumerals
  have hexponent : d.exponent = d'.exponent := by
    rw [order, order, hnumerals] at horder
    omega
  cases d
  cases d'
  simp_all

end Decimal

namespace Layout

variable {l : Layout} {x y : Float} {b b' : Nat} {cs cs' : List Char}

/-! ## Magnitudes -/

/-- What is written for the magnitude with this pattern. -/
inductive Writes (l : Layout) : Nat → List Char → Prop where
  | infinity : Writes l Number.infinity l.infinity.toList
  | positional {d : Decimal} (hd : d.pattern < Number.infinity) : Writes l d.pattern d.positional
  | scientific {d : Decimal} (hd : d.pattern < Number.infinity) : Writes l d.pattern d.scientific

/-- The name of infinity is a word, and another one than that of NaN. -/
structure Named (l : Layout) : Prop where
  ne_nil : l.infinity.toList ≠ []
  isAlpha : l.infinity.toList.all Char.isAlpha
  ne_nan : l.infinity ≠ "NaN"

theorem literal_named : literal.Named where
  ne_nil := by decide
  isAlpha := rfl
  ne_nan := by decide

theorem result_named : result.Named where
  ne_nil := by decide
  isAlpha := rfl
  ne_nan := by decide

theorem exists_writes (l : Layout) (hx : x ≠ Float.nan) : ∃ cs, l.Writes (Number.pattern x) cs ∧
    l.write x = String.ofList (signed (Number.isNegative x && (l.signedZero || Number.pattern x != 0)) cs) := by
  by_cases hinfinity : Number.pattern x = Number.infinity
  · refine ⟨l.infinity.toList, hinfinity ▸ .infinity, ?_⟩
    have hne : (Number.infinity != 0) = true := rfl
    simp [write, hx, hinfinity, hne]
  have hlt := Number.pattern_lt_infinity (Number.isFinite_of_pattern_ne hx hinfinity)
  by_cases hzero : Number.pattern x = 0
  · have hpattern : (Decimal.mk 0 0).pattern = 0 := by decide +kernel
    have htext : (Decimal.mk 0 0).positional = ['0'] := by decide +kernel
    refine ⟨['0'], ?_, ?_⟩
    · have := Writes.positional (l := l) (d := ⟨0, 0⟩) (by rw [hpattern]; decide)
      rwa [hpattern, htext, ← hzero] at this
    · have hne : (0 : Nat) ≠ Number.infinity := by decide
      simp [write, hx, hzero, hne, Bool.and_comm]
  · have hshortest := Decimal.pattern_shortest hlt
    have hd := hshortest.symm ▸ hlt
    have hne : (Number.pattern x != 0) = true := bne_iff_ne.mpr hzero
    cases hform : l.isPositional x.abs with
    | true =>
        have hwrites := Writes.positional (l := l) hd
        rw [hshortest] at hwrites
        exact ⟨_, hwrites, by simp [write, hx, hzero, hinfinity, hform, hne]⟩
    | false =>
        have hwrites := Writes.scientific (l := l) hd
        rw [hshortest] at hwrites
        exact ⟨_, hwrites, by simp [write, hx, hzero, hinfinity, hform, hne]⟩

/-- The first character tells infinity from the finite magnitudes. -/
theorem Writes.head (hl : l.Named) (h : l.Writes b cs) : ∃ c rest, cs = c :: rest ∧
    (b = Number.infinity ∧ cs = l.infinity.toList ∧ c.isAlpha ∨ b < Number.infinity ∧ c.isDigit) := by
  cases h with
  | infinity =>
      obtain ⟨c, rest, hname⟩ := List.exists_cons_of_ne_nil hl.ne_nil
      exact ⟨c, rest, hname, .inl ⟨rfl, rfl, List.all_eq_true.mp hl.isAlpha c (by simp [hname])⟩⟩
  | @positional d hd =>
      obtain ⟨c, rest, htext, hc⟩ := d.positional_head
      exact ⟨c, rest, htext, .inr ⟨hd, hc⟩⟩
  | @scientific d hd =>
      obtain ⟨c, rest, htext, hc⟩ := d.scientific_head
      exact ⟨c, rest, htext, .inr ⟨hd, hc⟩⟩

theorem positional_ne_scientific (d d' : Decimal) : d.positional ≠ d'.scientific := by
  intro h
  have hletter := d'.letter_mem_scientific
  rw [← h] at hletter
  rcases Decimal.mem_positional hletter with h | h <;> cases h

theorem isDigit_eq_false_of_isAlpha {c : Char} (h : c.isAlpha) : c.isDigit = false := by
  refine isDigit_eq_false_of_startsWord ?_
  simp [Piece.startsWord, h]

theorem Writes.unique_of_lt (hb : b < Number.infinity) (hb' : b' < Number.infinity) (h : l.Writes b cs)
    (h' : l.Writes b' cs) : b = b' := by
  cases h with
  | infinity => exact absurd hb (Nat.lt_irrefl _)
  | positional hd =>
      generalize htext : Decimal.positional _ = cs at h'
      cases h' with
      | infinity => exact absurd hb' (Nat.lt_irrefl _)
      | positional hd' => exact Decimal.pattern_eq_of_positional_eq hd hd' htext
      | scientific hd' => exact absurd htext (positional_ne_scientific _ _)
  | scientific hd =>
      generalize htext : Decimal.scientific _ = cs at h'
      cases h' with
      | infinity => exact absurd hb' (Nat.lt_irrefl _)
      | positional hd' => exact absurd htext.symm (positional_ne_scientific _ _)
      | scientific hd' => rw [Decimal.eq_of_scientific_eq htext]

/-- Different magnitudes are written differently. -/
theorem Writes.unique (hl : l.Named) (h : l.Writes b cs) (h' : l.Writes b' cs) : b = b' := by
  obtain ⟨c, rest, hcs, hc⟩ := h.head hl
  obtain ⟨c', rest', hcs', hc'⟩ := h'.head hl
  obtain ⟨rfl, -⟩ := List.cons.inj (hcs.symm.trans hcs')
  rcases hc with ⟨rfl, -, halpha⟩ | ⟨hb, hdigit⟩ <;> rcases hc' with ⟨rfl, -, halpha'⟩ | ⟨hb', hdigit'⟩
  · rfl
  · rw [isDigit_eq_false_of_isAlpha halpha] at hdigit'
    cases hdigit'
  · rw [isDigit_eq_false_of_isAlpha halpha'] at hdigit
    cases hdigit
  · exact h.unique_of_lt hb hb' h'

theorem Writes.mem {c : Char} (hl : l.Named) (h : l.Writes b cs) (hc : c ∈ cs) : c.isAlphanum ∨ c ∈ ['.', '+', '-'] := by
  cases h with
  | infinity => exact .inl (by simp [Char.isAlphanum, List.all_eq_true.mp hl.isAlpha c hc])
  | positional =>
      rcases Decimal.mem_positional hc with hc | rfl
      · exact .inl (by simp [Char.isAlphanum, hc])
      · exact .inr (by simp)
  | scientific => exact Decimal.mem_scientific hc

/-! ## Numbers -/

theorem mem_write {c : Char} (hl : l.Named) (hx : x ≠ Float.nan) (hc : c ∈ (l.write x).toList) :
    c.isAlphanum ∨ c ∈ ['.', '+', '-'] := by
  obtain ⟨cs, hwrites, htext⟩ := exists_writes l hx
  rw [htext, String.toList_ofList] at hc
  generalize (Number.isNegative x && _) = negative at hc
  cases negative with
  | true =>
      rcases List.mem_cons.mp hc with rfl | hc
      · exact .inr (by simp)
      · exact hwrites.mem hl hc
  | false => exact hwrites.mem hl hc

theorem write_nan (l : Layout) : l.write Float.nan = "NaN" := by
  simp [write]

/-- No number has a word for its text, but infinity its name. -/
theorem write_ne_word (hl : l.Named) (hx : x ≠ Float.nan) {word : String} (hword : word.toList.all Char.isAlpha)
    (hne : l.infinity ≠ word) : l.write x ≠ word := by
  obtain ⟨cs, hwrites, htext⟩ := exists_writes l hx
  obtain ⟨c, rest, hcs, hc⟩ := hwrites.head hl
  rw [htext]
  rintro rfl
  rw [String.toList_ofList, List.all_eq_true] at hword
  generalize (Number.isNegative x && _) = negative at hword hne
  cases negative with
  | true => cases hword '-' (by simp [signed])
  | false =>
      rcases hc with ⟨-, hname, -⟩ | ⟨-, hdigit⟩
      · exact hne (by simp [signed, hname])
      · rw [isDigit_eq_false_of_isAlpha (hword c (by simp [signed, hcs]))] at hdigit
        cases hdigit

theorem write_ne_nan (hl : l.Named) (hx : x ≠ Float.nan) : l.write x ≠ "NaN" :=
  write_ne_word hl hx rfl hl.ne_nan

theorem Writes.head?_ne (hl : l.Named) (h : l.Writes b cs) : cs.head? ≠ some '-' := by
  obtain ⟨c, rest, hcs, hc⟩ := h.head hl
  rw [hcs, List.head?_cons, Ne, Option.some.injEq]
  rintro rfl
  rcases hc with ⟨-, -, halpha⟩ | ⟨-, hdigit⟩
  · cases halpha
  · cases hdigit

theorem signed_inj {m n : Bool} (hcs : cs.head? ≠ some '-') (hcs' : cs'.head? ≠ some '-') (h : signed m cs = signed n cs') :
    m = n ∧ cs = cs' := by
  cases m <;> cases n
  · exact ⟨rfl, h⟩
  · exact absurd (congrArg List.head? h) hcs
  · exact absurd (congrArg List.head? h.symm) hcs'
  · exact ⟨rfl, (List.cons.inj h).2⟩

/-- A text settles the magnitude of a number, and its sign unless zeros are not told apart. -/
theorem write_inj (hl : l.Named) (hx : x ≠ Float.nan) (hy : y ≠ Float.nan) (h : l.write x = l.write y) :
    Number.pattern x = Number.pattern y ∧
      (l.signedZero ∨ Number.pattern x ≠ 0 → Number.isNegative x = Number.isNegative y) := by
  obtain ⟨cs, hwrites, htext⟩ := exists_writes l hx
  obtain ⟨cs', hwrites', htext'⟩ := exists_writes l hy
  rw [htext, htext', String.ofList_inj] at h
  obtain ⟨hsign, rfl⟩ := signed_inj (hwrites.head?_ne hl) (hwrites'.head?_ne hl) h
  have hpattern := hwrites.unique hl hwrites'
  refine ⟨hpattern, fun hs => ?_⟩
  have hshown : (l.signedZero || Number.pattern x != 0) = true := by simpa using hs
  rwa [← hpattern, hshown, Bool.and_true, Bool.and_true] at hsign

theorem write_literal_inj (hx : x ≠ Float.nan) (hy : y ≠ Float.nan) (h : literal.write x = literal.write y) : x = y := by
  obtain ⟨hpattern, hsign⟩ := write_inj literal_named hx hy h
  exact Number.eq_of_pattern_eq hpattern (hsign (.inl rfl))

theorem beq_of_write_result_eq (hx : x ≠ Float.nan) (hy : y ≠ Float.nan) (h : result.write x = result.write y) : x == y := by
  obtain ⟨hpattern, hsign⟩ := write_inj result_named hx hy h
  by_cases hzero : Number.pattern x = 0
  · rcases Number.eq_zero_or_neg_zero hzero with rfl | rfl <;>
      rcases Number.eq_zero_or_neg_zero (hpattern.symm.trans hzero) with rfl | rfl <;> decide +kernel
  · rw [Number.eq_of_pattern_eq hpattern (hsign (.inr hzero))]
    exact Float.beq_self_iff.mpr hy

/-- Results have one text exactly if they are equal, which the zeros are, or are no numbers. -/
theorem write_result_eq_iff (x y : Float) : result.write x = result.write y ↔ x == y ∨ x.isNaN ∧ y.isNaN := by
  simp only [Float.isNaN_eq_decide_eq_nan, decide_eq_true_eq]
  by_cases hx : x = Float.nan <;> by_cases hy : y = Float.nan
  · simp [hx, hy]
  · have hne := (write_ne_nan result_named hy).symm
    simp [hx, hy, write_nan, hne]
  · have hne := write_ne_nan result_named hx
    simp [hx, hy, write_nan, hne]
  · simp only [hx, hy, and_self, or_false]
    refine ⟨beq_of_write_result_eq hx hy, fun h => ?_⟩
    obtain ⟨-, -, rfl | ⟨rfl, rfl⟩ | ⟨rfl, rfl⟩⟩ := Float.beq_iff_ne_nan_and_eq.mp h
    · rfl
    · decide +kernel
    · decide +kernel

end Layout
end Reckon
