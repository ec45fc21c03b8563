import Reckon.Proofs.Number.Digits
import Reckon.Proofs.Number.Grid

/-!
# Fewest digits

Of all decimals that read as a double, `shortest` is one with the fewest digits, of these it is the nearest one, and the
upper one if two are equally near (`isShortest_shortest`). There is only one such decimal (`IsShortest.eq`), its last digit
is not zero, and its order is compared with a power of ten by comparing doubles (`IsShortest.order_le_iff`).
-/

namespace Reckon.Decimal

open Number

variable {b : Nat} {e : Int} {d d' : Decimal}

/-- Reads as the double, has the fewest digits of all decimals that do, and is the preferred one of these. -/
structure IsShortest (b : Nat) (d : Decimal) : Prop where
  pattern_eq : d.pattern = b
  length_le : ∀ d' : Decimal, d'.pattern = b → d.numerals.length ≤ d'.numerals.length
  preferred : ∀ d' : Decimal, d'.pattern = b → d'.numerals.length = d.numerals.length →
    Preferred (Number.value b) d.value d'.value

theorem value_one (e : Int) : (Decimal.mk 1 e).value = 10 ^ e := by
  rw [value_mk, Nat.cast_one, one_mul]

theorem value_nine (e : Int) : (Decimal.mk 9 (e - 1)).value = 9 / 10 * 10 ^ e := by
  rw [value_mk, zpow_sub_one₀ (by norm_num)]
  push_cast
  ring

theorem value_le_nine (hone : d.numerals.length = 1) (he : d.exponent < e) : d.value ≤ (Decimal.mk 9 (e - 1)).value := by
  have hdigits : d.digits ≤ 9 := by
    have := d.digits_lt
    rw [hone] at this
    omega
  rw [value, value_mk]
  exact mul_le_mul (by exact_mod_cast hdigits) (zpow_le_zpow_right₀ (by norm_num) (by omega)) (by positivity)
    (by positivity)

/-- If decimals of several orders read as the double, so does the power of ten between them. -/
theorem pattern_power (hd : 0 < d.digits) (hread : d.pattern = b) (hread' : d'.pattern = b) (h : d'.order < d.order) :
    (Decimal.mk 1 (d.order - 1)).pattern = b := by
  refine Rounds.between (hread' ▸ rounds_pattern d') (hread ▸ rounds_pattern d) (rounds_pattern _) ?_ ?_
  · rw [value_one]
    exact d'.value_lt.le.trans (zpow_le_zpow_right₀ (by norm_num) (by omega))
  · rw [value_one]
    exact le_value hd

/-- Nine tenths of a power of ten read as the same double as the power itself for one double only. -/
theorem eq_of_power_of_nine (hpos : 0 < b) (hb : b < infinity) (hone : (Decimal.mk 1 e).pattern = b)
    (hnine : (Decimal.mk 9 (e - 1)).pattern = b) : e = -323 ∧ b = 2 := by
  have hlt : b < 28 := by
    refine Rounds.lt_of_tenth (q := 10 ^ e) ?_ ?_ hpos hb
    · rw [← hone, ← value_one]
      exact rounds_pattern _
    · rw [← hnine, ← value_nine]
      exact rounds_pattern _
  have hmono : ∀ i j : Int, i ≤ j → (Decimal.mk 1 i).pattern ≤ (Decimal.mk 1 j).pattern := by
    intro i j hij
    refine pattern_le_pattern ?_
    rw [value_one, value_one]
    exact zpow_le_zpow_right₀ (by norm_num) hij
  have hlow : -324 < e := by
    refine lt_of_not_ge fun hle => ?_
    have hzero : (Decimal.mk 1 (-324)).pattern = 0 := by decide +kernel
    have := hmono _ _ hle
    omega
  have hhigh : e < -321 := by
    refine lt_of_not_ge fun hle => ?_
    have htwo : (Decimal.mk 1 (-321)).pattern = 202 := by decide +kernel
    have := hmono _ _ hle
    omega
  obtain rfl | rfl : e = -323 ∨ e = -322 := by omega
  · have htwo : (Decimal.mk 1 (-323)).pattern = 2 := by decide +kernel
    exact ⟨rfl, hone.symm.trans htwo⟩
  · have hdiffer : (Decimal.mk 1 (-322)).pattern ≠ (Decimal.mk 9 (-322 - 1)).pattern := by decide +kernel
    exact absurd (hone.trans hnine.symm) hdiffer

/-- For this double the power is preferred to its nine tenths and to everything below them. -/
theorem preferred_power (h : d.value ≤ (Decimal.mk 9 (-323 - 1)).value) :
    Preferred (Number.value 2) (Decimal.mk 1 (-323)).value d.value := by
  have hlow : (19 : ℚ) * 2 ^ 1074 ≤ 4 * 10 ^ 324 := by
    exact_mod_cast (by decide +kernel : 19 * 2 ^ 1074 ≤ 4 * 10 ^ 324)
  have hhigh : (2 : ℚ) * 10 ^ 324 ≤ 10 * 2 ^ 1074 := by
    exact_mod_cast (by decide +kernel : 2 * 10 ^ 324 ≤ 10 * 2 ^ 1074)
  have hten : (10 : ℚ) ^ (-323 : Int) = 10 / 10 ^ 324 := by
    rw [eq_div_iff (by positivity), ← zpow_natCast, ← zpow_add₀ (by norm_num)]
    norm_num
  have htwo : units 2 = 2 := rfl
  rw [value_nine, hten] at h
  rw [value_one, hten, Number.value, htwo]
  have hs : (0 : ℚ) < 2 ^ 1074 := by positivity
  have ht : (0 : ℚ) < 10 ^ 324 := by positivity
  generalize (2 : ℚ) ^ 1074 = s at *
  generalize (10 : ℚ) ^ 324 = t at *
  have hnear : (19 : ℚ) / t ≤ 4 / s := by
    rwa [div_le_div_iff₀ ht hs]
  have hupper : ((2 : Nat) : ℚ) / s ≤ 10 / t := by
    rwa [div_le_div_iff₀ hs ht]
  simp only [div_eq_mul_inv] at h hnear hupper ⊢
  exact .of_upper (by linarith) hupper (by linarith)

section
variable (hpos : 0 < b) (hb : b < infinity)
include hpos hb

theorem exponent_le_shortest (hread : d.pattern = b) : d.exponent ≤ (shortest b).exponent :=
  exponent_le_shortestFrom hb.le hread (exponent_le_coarsest hpos hb hread (digits_pos_of_pattern_pos (hread ▸ hpos)))

theorem digits_shortest_pos : 0 < (shortest b).digits := by
  refine digits_pos_of_pattern_pos ?_
  rwa [pattern_shortest hb]

/-- A decimal of a smaller order reads as the double only if the shortest one has a single digit. -/
theorem length_shortest_eq_one (hread : d.pattern = b) (h : d.order < (shortest b).order) :
    (shortest b).numerals.length = 1 := by
  have hpower := pattern_power (digits_shortest_pos hpos hb) (pattern_shortest hb) hread h
  have hexponent : (shortest b).order - 1 ≤ (shortest b).exponent := exponent_le_shortest hpos hb hpower
  have hlength := (shortest b).length_numerals_pos
  rw [order] at hexponent
  omega

theorem length_shortest_le (hread : d.pattern = b) : (shortest b).numerals.length ≤ d.numerals.length := by
  refine Nat.le_of_not_lt fun hlt => ?_
  have hexponent := exponent_le_shortest hpos hb hread
  have hone := length_shortest_eq_one hpos hb hread (by rw [order, order]; omega)
  have := d.length_numerals_pos
  omega

theorem preferred_shortest (hread : d.pattern = b) (hlength : d.numerals.length = (shortest b).numerals.length) :
    Preferred (Number.value b) (shortest b).value d.value := by
  rcases (exponent_le_shortest hpos hb hread).lt_or_eq with hlt | heq
  · -- a single digit on a finer grid
    have hone := length_shortest_eq_one hpos hb hread (by rw [order, order]; omega)
    have horder : (shortest b).order - 1 = (shortest b).exponent := by
      rw [order, hone]
      omega
    have hpower := pattern_power (digits_shortest_pos hpos hb) (pattern_shortest hb) hread (by rw [order, order]; omega)
    rw [horder] at hpower
    have hnine := value_le_nine (hlength.trans hone) hlt
    have hread' : (Decimal.mk 9 ((shortest b).exponent - 1)).pattern = b := by
      refine Rounds.between (hread ▸ rounds_pattern d) (hpower ▸ rounds_pattern _) (rounds_pattern _) hnine ?_
      rw [value_nine, value_one]
      linarith [zpow_pos (by norm_num : (0 : ℚ) < 10) (shortest b).exponent]
    have hshortest := preferred_shortestFrom hb.le (coarsest b) hpower rfl
    rw [← shortest] at hshortest
    obtain ⟨he, rfl⟩ := eq_of_power_of_nine hpos hb hpower hread'
    rw [he] at hnine hshortest
    exact hshortest.trans (preferred_power hnine)
  · exact preferred_shortestFrom hb.le (coarsest b) hread heq

theorem isShortest_shortest : IsShortest b (shortest b) where
  pattern_eq := pattern_shortest hb
  length_le := fun _ hread => length_shortest_le hpos hb hread
  preferred := fun _ hread hlength => preferred_shortest hpos hb hread hlength

end

namespace IsShortest

theorem digits_pos (h : IsShortest b d) (hpos : 0 < b) : 0 < d.digits :=
  digits_pos_of_pattern_pos (h.pattern_eq ▸ hpos)

theorem eq (h : IsShortest b d) (h' : IsShortest b d') (hpos : 0 < b) : d = d' := by
  have hlength := Nat.le_antisymm (h.length_le d' h'.pattern_eq) (h'.length_le d h.pattern_eq)
  exact eq_of_value_eq (h.digits_pos hpos) (h'.digits_pos hpos) hlength
    ((h.preferred d' h'.pattern_eq hlength.symm).eq (h'.preferred d h.pattern_eq hlength))

/-- A last digit zero could be left out. -/
theorem digits_mod_ne_zero (h : IsShortest b d) (hpos : 0 < b) : d.digits % 10 ≠ 0 := by
  intro hzero
  have hdigits := h.digits_pos hpos
  have hnumerals := Nat.toDigits_of_base_le (b := 10) (by decide) (by omega : 10 ≤ d.digits)
  have hvalue : (Decimal.mk (d.digits / 10) (d.exponent + 1)).value = d.value := by
    have hdigits' : (d.digits : ℚ) = 10 * (d.digits / 10 : Nat) := by exact_mod_cast (by omega)
    rw [value_mk, value, hdigits', zpow_add_one₀ (by norm_num)]
    ring
  have hle := h.length_le ⟨d.digits / 10, d.exponent + 1⟩ ?_
  · rw [numerals, hnumerals] at hle
    simp [numerals] at hle
  · rw [← h.pattern_eq]
    exact Nat.le_antisymm (pattern_le_pattern hvalue.le) (pattern_le_pattern hvalue.ge)

/-- The order is compared with the exponent of a power of ten by comparing doubles, where nine tenths of the power are
another double than the power itself. -/
theorem order_le_iff (h : IsShortest b d) (hpos : 0 < b) {j : Int}
    (hnine : (Decimal.mk 9 (j - 1)).pattern < (Decimal.mk 1 j).pattern) :
    d.order ≤ j ↔ b < (Decimal.mk 1 j).pattern := by
  have hdigits := h.digits_pos hpos
  constructor
  · intro hle
    refine Nat.lt_of_not_le fun hge => ?_
    have hlt := (Decimal.order_le_iff hdigits).mp hle
    have hread : (Decimal.mk 1 j).pattern = b := by
      refine Nat.le_antisymm hge ?_
      rw [← h.pattern_eq]
      refine pattern_le_pattern ?_
      rw [value_one]
      exact hlt.le
    have hone : d.numerals.length = 1 := by
      have hsingle : (Nat.toDigits 10 1).length ≤ 1 := (Nat.length_toDigits_le_iff (by decide) Nat.one_pos).mpr (by decide)
      exact Nat.le_antisymm ((h.length_le ⟨1, j⟩ hread).trans hsingle) d.length_numerals_pos
    have hexponent : d.exponent < j := by
      rw [order, hone] at hle
      omega
    have := pattern_le_pattern (value_le_nine hone hexponent)
    rw [h.pattern_eq] at this
    omega
  · intro hlt
    refine Int.le_of_not_gt fun hgt => ?_
    have hvalue : (Decimal.mk 1 j).value ≤ d.value := by
      rw [value_one]
      exact (zpow_le_zpow_right₀ (by norm_num) (by omega)).trans (le_value hdigits)
    have := pattern_le_pattern hvalue
    rw [h.pattern_eq] at this
    omega

end IsShortest

end Reckon.Decimal
