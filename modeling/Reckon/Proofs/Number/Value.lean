import Mathlib
import Reckon.Number.Decimal
import Reckon.Proofs.Number.Nearest

/-!
# Magnitudes as rational numbers

Decimals and the magnitudes of doubles are rational numbers, and each of these is rounded to a double. Larger numbers are
rounded to larger doubles (`Rounds.mono`), so what lies between numbers that are rounded to one double is rounded to it too
(`Rounds.between`). No double is nearer to a number than the one it is rounded to (`Rounds.abs_sub_le`).
-/

namespace Reckon

namespace Number

variable {a b c : Nat} {p q r : ℚ}

/-- The magnitude with pattern `b`. -/
def value (b : Nat) : ℚ :=
  units b / 2 ^ 1074

/-- The double nearest to the number, which is a quotient of units, is the one with pattern `b`. -/
def Rounds (q : ℚ) (b : Nat) : Prop :=
  ∃ n d : Nat, 0 < d ∧ (n : ℚ) / d = q * 2 ^ 1074 ∧ nearest n d = b

theorem rounds_value (hb : b ≤ infinity) : Rounds (value b) b := by
  refine ⟨units b * 1, 1, Nat.one_pos, ?_, nearest_units_mul hb Nat.one_pos⟩
  rw [value]
  generalize 1074 = k
  rw [div_mul_cancel₀ _ (by positivity)]
  simp

theorem value_zero : value 0 = 0 := by
  have hunits : units 0 = 0 := rfl
  rw [value, hunits, Nat.cast_zero, zero_div]

theorem value_eq_mul (b : Nat) : value b = units b * (1 / 2 ^ 1074) := by
  rw [value, mul_one_div]

theorem value_mono : Monotone value :=
  monotone_nat_of_le_succ fun b => by
    have hle : (units b : ℚ) ≤ units (b + 1) := by
      rw [units_succ]
      exact_mod_cast Nat.le_add_right _ _
    rw [value_eq_mul, value_eq_mul]
    exact mul_le_mul_of_nonneg_right hle (by positivity)

theorem log2_units_lt (hb : b < infinity) : (units b).log2 < 2098 := by
  have hlog := log2_units b
  rw [exponent_eq] at hlog
  rw [infinity_eq] at hb
  omega

theorem two_mul_value_le (b : Nat) : 2 * value b ≤ 2 ^ ((units b).log2 + 2 - 1074 : Int) := by
  have hunits : (units b : ℚ) ≤ 2 ^ ((units b).log2 + 1) := by exact_mod_cast Nat.lt_log2_self.le
  have hexponent : ((units b).log2 + 2 - 1074 : Int) = ((units b).log2 + 1 : Nat) + 1 - (1074 : Nat) := by
    push_cast
    ring
  rw [value, hexponent]
  generalize 1074 = k
  rw [zpow_sub₀ (by norm_num), zpow_add_one₀ (by norm_num), zpow_natCast, zpow_natCast, mul_comm _ (2 : ℚ), mul_div_assoc]
  gcongr

/-! ## Quotients of units -/

section
variable {m n d : Nat} (hd : 0 < d) (hn : (n : ℚ) / d = q * 2 ^ 1074)
include hd hn

theorem units_le_iff : (m : ℚ) / 2 ^ 1074 ≤ q ↔ m * d ≤ n := by
  generalize 1074 = k at hn ⊢
  rw [div_le_iff₀ (by positivity), ← hn, le_div_iff₀ (by exact_mod_cast hd)]
  norm_cast

theorem le_units_iff : q ≤ (m : ℚ) / 2 ^ 1074 ↔ n ≤ m * d := by
  generalize 1074 = k at hn ⊢
  rw [le_div_iff₀ (by positivity), ← hn, div_le_iff₀ (by exact_mod_cast hd)]
  norm_cast

/-- Between two doubles it is the rounding of the mantissa that counts. -/
theorem nearest_of_between (hlow : value b ≤ q) (hhigh : q < value (b + 1)) :
    nearest n d = min (exponent b * 2 ^ 52 + roundEven n (d <<< exponent b)) infinity := by
  refine nearest_eq_of_between hd ((units_le_iff hd hn).mp hlow) ?_
  have hnot := mt (units_le_iff hd hn).mpr (not_le.mpr hhigh)
  exact Nat.lt_of_not_le hnot

end

/-- The middle between two doubles, in halves of the step between them. -/
theorem value_add_value_succ (b : Nat) :
    value b + value (b + 1) = ((2 * mantissa b + 1) * 2 ^ exponent b : Nat) / 2 ^ 1074 := by
  rw [value, value, units_succ, units_eq]
  generalize (2 : ℚ) ^ 1074 = s
  push_cast
  ring

theorem twice_eq {n d : Nat} (hn : (n : ℚ) / d = q * 2 ^ 1074) : ((2 * n : Nat) : ℚ) / d = 2 * q * 2 ^ 1074 := by
  rw [mul_assoc, ← hn]
  push_cast
  ring

/-! ## Rounding -/

namespace Rounds

theorem mono (ha : Rounds p a) (hb : Rounds q b) (h : p ≤ q) : a ≤ b := by
  obtain ⟨n, d, hd, hn, rfl⟩ := ha
  obtain ⟨n', d', hd', hn', rfl⟩ := hb
  refine nearest_le_nearest hd hd' ?_
  generalize 1074 = k at hn hn'
  have hle : (n : ℚ) / d ≤ n' / d' := by
    rw [hn, hn']
    exact mul_le_mul_of_nonneg_right h (by positivity)
  rw [div_le_div_iff₀ (by exact_mod_cast hd) (by exact_mod_cast hd')] at hle
  exact_mod_cast hle

theorem between (ha : Rounds p a) (hc : Rounds r a) (hb : Rounds q b) (hpq : p ≤ q) (hqr : q ≤ r) : b = a :=
  Nat.le_antisymm (hb.mono hc hqr) (ha.mono hb hpq)

theorem lt_value_succ (h : Rounds q b) (hb : b < infinity) : q < value (b + 1) := by
  refine lt_of_not_ge fun hle => ?_
  have := (rounds_value (Nat.succ_le_of_lt hb)).mono h hle
  omega

theorem value_lt_of_succ (h : Rounds q (b + 1)) (hb : b < infinity) : value b < q := by
  refine lt_of_not_ge fun hle => ?_
  have := h.mono (rounds_value (Nat.le_of_lt hb)) hle
  omega

/-- Below infinity, what is rounded to a double is less than twice as large. -/
theorem lt_two_mul (h : Rounds q b) (hpos : 0 < b) (hb : b < infinity) : q < 2 * value b := by
  refine lt_of_lt_of_le (h.lt_value_succ hb) ?_
  have hstep := Nat.le_mul_of_pos_left (2 ^ exponent b) (mantissa_pos hpos)
  rw [← units_eq] at hstep
  have hle : (units (b + 1) : ℚ) ≤ 2 * units b := by
    rw [units_succ]
    exact_mod_cast (by omega : units b + 2 ^ exponent b ≤ 2 * units b)
  rw [value_eq_mul, value_eq_mul, ← mul_assoc]
  exact mul_le_mul_of_nonneg_right hle (by positivity)

/-- Only the smallest doubles are so far apart that a number and nine tenths of it are rounded to one of them. -/
theorem lt_of_tenth (h : Rounds q b) (h' : Rounds (9 / 10 * q) b) (hpos : 0 < b) (hb : b < infinity) : b < 28 := by
  obtain ⟨c, rfl⟩ := Nat.exists_eq_add_of_le' hpos
  have hlow := h'.value_lt_of_succ (Nat.lt_of_succ_lt hb)
  have hhigh := h.lt_value_succ hb
  have hunits : 10 * units c < 9 * units (c + 1 + 1) := by
    have hscaled : 10 * value c < 9 * value (c + 1 + 1) := by linarith
    rw [value_eq_mul, value_eq_mul, ← mul_assoc, ← mul_assoc] at hscaled
    exact_mod_cast lt_of_mul_lt_mul_right hscaled (by positivity)
  -- the two steps around the double are at least a tenth of what is below it, so its mantissa is small
  have hexponent : exponent (c + 1) ≤ exponent c + 1 := by
    rw [exponent_eq, exponent_eq]
    omega
  have hstep := Nat.pow_le_pow_right (n := 2) (by decide) hexponent
  rw [units_succ, units_succ, units_eq] at hunits
  rw [Nat.pow_succ] at hstep
  have hmantissa : mantissa c < 27 := by
    refine Nat.lt_of_mul_lt_mul_right (a := 2 ^ exponent c) ?_
    omega
  have hsum := exponent_add_mantissa c
  rcases Nat.eq_zero_or_pos (exponent c) with he | he
  · omega
  · have := le_mantissa he
    omega

/-! ### Halfway between doubles -/

theorem le_middle (h : Rounds q b) (hb : b < infinity) (hlow : value b ≤ q) : 2 * q ≤ value b + value (b + 1) := by
  have hhigh := h.lt_value_succ hb
  obtain ⟨n, d, hd, hn, hnearest⟩ := h
  have hround : roundEven n (d <<< exponent b) ≤ mantissa b := by
    rw [nearest_of_between hd hn hlow hhigh] at hnearest
    have := exponent_add_mantissa b
    omega
  rw [roundEven_le_iff (Nat.shiftLeft_pos_iff.mpr hd), Nat.shiftLeft_eq] at hround
  rw [value_add_value_succ, le_units_iff hd (twice_eq hn), Nat.mul_assoc, Nat.mul_comm (2 ^ exponent b)]
  omega

theorem middle_le (h : Rounds q (b + 1)) (hb : b < infinity) (hhigh : q < value (b + 1)) :
    value b + value (b + 1) ≤ 2 * q := by
  have hlow := (h.value_lt_of_succ hb).le
  obtain ⟨n, d, hd, hn, hnearest⟩ := h
  have hround : mantissa b < roundEven n (d <<< exponent b) := by
    rw [nearest_of_between hd hn hlow hhigh] at hnearest
    have := exponent_add_mantissa b
    omega
  rw [← not_le, roundEven_le_iff (Nat.shiftLeft_pos_iff.mpr hd), Nat.shiftLeft_eq] at hround
  rw [value_add_value_succ, units_le_iff hd (twice_eq hn), Nat.mul_assoc, Nat.mul_comm (2 ^ exponent b)]
  omega

/-- No double is nearer. -/
theorem abs_sub_le (h : Rounds q b) (hb : b < infinity) (c : Nat) : |value b - q| ≤ |value c - q| := by
  rcases le_or_gt (value b) q with hlow | hhigh
  · rw [abs_sub_comm, abs_of_nonneg (sub_nonneg.mpr hlow)]
    rcases Nat.lt_or_ge b c with hc | hc
    · have hmiddle := h.le_middle hb hlow
      have hnext := value_mono (Nat.succ_le_of_lt hc)
      exact le_trans (by linarith) (le_abs_self _)
    · have hprevious := value_mono hc
      exact le_trans (by linarith) (neg_le_abs _)
  · rw [abs_of_nonneg (sub_nonneg.mpr hhigh.le)]
    rcases Nat.lt_or_ge c b with hc | hc
    · obtain ⟨b, rfl⟩ := Nat.exists_eq_add_of_lt hc
      have hmiddle := h.middle_le (Nat.lt_of_succ_lt hb) hhigh
      have hprevious := value_mono (Nat.le_of_lt_succ hc)
      exact le_trans (by linarith) (neg_le_abs _)
    · have hnext := value_mono hc
      exact le_trans (by linarith) (le_abs_self _)

end Rounds
end Number

namespace Decimal

open Number

variable {d d' : Decimal}

def value (d : Decimal) : ℚ :=
  d.digits * 10 ^ d.exponent

theorem value_mk (n : Nat) (e : Int) : (Decimal.mk n e).value = n * 10 ^ e := rfl

theorem value_eq_div (d : Decimal) :
    d.value = (d.digits * 10 ^ d.exponent.toNat : Nat) / (10 ^ (-d.exponent).toNat : Nat) := by
  have he : d.exponent = d.exponent.toNat - (-d.exponent).toNat := by omega
  rw [value]
  nth_rewrite 1 [he]
  rw [zpow_sub₀ (by norm_num), zpow_natCast, zpow_natCast]
  push_cast
  ring

/-- A decimal reads as the double that it is rounded to. -/
theorem rounds_pattern (d : Decimal) : Rounds d.value d.pattern := by
  refine ⟨_, 10 ^ (-d.exponent).toNat, Nat.pow_pos (by decide), ?_, rfl⟩
  rw [value_eq_div, Nat.shiftLeft_eq]
  generalize 1074 = k
  push_cast
  simp only [Nat.pow_eq]
  push_cast
  ring

theorem pattern_le_pattern (h : d.value ≤ d'.value) : d.pattern ≤ d'.pattern :=
  (rounds_pattern d).mono (rounds_pattern d') h

theorem digits_pos_of_pattern_pos (h : 0 < d.pattern) : 0 < d.digits := by
  refine Nat.pos_of_ne_zero fun hzero => ?_
  have hvalue : d.value = Number.value 0 := by rw [value_zero, value, hzero, Nat.cast_zero, zero_mul]
  have := (rounds_pattern d).mono (rounds_value (Nat.zero_le _)) (le_of_eq hvalue)
  omega

end Decimal
end Reckon
