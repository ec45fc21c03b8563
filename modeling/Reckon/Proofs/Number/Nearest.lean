import Mathlib.Algebra.Group.Nat.Defs
import Reckon.Number.Shortest

/-!
# Doubles nearest to a number

`nearest` comes back to a double from its magnitude (`nearest_units_mul`). From any other number it comes to a multiple of
the distance that doubles of this size are apart (`units_nearest`), and it keeps the order of numbers (`nearest_le_nearest`).
-/

namespace Reckon.Number

variable {b k k' n n' d d' m : Nat}

/-! ## Magnitudes -/

theorem infinity_eq : infinity = 2047 * 2 ^ 52 := by
  rw [infinity, Nat.shiftLeft_eq]

theorem exponent_eq (b : Nat) : exponent b = b / 2 ^ 52 - 1 := by
  simp only [exponent, Nat.shiftRight_eq_div_pow]

theorem mantissa_eq (b : Nat) : mantissa b = b - exponent b * 2 ^ 52 := by
  unfold mantissa
  rw [Nat.shiftLeft_eq]

theorem units_eq (b : Nat) : units b = mantissa b * 2 ^ exponent b := by
  simp only [units, Nat.shiftLeft_eq]

theorem exponent_add_mantissa (b : Nat) : exponent b * 2 ^ 52 + mantissa b = b := by
  rw [mantissa_eq, exponent_eq]
  omega

theorem mantissa_lt (b : Nat) : mantissa b < 2 ^ 53 := by
  rw [mantissa_eq, exponent_eq]
  omega

theorem le_mantissa (h : 0 < exponent b) : 2 ^ 52 ≤ mantissa b := by
  rw [exponent_eq] at h
  rw [mantissa_eq, exponent_eq]
  omega

/-- A mantissa rounded up to `2^53` carries into the exponent. -/
theorem units_add (hle : 0 < k → 2 ^ 52 ≤ m) (hm : m ≤ 2 ^ 53) : units (k * 2 ^ 52 + m) = m * 2 ^ k := by
  rcases Nat.lt_or_eq_of_le hm with hlt | rfl
  · have hexponent : exponent (k * 2 ^ 52 + m) = k := by
      rw [exponent_eq]
      omega
    have hmantissa := exponent_add_mantissa (k * 2 ^ 52 + m)
    rw [hexponent] at hmantissa
    rw [units_eq, hexponent, Nat.add_left_cancel hmantissa]
  · have hexponent : exponent (k * 2 ^ 52 + 2 ^ 53) = k + 1 := by
      rw [exponent_eq]
      omega
    have hmantissa := exponent_add_mantissa (k * 2 ^ 52 + 2 ^ 53)
    rw [hexponent] at hmantissa
    have hhalf : mantissa (k * 2 ^ 52 + 2 ^ 53) = 2 ^ 52 := by omega
    rw [units_eq, hexponent, hhalf, Nat.pow_succ]
    omega

/-- The next double is one step further, even where the exponent goes up. -/
theorem units_succ (b : Nat) : units (b + 1) = units b + 2 ^ exponent b := by
  have hsum : b + 1 = exponent b * 2 ^ 52 + (mantissa b + 1) := by
    have := exponent_add_mantissa b
    omega
  rw [hsum, units_add (fun h => Nat.le_succ_of_le (le_mantissa h)) (mantissa_lt b), units_eq, Nat.succ_mul]

theorem mantissa_pos (h : 0 < b) : 0 < mantissa b := by
  rcases Nat.eq_zero_or_pos (exponent b) with he | he
  · have := exponent_add_mantissa b
    omega
  · exact Nat.lt_of_lt_of_le (Nat.two_pow_pos 52) (le_mantissa he)

theorem units_pos (h : 0 < b) : 0 < units b := by
  rw [units_eq]
  exact Nat.mul_pos (mantissa_pos h) (Nat.two_pow_pos _)

/-- The magnitude settles the exponent. -/
theorem log2_units (b : Nat) : (units b).log2 - 52 = exponent b := by
  have hlt : units b < 2 ^ (53 + exponent b) := by
    rw [units_eq, Nat.pow_add]
    exact Nat.mul_lt_mul_of_pos_right (mantissa_lt b) (Nat.two_pow_pos _)
  rcases Nat.eq_zero_or_pos b with rfl | hpos
  · rfl
  have hne : units b ≠ 0 := Nat.ne_of_gt (units_pos hpos)
  have hlog := (Nat.log2_lt hne).mpr hlt
  rcases Nat.eq_zero_or_pos (exponent b) with he | he
  · omega
  · have hle : 2 ^ (52 + exponent b) ≤ units b := by
      rw [units_eq, Nat.pow_add]
      exact Nat.mul_le_mul_right _ (le_mantissa he)
    have := (Nat.le_log2 hne).mpr hle
    omega

/-! ## Rounding -/

theorem roundEven_mul (m : Nat) (hd : 0 < d) : roundEven (m * d) d = m := by
  simp [roundEven, Nat.mul_div_cancel m hd, hd]

theorem le_roundEven (n d : Nat) : n / d ≤ roundEven n d := by
  unfold roundEven
  split <;> omega

theorem roundEven_le (n d : Nat) : roundEven n d ≤ n / d + 1 := by
  unfold roundEven
  split <;> omega

/-- A number is rounded to `m` or below it up to the middle between `m` and `m + 1`, and in the middle if `m` is even. -/
theorem roundEven_le_iff (hd : 0 < d) :
    roundEven n d ≤ m ↔ 2 * n < (2 * m + 1) * d ∨ 2 * n = (2 * m + 1) * d ∧ m % 2 = 0 := by
  have hn := Nat.div_add_mod n d
  have hr := Nat.mod_lt n hd
  have hmiddle : (2 * m + 1) * d = 2 * (d * m) + d := by
    rw [Nat.add_mul, Nat.one_mul, Nat.mul_assoc, Nat.mul_comm m d]
  rw [hmiddle]
  rcases Nat.lt_trichotomy m (n / d) with h | h | h
  · have hle := Nat.mul_le_mul_left d (Nat.succ_le_of_lt h)
    rw [Nat.mul_succ] at hle
    have := le_roundEven n d
    exact iff_of_false (by omega) (by omega)
  · rw [← h] at hn
    unfold roundEven
    rw [← h]
    split <;> omega
  · have hle := Nat.mul_le_mul_left d (Nat.succ_le_of_lt h)
    rw [Nat.mul_succ] at hle
    have := roundEven_le n d
    exact iff_of_true (by omega) (by omega)

/-- A larger number is not rounded to a smaller one. -/
theorem roundEven_le_roundEven (hd : 0 < d) (hd' : 0 < d') (h : n * d' ≤ n' * d) : roundEven n d ≤ roundEven n' d' := by
  have hle := (roundEven_le_iff hd').mp (Nat.le_refl (roundEven n' d'))
  generalize roundEven n' d' = m at *
  rw [roundEven_le_iff hd]
  have hcomm : (2 * m + 1) * d' * d = (2 * m + 1) * d * d' := Nat.mul_right_comm _ _ _
  rcases hle with hlt | ⟨heq, heven⟩
  · refine .inl (Nat.lt_of_mul_lt_mul_right (a := d') ?_)
    have := Nat.mul_lt_mul_of_pos_right hlt hd
    rw [Nat.mul_assoc] at this ⊢
    omega
  · have hmul : 2 * n * d' ≤ (2 * m + 1) * d * d' := by
      rw [← hcomm, ← heq, Nat.mul_assoc, Nat.mul_assoc]
      exact Nat.mul_le_mul_left 2 h
    rcases Nat.lt_or_eq_of_le (Nat.le_of_mul_le_mul_right hmul hd') with hlt | heq'
    · exact .inl hlt
    · exact .inr ⟨heq', heven⟩

/-! ### Mantissas of rounded numbers -/

section
variable (hk : (n / d).log2 - 52 = k)
include hk

theorem le_roundEven_of_pos (hpos : 0 < k) : 2 ^ 52 ≤ roundEven n (d <<< k) := by
  refine Nat.le_trans ?_ (le_roundEven _ _)
  rw [Nat.shiftLeft_eq, ← Nat.div_div_eq_div_mul, Nat.le_div_iff_mul_le (Nat.two_pow_pos k), ← Nat.pow_add]
  have hne : n / d ≠ 0 := by
    intro hzero
    simp [hzero] at hk
    omega
  exact (Nat.le_log2 hne).mp (by omega)

theorem roundEven_le_pow : roundEven n (d <<< k) ≤ 2 ^ 53 := by
  refine Nat.le_trans (roundEven_le _ _) ?_
  rw [Nat.shiftLeft_eq, ← Nat.div_div_eq_div_mul]
  have hlt : n / d < 2 ^ 53 * 2 ^ k := by
    rw [← Nat.pow_add]
    rcases Nat.eq_zero_or_pos (n / d) with hzero | hpos
    · rw [hzero]
      exact Nat.two_pow_pos _
    · exact (Nat.log2_lt (Nat.ne_of_gt hpos)).mp (by omega)
  exact Nat.div_lt_of_lt_mul (by rwa [Nat.mul_comm])

end

/-! ## Nearest doubles -/

theorem log2_le_log2 (h : m ≤ n) : m.log2 ≤ n.log2 := by
  rcases Nat.eq_zero_or_pos m with hzero | hpos
  · simp [hzero]
  · exact (Nat.le_log2 (by omega)).mpr (Nat.le_trans (Nat.log2_self_le (Nat.ne_of_gt hpos)) h)

theorem nearest_eq (hk : (n / d).log2 - 52 = k) : nearest n d = min (k * 2 ^ 52 + roundEven n (d <<< k)) infinity := by
  rw [← Nat.shiftLeft_eq, ← hk]
  rfl

/-- The double nearest to the magnitude of a double is this double, and infinity is kept too. -/
theorem nearest_units_mul (hb : b ≤ infinity) (hd : 0 < d) : nearest (units b * d) d = b := by
  have hround : roundEven (units b * d) (d <<< exponent b) = mantissa b := by
    rw [units_eq, Nat.shiftLeft_eq, Nat.mul_assoc, Nat.mul_comm (2 ^ exponent b) d]
    exact roundEven_mul _ (Nat.mul_pos hd (Nat.two_pow_pos _))
  rw [nearest_eq (by rw [Nat.mul_div_cancel _ hd, log2_units]), hround, exponent_add_mantissa]
  exact Nat.min_eq_left hb

/-- Unless the number is too large, the nearest double is the nearest multiple of the distance between doubles of its size. -/
theorem units_nearest (h : nearest n d < infinity) :
    units (nearest n d) = roundEven n (d <<< ((n / d).log2 - 52)) * 2 ^ ((n / d).log2 - 52) := by
  rw [nearest_eq rfl] at h ⊢
  rw [Nat.min_eq_left (by omega)]
  exact units_add (le_roundEven_of_pos rfl) (roundEven_le_pow rfl)

/-- Between two doubles the mantissa of the lower one is rounded up or kept. -/
theorem nearest_eq_of_between (hd : 0 < d) (hle : units b * d ≤ n) (hlt : n < units (b + 1) * d) :
    nearest n d = min (exponent b * 2 ^ 52 + roundEven n (d <<< exponent b)) infinity := by
  have hlow : units b ≤ n / d := (Nat.le_div_iff_mul_le hd).mpr hle
  have hhigh : n / d < 2 ^ (53 + exponent b) := by
    refine Nat.lt_of_lt_of_le ((Nat.div_lt_iff_lt_mul hd).mpr hlt) ?_
    rw [units_succ, units_eq, ← Nat.succ_mul, Nat.pow_add]
    exact Nat.mul_le_mul_right _ (mantissa_lt b)
  have hlog := log2_units b
  have hle := log2_le_log2 hlow
  refine nearest_eq ?_
  rcases Nat.eq_zero_or_pos (n / d) with hzero | hpos
  · have hlog0 : Nat.log2 0 = 0 := rfl
    rw [hzero] at hle ⊢
    omega
  · have := (Nat.log2_lt (Nat.ne_of_gt hpos)).mpr hhigh
    omega

/-- The double nearest to a larger number is not smaller. -/
theorem nearest_le_nearest (hd : 0 < d) (hd' : 0 < d') (h : n * d' ≤ n' * d) : nearest n d ≤ nearest n' d' := by
  have hq : n / d ≤ n' / d' := by
    rw [Nat.le_div_iff_mul_le hd']
    refine Nat.le_of_mul_le_mul_right ?_ hd
    calc n / d * d' * d = n / d * d * d' := Nat.mul_right_comm _ _ _
      _ ≤ n * d' := Nat.mul_le_mul_right _ (Nat.div_mul_le_self n d)
      _ ≤ n' * d := h
  have hlog := log2_le_log2 hq
  generalize hk : (n / d).log2 - 52 = k
  generalize hk' : (n' / d').log2 - 52 = k'
  have hle : k ≤ k' := by omega
  rw [nearest_eq hk, nearest_eq hk']
  suffices hsum : k * 2 ^ 52 + roundEven n (d <<< k) ≤ k' * 2 ^ 52 + roundEven n' (d' <<< k') from
    Nat.le_min.mpr ⟨Nat.le_trans (Nat.min_le_left _ _) hsum, Nat.min_le_right _ _⟩
  rcases Nat.lt_or_eq_of_le hle with hlt | rfl
  · -- the larger number has the larger exponent
    have hm := roundEven_le_pow hk
    have hm' := le_roundEven_of_pos hk' (by omega)
    have hstep := Nat.mul_le_mul_right (2 ^ 52) hlt
    omega
  · refine Nat.add_le_add_left (roundEven_le_roundEven (Nat.shiftLeft_pos_iff.mpr hd) (Nat.shiftLeft_pos_iff.mpr hd') ?_) _
    rw [Nat.shiftLeft_eq, Nat.shiftLeft_eq, ← Nat.mul_assoc, ← Nat.mul_assoc]
    exact Nat.mul_le_mul_right _ h

end Reckon.Number
