import Reckon.Proofs.Number.Nearest

/-!
# Shortest decimals read back

The shortest decimal of a finite double reads as this double (`pattern_shortest`). It has no digits behind the point exactly
if the double is a whole number (`exponent_shortest_nonneg_iff`).
-/

namespace Reckon

namespace Number

/-- Is the double with this pattern a whole number? -/
def IsWhole (b : Nat) : Prop :=
  2 ^ 1074 ∣ units b

/-- Doubles that are `2 ^ p` or more apart are multiples of it, and where they are closer no multiple of it is rounded. -/
theorem pow_dvd_units_nearest {n p : Nat} (h : nearest (n <<< p) 1 < infinity) : 2 ^ p ∣ units (nearest (n <<< p) 1) := by
  have hunits := units_nearest h
  rw [Nat.div_one] at hunits
  generalize ((n <<< p).log2 - 52) = k at hunits
  rw [hunits]
  rcases Nat.le_total p k with hk | hk
  · exact Nat.dvd_mul_left_of_dvd (Nat.pow_dvd_pow 2 hk) _
  · obtain ⟨j, rfl⟩ := Nat.exists_eq_add_of_le' hk
    have hsplit : n <<< (j + k) = n * 2 ^ j * 1 <<< k := by
      rw [Nat.shiftLeft_eq, Nat.shiftLeft_eq, Nat.one_mul, Nat.mul_assoc, ← Nat.pow_add]
    rw [hsplit, roundEven_mul _ (Nat.shiftLeft_pos_iff.mpr Nat.one_pos), Nat.mul_assoc, ← Nat.pow_add]
    exact Nat.dvd_mul_left _ _

end Number

namespace Decimal

open Number

variable {b g : Nat} {e : Int} {d : Decimal}

/-! ## Reading back -/

theorem shortestFrom_zero (b : Nat) : shortestFrom b 0 = ⟨units b * Nat.pow 5 1074, -1074⟩ := rfl

theorem shortestFrom_succ (b g : Nat) : shortestFrom b (g + 1) =
    match onGrid? b (g + 1 - 1074) with
    | some d => d
    | none => shortestFrom b g := by
  exact rfl

theorem pattern_of_onGrid? (h : onGrid? b e = some d) : d.pattern = b ∧ d.exponent = e := by
  unfold onGrid? at h
  extract_lets n step below above at h
  split at h
  · rename_i hbelow
    split at h
    · rename_i habove
      obtain rfl := Option.some.inj h
      exact ⟨habove.1, rfl⟩
    · obtain rfl := Option.some.inj h
      exact ⟨hbelow, rfl⟩
  · split at h
    · rename_i habove
      obtain rfl := Option.some.inj h
      exact ⟨habove, rfl⟩
    · cases h

theorem nearest_units_shiftLeft (hb : b < infinity) (k : Nat) :
    nearest ((units b * Nat.pow 5 k) <<< k) (Nat.pow 10 k) = b := by
  have hten : Nat.pow 5 k * 2 ^ k = Nat.pow 10 k := (Nat.mul_pow 5 2 k).symm
  rw [Nat.shiftLeft_eq, Nat.mul_assoc, hten]
  exact nearest_units_mul (Nat.le_of_lt hb) (Nat.pow_pos (by decide))

/-- The finest grid has every double. -/
theorem pattern_finest (hb : b < infinity) : (Decimal.mk (units b * Nat.pow 5 1074) (-1074)).pattern = b := by
  have hone : Nat.pow 10 ((-1074 : Int).toNat) = 1 := rfl
  have hplaces : (-(-1074) : Int).toNat = 1074 := rfl
  rw [pattern, hone, hplaces, Nat.mul_one]
  -- the powers are too large to be computed
  generalize 1074 = k
  exact nearest_units_shiftLeft hb k

theorem pattern_shortestFrom (hb : b < infinity) (g : Nat) : (shortestFrom b g).pattern = b := by
  induction g with
  | zero =>
      rw [shortestFrom_zero]
      exact pattern_finest hb
  | succ g ih =>
      rw [shortestFrom_succ]
      split
      · rename_i d hd
        exact (pattern_of_onGrid? hd).1
      · exact ih

/-- The shortest decimal of a double reads as this double. -/
theorem pattern_shortest (hb : b < infinity) : (shortest b).pattern = b :=
  pattern_shortestFrom hb (coarsest b)

/-! ## Whole numbers -/

theorem pattern_of_exponent_nonneg (h : 0 ≤ d.exponent) :
    d.pattern = nearest ((d.digits * Nat.pow 10 d.exponent.toNat) <<< 1074) 1 := by
  have hone : (-d.exponent).toNat = 0 := by omega
  rw [pattern, hone, Nat.pow_eq, Nat.pow_eq, Nat.pow_zero]

theorem isWhole_of_exponent_nonneg (hb : d.pattern < infinity) (h : 0 ≤ d.exponent) : IsWhole d.pattern := by
  rw [pattern_of_exponent_nonneg h] at *
  rw [IsWhole]
  generalize 1074 = p at hb ⊢
  exact pow_dvd_units_nearest hb

theorem onGrid?_ne_none
    (h : (Decimal.mk (units b * Nat.pow 10 (-e).toNat / Nat.pow 10 e.toNat <<< 1074) e).pattern = b) :
    onGrid? b e ≠ none := by
  unfold onGrid?
  extract_lets n step below above
  rw [if_pos h]
  split <;> exact Option.some_ne_none _

theorem div_shiftLeft {k n : Nat} (h : units b = 2 ^ k * n) : units b * 1 / 1 <<< k = n := by
  rw [Nat.mul_one, Nat.shiftLeft_eq, Nat.one_mul, h, Nat.mul_div_cancel_left _ (Nat.two_pow_pos k)]

theorem nearest_shiftLeft {k n : Nat} (hb : b < infinity) (h : units b = 2 ^ k * n) : nearest (n <<< k) 1 = b := by
  rw [Nat.shiftLeft_eq, Nat.mul_comm, ← h, ← Nat.mul_one (units b)]
  exact nearest_units_mul (Nat.le_of_lt hb) Nat.one_pos

/-- A whole number is on the grid of the whole numbers. -/
theorem onGrid?_zero_ne_none (hb : b < infinity) (h : IsWhole b) : onGrid? b 0 ≠ none := by
  obtain ⟨n, hn⟩ := h
  have hone : Nat.pow 10 ((-0 : Int).toNat) = 1 := rfl
  have hone' : Nat.pow 10 ((0 : Int).toNat) = 1 := rfl
  refine onGrid?_ne_none ?_
  rw [hone, hone', div_shiftLeft hn, pattern_of_exponent_nonneg (Int.le_refl 0), hone', Nat.mul_one]
  generalize 1074 = k at hn ⊢
  exact nearest_shiftLeft hb hn

theorem exponent_shortestFrom_nonneg (hb : b < infinity) (h : IsWhole b) (hg : 1074 ≤ g) :
    0 ≤ (shortestFrom b g).exponent := by
  induction g with
  | zero => omega
  | succ g ih =>
      rw [shortestFrom_succ]
      split
      · rename_i d hd
        rw [(pattern_of_onGrid? hd).2]
        omega
      · rename_i hnone
        refine ih (Nat.le_of_not_lt fun hlt => onGrid?_zero_ne_none hb h ?_)
        have hzero : (g + 1 - 1074 : Int) = 0 := by omega
        rwa [hzero] at hnone

theorem le_coarsest (h : 2 ^ 1074 ≤ units b) : 1074 ≤ coarsest b := by
  have hne : units b ≠ 0 := Nat.ne_of_gt (Nat.lt_of_lt_of_le (Nat.two_pow_pos _) h)
  have hlog := (Nat.le_log2 hne).mpr h
  unfold coarsest
  extract_lets n
  omega

/-- The shortest decimal has no digits behind the point exactly if the double is a whole number. -/
theorem exponent_shortest_nonneg_iff (hb : b < infinity) (hpos : 0 < b) : 0 ≤ (shortest b).exponent ↔ IsWhole b := by
  constructor
  · intro h
    have hpattern := pattern_shortest hb
    have := isWhole_of_exponent_nonneg (hpattern.symm ▸ hb) h
    rwa [hpattern] at this
  · intro h
    exact exponent_shortestFrom_nonneg hb h (le_coarsest (Nat.le_of_dvd (units_pos hpos) h))

end Decimal
end Reckon
