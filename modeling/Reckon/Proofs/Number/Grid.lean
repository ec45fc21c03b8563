import Reckon.Proofs.Number.Shortest
import Reckon.Proofs.Number.Value

/-!
# The search for a grid

The decimal that is found on a grid is preferred to all others there that read as the same double (`preferred_of_onGrid?`),
and on coarser grids there are none (`exponent_le_shortestFrom`, `exponent_le_coarsest`).
-/

namespace Reckon

namespace Number

variable {p q r v : ℚ}

/-! ## Nearness -/

/-- As near to `v` as `q` is, or nearer, and not the lower one of two that are equally near. -/
def Preferred (v p q : ℚ) : Prop :=
  |p - v| < |q - v| ∨ |p - v| = |q - v| ∧ q ≤ p

namespace Preferred

theorem trans (h : Preferred v p q) (h' : Preferred v q r) : Preferred v p r := by
  rcases h with h | ⟨h, hle⟩ <;> rcases h' with h' | ⟨h', hle'⟩
  · exact .inl (h.trans h')
  · exact .inl (h.trans_eq h')
  · exact .inl (h.trans_lt h')
  · exact .inr ⟨h.trans h', hle'.trans hle⟩

theorem eq (h : Preferred v p q) (h' : Preferred v q p) : p = q := by
  rcases h with h | ⟨h, hle⟩ <;> rcases h' with h' | ⟨h', hle'⟩
  · exact absurd h (not_lt_of_gt h')
  · exact absurd h' (ne_of_gt h)
  · exact absurd h (ne_of_gt h')
  · exact le_antisymm hle' hle

theorem of_below (hqp : q ≤ p) (hp : p ≤ v) : Preferred v p q := by
  rw [Preferred, abs_of_nonpos (by linarith), abs_of_nonpos (by linarith)]
  rcases hqp.lt_or_eq with h | rfl
  · exact .inl (by linarith)
  · exact .inr ⟨rfl, le_refl _⟩

theorem of_above (hp : v ≤ p) (hpq : p ≤ q) : Preferred v p q := by
  rw [Preferred, abs_of_nonneg (by linarith), abs_of_nonneg (by linarith)]
  rcases hpq.lt_or_eq with h | rfl
  · exact .inl (by linarith)
  · exact .inr ⟨rfl, le_refl _⟩

theorem of_upper (hq : q ≤ v) (hp : v ≤ p) (h : p - v ≤ v - q) : Preferred v p q := by
  rw [Preferred, abs_of_nonneg (by linarith), abs_of_nonpos (by linarith)]
  rcases h.lt_or_eq with h | h
  · exact .inl (by linarith)
  · exact .inr ⟨by linarith, hq.trans hp⟩

theorem of_lower (hp : p ≤ v) (h : v - p < q - v) : Preferred v p q := by
  rw [Preferred, abs_of_nonpos (by linarith), abs_of_nonneg (by linarith)]
  exact .inl (by linarith)

end Preferred
end Number

namespace Decimal

open Number

variable {b g k : Nat} {e : Int} {d d' : Decimal}

/-! ## Neighbours on a grid -/

theorem value_le_value (he : d.exponent = d'.exponent) (h : d.digits ≤ d'.digits) : d.value ≤ d'.value := by
  rw [value, value, he]
  exact mul_le_mul_of_nonneg_right (by exact_mod_cast h) (by positivity)

/-- What is between a double and a decimal that reads as it reads as it too. -/
theorem pattern_eq_of_le (hb : b ≤ infinity) (hread : d'.pattern = b) (hle : d'.value ≤ d.value)
    (hd : d.value ≤ Number.value b) : d.pattern = b :=
  Rounds.between (hread ▸ rounds_pattern d') (rounds_value hb) (rounds_pattern d) hle hd

theorem pattern_eq_of_ge (hb : b ≤ infinity) (hread : d'.pattern = b) (hd : Number.value b ≤ d.value)
    (hle : d.value ≤ d'.value) : d.pattern = b :=
  Rounds.between (rounds_value hb) (hread ▸ rounds_pattern d') (rounds_pattern d) hd hle

/-- A double is some part of the way up from one of its neighbours on a grid to the other. -/
theorem exists_part {n s : Nat} (hn : n = units b * Nat.pow 10 (-e).toNat) (hs : s = Nat.pow 10 e.toNat <<< 1074) :
    ∃ r : ℚ, 0 ≤ r ∧ r < 1 ∧ Number.value b = ((n / s : Nat) + r) * 10 ^ e ∧ (s ≤ 2 * (n % s) ↔ 1 ≤ 2 * r) := by
  rw [Nat.shiftLeft_eq] at hs
  rw [Number.value]
  generalize 1074 = k at hs ⊢
  have hpos : 0 < s := by
    rw [hs]
    exact Nat.mul_pos (Nat.pow_pos (by decide)) (Nat.two_pow_pos k)
  have hcast : (0 : ℚ) < s := by exact_mod_cast hpos
  have hsplit : ((n / s : Nat) + (n % s : Nat) / s : ℚ) = n / s := by
    rw [eq_div_iff hcast.ne', add_mul, div_mul_cancel₀ _ hcast.ne', mul_comm]
    exact_mod_cast Nat.div_add_mod n s
  refine ⟨(n % s : Nat) / s, by positivity, ?_, ?_, ?_⟩
  · rw [div_lt_one hcast]
    exact_mod_cast Nat.mod_lt n hpos
  · have he : e = e.toNat - (-e).toNat := by omega
    rw [hsplit]
    nth_rewrite 1 [he]
    rw [zpow_sub₀ (by norm_num), zpow_natCast, zpow_natCast, hn, hs]
    simp only [Nat.pow_eq]
    push_cast
    field_simp
  · rw [← mul_div_assoc, le_div_iff₀ hcast, one_mul]
    norm_cast

/-- The two neighbours of a double on a grid. -/
structure Neighbours (b : Nat) (e : Int) (below above : Decimal) : Prop where
  exponent_below : below.exponent = e
  exponent_above : above.exponent = e
  digits_above : above.digits = below.digits + 1
  below_le : below.value ≤ Number.value b
  le_above : Number.value b ≤ above.value

/-- The neighbours of a double are tried, and if both read as the double, it counts which of them is nearer. -/
theorem exists_neighbours (b : Nat) (e : Int) : ∃ below above, Neighbours b e below above ∧ onGrid? b e =
    if below.pattern = b then
      if above.pattern = b ∧ above.value - Number.value b ≤ Number.value b - below.value then some above else some below
    else if above.pattern = b then some above
    else none := by
  obtain ⟨r, hr, hr', hvalue, hhalf⟩ := exists_part (b := b) (e := e) rfl rfl
  unfold onGrid?
  extract_lets n s below above
  have hten : (0 : ℚ) < 10 ^ e := by positivity
  have hbelow : Number.value b - below.value = r * 10 ^ e := by
    rw [hvalue, value_mk]
    ring
  have habove : above.value - Number.value b = (1 - r) * 10 ^ e := by
    rw [hvalue, value_mk]
    push_cast
    ring
  have hnearer : (s ≤ 2 * (n % s)) = (above.value - Number.value b ≤ Number.value b - below.value) := by
    rw [hbelow, habove, mul_le_mul_iff_left₀ hten, hhalf]
    exact propext ⟨fun _ => by linarith, fun _ => by linarith⟩
  refine ⟨below, above, ⟨rfl, rfl, rfl, ?_, ?_⟩, by simp only [hnearer]⟩
  · rw [← sub_nonneg, hbelow]
    positivity
  · rw [← sub_nonneg, habove]
    exact mul_nonneg (by linarith) hten.le

namespace Neighbours

variable {below above : Decimal}

/-- What is on the grid is not between the neighbours. -/
theorem le_or_ge (h : Neighbours b e below above) (he : d'.exponent = e) :
    d'.value ≤ below.value ∨ above.value ≤ d'.value := by
  rcases Nat.lt_or_ge below.digits d'.digits with hlt | hle
  · exact .inr (value_le_value (h.exponent_above.trans he.symm) (h.digits_above ▸ hlt))
  · exact .inl (value_le_value (he.trans h.exponent_below.symm) hle)

end Neighbours

/-- The decimal on a grid is preferred to every other one there that reads as the same double. -/
theorem preferred_of_onGrid? (hb : b ≤ infinity) (h : onGrid? b e = some d) (he : d'.exponent = e) (hread : d'.pattern = b) :
    Preferred (Number.value b) d.value d'.value := by
  obtain ⟨below, above, hn, hgrid⟩ := exists_neighbours b e
  rw [hgrid] at h
  rcases hn.le_or_ge he with hle | hge
  · rw [if_pos (pattern_eq_of_le hb hread hle hn.below_le)] at h
    have hlow := Preferred.of_below hle hn.below_le
    split at h
    · rename_i hnear
      obtain rfl := Option.some.inj h
      exact (Preferred.of_upper hn.below_le hn.le_above hnear.2).trans hlow
    · obtain rfl := Option.some.inj h
      exact hlow
  · have habove := pattern_eq_of_ge hb hread hn.le_above hge
    have hhigh := Preferred.of_above hn.le_above hge
    split at h
    · split at h
      · obtain rfl := Option.some.inj h
        exact hhigh
      · rename_i hfar
        obtain rfl := Option.some.inj h
        exact (Preferred.of_lower hn.below_le (not_le.mp fun h => hfar ⟨habove, h⟩)).trans hhigh
    · obtain rfl := Option.some.inj h
      exact hhigh

theorem pattern_ne_of_onGrid? (hb : b ≤ infinity) (h : onGrid? b e = none) (he : d'.exponent = e) : d'.pattern ≠ b := by
  intro hread
  obtain ⟨below, above, hn, hgrid⟩ := exists_neighbours b e
  rw [hgrid] at h
  rcases hn.le_or_ge he with hle | hge
  · rw [if_pos (pattern_eq_of_le hb hread hle hn.below_le)] at h
    split at h <;> cases h
  · rw [if_pos (pattern_eq_of_ge hb hread hn.le_above hge)] at h
    split at h
    · split at h <;> cases h
    · cases h

/-! ## The coarsest grid -/

/-- Powers are compared by one comparison of large powers. -/
theorem pow_le_pow_of_pow_le {x y a c m n : Nat} (hy : 0 < y) (ha : a ≠ 0) (h : x ^ a ≤ y ^ c) (hmn : c * m ≤ a * n) :
    x ^ m ≤ y ^ n := by
  rw [← Nat.pow_le_pow_iff_left ha]
  calc (x ^ m) ^ a = (x ^ a) ^ m := Nat.pow_right_comm x m a
    _ ≤ (y ^ c) ^ m := Nat.pow_le_pow_left h m
    _ = y ^ (c * m) := (Nat.pow_mul y c m).symm
    _ ≤ y ^ (n * a) := Nat.pow_le_pow_right hy (by rwa [Nat.mul_comm n])
    _ = (y ^ n) ^ a := Nat.pow_mul y n a

/-- `30103 / 100000` is near enough to `log 2 / log 10` for the powers of two that doubles are made of. -/
theorem two_zpow_le_ten_zpow {n p : Int} (hn : -1074 ≤ n) (hn' : n ≤ 1026) (hp : 30103 * n < 100000 * p) :
    (2 : ℚ) ^ n ≤ 10 ^ p := by
  rcases Int.lt_or_le n 0 with h | h
  · obtain ⟨m, rfl⟩ := Int.exists_eq_neg_ofNat h.le
    by_cases hp0 : p ≤ 0
    · obtain ⟨q, rfl⟩ := Int.exists_eq_neg_ofNat hp0
      have hmn : 2136 * q ≤ 643 * m := by omega
      rw [zpow_neg, zpow_neg, zpow_natCast, zpow_natCast]
      refine inv_anti₀ (by positivity) ?_
      exact_mod_cast pow_le_pow_of_pow_le (by decide) (by decide) (by decide +kernel : 10 ^ 643 ≤ 2 ^ 2136) hmn
    · exact (zpow_le_one_of_nonpos₀ (by norm_num) h.le).trans (one_le_zpow₀ (by norm_num) (by omega))
  · lift n to ℕ using h
    lift p to ℕ using (by omega)
    have hmn : 146 * n ≤ 485 * p := by omega
    rw [zpow_natCast, zpow_natCast]
    exact_mod_cast pow_le_pow_of_pow_le (by decide) (by decide) (by decide +kernel : 2 ^ 485 ≤ 10 ^ 146) hmn

theorem coarsest_eq (b : Nat) : coarsest b = (((units b).log2 + 2 - 1074 : Int) * 30103 / 100000 + 1 + 1074).toNat := rfl

/-- No decimal on a grid coarser than the coarsest one reads as the double. -/
theorem exponent_le_coarsest (hpos : 0 < b) (hb : b < infinity) (hread : d.pattern = b) (hdigits : 0 < d.digits) :
    d.exponent ≤ coarsest b - 1074 := by
  have hlog := log2_units_lt hb
  have hrounds : Rounds d.value b := hread ▸ rounds_pattern d
  have htwo := two_mul_value_le b
  rw [coarsest_eq]
  generalize hn : ((units b).log2 + 2 - 1074 : Int) = n at htwo ⊢
  have hten : (10 : ℚ) ^ d.exponent < 10 ^ (n * 30103 / 100000 + 1) := by
    calc (10 : ℚ) ^ d.exponent ≤ d.value := by
          rw [value]
          exact le_mul_of_one_le_left (by positivity) (by exact_mod_cast hdigits)
      _ < 2 * Number.value b := hrounds.lt_two_mul hpos hb
      _ ≤ 2 ^ n := htwo
      _ ≤ 10 ^ (n * 30103 / 100000 + 1) := two_zpow_le_ten_zpow (by omega) (by omega) (by omega)
  have := (zpow_lt_zpow_iff_right₀ (by norm_num)).mp hten
  omega

/-! ## The search for a grid -/

theorem value_finest (b : Nat) : (Decimal.mk (units b * Nat.pow 5 1074) (-1074)).value = Number.value b := by
  have hexponent : (-1074 : Int) = -(1074 : Nat) := rfl
  rw [value_mk, Number.value, hexponent]
  generalize 1074 = k
  have hten : (10 : ℚ) ^ k = 2 ^ k * 5 ^ k := by rw [← mul_pow]; norm_num
  rw [zpow_neg, zpow_natCast, hten, Nat.pow_eq]
  push_cast
  field_simp

/-- No decimal on a coarser grid, up to the first one tried, reads as the double. -/
theorem exponent_le_shortestFrom (hb : b ≤ infinity) (hread : d.pattern = b) (hg : d.exponent ≤ g - 1074) :
    d.exponent ≤ (shortestFrom b g).exponent := by
  induction g with
  | zero => exact hg
  | succ g ih =>
      rw [shortestFrom_succ]
      split
      · rename_i d' hd'
        rw [(pattern_of_onGrid? hd').2]
        exact hg
      · rename_i hnone
        have hne : d.exponent ≠ g + 1 - 1074 := fun he => pattern_ne_of_onGrid? hb hnone he hread
        exact ih (by omega)

theorem preferred_shortestFrom (hb : b ≤ infinity) (g : Nat) (hread : d.pattern = b)
    (he : d.exponent = (shortestFrom b g).exponent) : Preferred (Number.value b) (shortestFrom b g).value d.value := by
  induction g with
  | zero =>
      rw [shortestFrom_zero, value_finest]
      rcases le_total d.value (Number.value b) with h | h
      · exact .of_below h (le_refl _)
      · exact .of_above (le_refl _) h
  | succ g ih =>
      rw [shortestFrom_succ] at he ⊢
      split at he
      · rename_i d' hd'
        exact preferred_of_onGrid? hb hd' (he.trans (pattern_of_onGrid? hd').2) hread
      · exact ih he

end Decimal
end Reckon
