import Mathlib
import Reckon.Proofs.Number.Nearest

/-!
# Signs of doubles

A finite double is its magnitude, or minus its magnitude if it is negative (`neg_abs_of_isNegative`), and its magnitude is
the double with the same pattern and no sign (`ofPattern_pattern`).
-/

namespace Reckon.Number

open Float.Model Float.Model.UnpackedFloat

variable {x y : Float} {s : Sign} {e : BitVec 11} {m : BitVec 52} {b : Nat}

/-! ## Bits -/

/-- The bits of a double with this sign, this exponent and this fraction. -/
abbrev bits (s : Sign) (e : BitVec 11) (m : BitVec 52) : BitVec 64 :=
  packComponents .binary64 s e m

theorem exists_bits (x : Float) : ∃ s e m, x.toBits.toBitVec = bits s e m :=
  ⟨_, _, _, (@packComponents_unpackSign_unpackExponent_unpackMantissa .binary64 x.toBits.toBitVec).symm⟩

theorem toNat_append {n k : Nat} (a : BitVec n) (b : BitVec k) : (a ++ b).toNat = a.toNat * 2 ^ k + b.toNat := by
  rw [BitVec.toNat_append, ← Nat.shiftLeft_add_eq_or_of_lt b.isLt, Nat.shiftLeft_eq]

theorem toNat_bits (s : Sign) (e : BitVec 11) (m : BitVec 52) :
    (bits s e m).toNat = s.toBitVec.toNat * 2 ^ 63 + (e.toNat * 2 ^ 52 + m.toNat) := by
  show ((s.toBitVec ++ e) ++ m).toNat = _
  rw [toNat_append, toNat_append]
  omega

theorem neg_unpack_bits :
    (UnpackedFloat.unpack .binary64 (bits s e m)).neg = UnpackedFloat.unpack .binary64 (bits (-s) e m) := by
  simp only [UnpackedFloat.unpack, unpackSign_packComponents, unpackExponent_packComponents,
    unpackMantissa_packComponents, Sign.ofBitVec_toBitVec]
  -- the exponent and the fraction settle the sort of the double, and each sort carries the sign as it is
  repeat' split
  all_goals rfl

theorem abs_unpack_bits :
    (UnpackedFloat.unpack .binary64 (bits s e m)).abs = UnpackedFloat.unpack .binary64 (bits .positive e m) := by
  simp only [UnpackedFloat.unpack, unpackSign_packComponents, unpackExponent_packComponents,
    unpackMantissa_packComponents, Sign.ofBitVec_toBitVec]
  repeat' split
  all_goals rfl

theorem isFinite_unpack_bits : (UnpackedFloat.unpack .binary64 (bits s e m)).isFinite ↔ e ≠ -1#11 := by
  simp only [UnpackedFloat.unpack, unpackSign_packComponents, unpackExponent_packComponents,
    unpackMantissa_packComponents, Sign.ofBitVec_toBitVec]
  repeat' split
  all_goals simp_all [UnpackedFloat.isFinite]

theorem isNaN_unpack_bits : (UnpackedFloat.unpack .binary64 (bits s e m)).isNaN ↔ e = -1#11 ∧ m ≠ 0#52 := by
  simp only [UnpackedFloat.unpack, unpackSign_packComponents, unpackExponent_packComponents,
    unpackMantissa_packComponents, Sign.ofBitVec_toBitVec]
  repeat' split
  all_goals simp_all [UnpackedFloat.isNaN]

theorem pack_unpack_bits (he : e ≠ -1#11) :
    (UnpackedFloat.unpack .binary64 (bits s e m)).pack .binary64 = bits s e m := by
  rw [pack_unpack, if_neg]
  simp only [isNaNBits, unpackExponent_packComponents, he, false_and, decide_false, Bool.false_eq_true,
    not_false_eq_true]

/-! ## Magnitudes and signs -/

section
variable (hx : x.toBits.toBitVec = bits s e m)
include hx

theorem toNat_toBits : x.toBits.toNat = s.toBitVec.toNat * 2 ^ 63 + (e.toNat * 2 ^ 52 + m.toNat) := by
  rw [← toNat_bits, ← hx]
  rfl

theorem pattern_eq : pattern x = e.toNat * 2 ^ 52 + m.toNat := by
  have he := e.isLt
  have hm := m.isLt
  rw [pattern, toNat_toBits hx, Nat.one_shiftLeft]
  omega

theorem isNegative_iff : isNegative x ↔ s = .negative := by
  have he := e.isLt
  have hm := m.isLt
  rw [isNegative, toNat_toBits hx, Nat.testBit_eq_decide_div_mod_eq, decide_eq_true_eq]
  cases s with
  | negative =>
      simp only [Sign.toBitVec, BitVec.toNat_ofNat, iff_true]
      omega
  | positive =>
      simp only [Sign.toBitVec, BitVec.toNat_ofNat, reduceCtorEq, iff_false]
      omega

theorem isFinite_iff : x.isFinite ↔ e ≠ -1#11 := by
  rw [← isFinite_unpack_bits (s := s) (m := m), ← hx]
  rfl

theorem isNaN_iff : x.isNaN ↔ e = -1#11 ∧ m ≠ 0#52 := by
  rw [← isNaN_unpack_bits (s := s), ← hx]
  rfl

theorem toBits_abs (he : e ≠ -1#11) : x.abs.toBits.toBitVec = bits .positive e m := by
  show (UnpackedFloat.unpack .binary64 x.toBits.toBitVec).abs.pack .binary64 = _
  rw [hx, abs_unpack_bits, pack_unpack_bits he]

theorem toBits_neg (he : e ≠ -1#11) : (-x).toBits.toBitVec = bits (-s) e m := by
  show (UnpackedFloat.unpack .binary64 x.toBits.toBitVec).neg.pack .binary64 = _
  rw [hx, neg_unpack_bits, pack_unpack_bits he]

end

theorem toBits_ofPattern (he : e ≠ -1#11) :
    (ofPattern (e.toNat * 2 ^ 52 + m.toNat)).toBits.toBitVec = bits .positive e m := by
  have hbits : (UInt64.ofNat (e.toNat * 2 ^ 52 + m.toNat)).toBitVec = bits .positive e m := by
    have := e.isLt
    have := m.isLt
    refine BitVec.eq_of_toNat_eq ?_
    rw [toNat_bits, UInt64.toBitVec_ofNat', BitVec.toNat_ofNat]
    simp only [Sign.toBitVec, BitVec.toNat_ofNat]
    omega
  show (UnpackedFloat.unpack .binary64 (UInt64.ofNat (e.toNat * 2 ^ 52 + m.toNat)).toBitVec).pack .binary64 = _
  rw [hbits, pack_unpack_bits he]

theorem eq_of_toBits (hx : x.toBits.toBitVec = bits s e m) (hy : y.toBits.toBitVec = bits s e m) : x = y :=
  Float.toBits_inj.mp (UInt64.toBitVec_inj.mp (hx.trans hy.symm))

/-- The magnitude of a double has its pattern and no sign. -/
theorem ofPattern_pattern (h : x.isFinite) : ofPattern (pattern x) = x.abs := by
  obtain ⟨s, e, m, hx⟩ := exists_bits x
  have he := (isFinite_iff hx).mp h
  rw [pattern_eq hx]
  exact eq_of_toBits (toBits_ofPattern he) (toBits_abs hx he)

theorem abs_of_not_isNegative (h : x.isFinite) (hn : isNegative x = false) : x.abs = x := by
  obtain ⟨s, e, m, hx⟩ := exists_bits x
  have he := (isFinite_iff hx).mp h
  cases s with
  | negative =>
      rw [(isNegative_iff hx).mpr rfl] at hn
      cases hn
  | positive => exact eq_of_toBits (toBits_abs hx he) hx

theorem neg_abs_of_isNegative (h : x.isFinite) (hn : isNegative x) : -x.abs = x := by
  obtain ⟨s, e, m, hx⟩ := exists_bits x
  have he := (isFinite_iff hx).mp h
  obtain rfl := (isNegative_iff hx).mp hn
  exact eq_of_toBits (toBits_neg (toBits_abs hx he) he) hx

theorem pattern_lt_infinity (h : x.isFinite) : pattern x < infinity := by
  obtain ⟨s, e, m, hx⟩ := exists_bits x
  have he : e.toNat ≠ 2047 := fun h2047 => (isFinite_iff hx).mp h (BitVec.eq_of_toNat_eq h2047)
  have := e.isLt
  have := m.isLt
  rw [pattern_eq hx, infinity_eq]
  omega

/-- A double that is a number and is not finite is infinity or minus infinity. -/
theorem isFinite_of_pattern_ne (hnan : x ≠ Float.nan) (h : pattern x ≠ infinity) : x.isFinite := by
  obtain ⟨s, e, m, hx⟩ := exists_bits x
  refine (isFinite_iff hx).mpr fun he => h ?_
  have hm : m = 0#52 := by
    refine Classical.byContradiction fun hm => hnan ?_
    simpa using (isNaN_iff hx).mpr ⟨he, hm⟩
  rw [pattern_eq hx, he, hm]
  decide

theorem pattern_ofPattern (h : b < infinity) : pattern (ofPattern b) = b := by
  rw [infinity_eq] at h
  have he : (BitVec.ofNat 11 (b / 2 ^ 52)).toNat = b / 2 ^ 52 := by
    rw [BitVec.toNat_ofNat]
    omega
  have hm : (BitVec.ofNat 52 (b % 2 ^ 52)).toNat = b % 2 ^ 52 := by
    rw [BitVec.toNat_ofNat]
    omega
  have hb : (BitVec.ofNat 11 (b / 2 ^ 52)).toNat * 2 ^ 52 + (BitVec.ofNat 52 (b % 2 ^ 52)).toNat = b := by
    rw [he, hm]
    omega
  have hne : BitVec.ofNat 11 (b / 2 ^ 52) ≠ -1#11 := by
    intro heq
    have : b / 2 ^ 52 = 2047 := by rw [← he, heq]; rfl
    omega
  have hbits := pattern_eq (toBits_ofPattern (m := BitVec.ofNat 52 (b % 2 ^ 52)) hne)
  rwa [hb] at hbits

/-- Pattern and sign make the double. -/
theorem eq_of_pattern_eq (h : pattern x = pattern y) (hs : isNegative x = isNegative y) : x = y := by
  obtain ⟨s, e, m, hx⟩ := exists_bits x
  obtain ⟨s', e', m', hy⟩ := exists_bits y
  rw [pattern_eq hx, pattern_eq hy] at h
  have hsign : s = s' := by
    have hxs := isNegative_iff hx
    rw [hs, isNegative_iff hy] at hxs
    cases s <;> cases s' <;> simp_all
  refine Float.toBits_inj.mp (UInt64.toNat_inj.mp ?_)
  rw [toNat_toBits hx, toNat_toBits hy, h, hsign]

theorem eq_zero_or_neg_zero (h : pattern x = 0) : x = 0 ∨ x = -0 := by
  have hzero : pattern 0 = 0 ∧ isNegative 0 = false := by decide +kernel
  have hneg : pattern (-0) = 0 ∧ isNegative (-0) = true := by decide +kernel
  cases hs : isNegative x with
  | false => exact .inl (eq_of_pattern_eq (h.trans hzero.1.symm) (hs.trans hzero.2.symm))
  | true => exact .inr (eq_of_pattern_eq (h.trans hneg.1.symm) (hs.trans hneg.2.symm))

theorem ne_nan_of_isFinite (h : x.isFinite) : x ≠ Float.nan := by
  rintro rfl
  exact absurd h (by decide +kernel)

theorem pattern_eq_zero_of_beq_zero (h : x == 0) : pattern x = 0 := by
  obtain ⟨-, -, rfl | ⟨rfl, -⟩ | ⟨rfl, -⟩⟩ := Float.beq_iff_ne_nan_and_eq.mp h <;> decide +kernel

end Reckon.Number
