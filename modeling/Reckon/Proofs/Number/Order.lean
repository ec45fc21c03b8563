import Reckon.Proofs.Number.Sign
import Reckon.Proofs.Number.Nearest

/-!
# Doubles in order

The magnitudes of finite doubles are in the order of their patterns (`abs_le_abs`, `abs_lt_abs`), and a double that is not
zero is below zero exactly if it has a minus sign (`lt_zero_iff`).
-/

namespace Reckon.Number

open Float.Model Float.Model.UnpackedFloat

variable {x y : Float} {e : BitVec 11} {m : BitVec 52} {b : Nat}

/-! ## Magnitudes taken apart -/

/-- A magnitude is taken apart as its mantissa and the power of two that the mantissa is counted in. -/
theorem unpack_bits_eq (he : e ≠ -1#11) (hb : e.toNat * 2 ^ 52 + m.toNat = b) (s : Sign) :
    (b = 0 ∧ UnpackedFloat.unpack .binary64 (bits s e m) = .zero s) ∨
      ∃ hpos, UnpackedFloat.unpack .binary64 (bits s e m) = .finite s (mantissa b) (exponent b - 1074) hpos := by
  have hm := m.isLt
  have hbias : (Format.binary64.exponentBias : Int) = 1023 := rfl
  have hbits : (Format.binary64.mantissaBitsWithoutImplicit : Int) = 52 := rfl
  simp only [UnpackedFloat.unpack, unpackSign_packComponents, unpackExponent_packComponents,
    unpackMantissa_packComponents, Sign.ofBitVec_toBitVec, if_neg he]
  split
  · rename_i he0
    have hzero : e.toNat = 0 := by rw [he0]; rfl
    have hexponent : exponent b = 0 := by
      rw [exponent_eq]
      omega
    have hmantissa : mantissa b = m.toNat := by
      rw [mantissa_eq, hexponent]
      omega
    split
    · rename_i hm0
      refine .inl ⟨?_, rfl⟩
      have : m.toNat = 0 := by rw [hm0]; rfl
      omega
    · rename_i hm0
      refine .inr ⟨?_, ?_⟩
      · rw [hmantissa]
        exact Nat.pos_of_ne_zero fun h => hm0 (BitVec.eq_of_toNat_eq h)
      · simp only [hmantissa, hexponent, hzero, hbias, hbits]
        rfl
  · rename_i he0
    have hpos : e.toNat ≠ 0 := fun h => he0 (BitVec.eq_of_toNat_eq h)
    have hexponent : exponent b = e.toNat - 1 := by
      rw [exponent_eq]
      omega
    have hmantissa : mantissa b = (1#1 ++ m).toNat := by
      rw [mantissa_eq, hexponent, toNat_append]
      simp only [BitVec.toNat_ofNat]
      omega
    refine .inr ⟨?_, ?_⟩
    · rw [hmantissa, toNat_append]
      simp only [BitVec.toNat_ofNat]
      omega
    · have hexp : (e.toNat : Int) - (Format.binary64.exponentBias + Format.binary64.mantissaBitsWithoutImplicit) =
          (exponent b : Int) - 1074 := by
        rw [hbias, hbits, hexponent]
        omega
      simp only [hmantissa, hexp]

/-- Exponents and then mantissas are compared, and patterns are in the same order. -/
theorem compare_exponent_mantissa (a b : Nat) :
    (compare ((exponent a : Int) - 1074) (exponent b - 1074)).then (compare (mantissa a) (mantissa b)) = compare a b := by
  have ha := exponent_add_mantissa a
  have hb := exponent_add_mantissa b
  have hla := mantissa_lt a
  have hlb := mantissa_lt b
  rcases Nat.lt_trichotomy (exponent a) (exponent b) with h | h | h
  · have := le_mantissa (b := b) (by omega)
    have hlt : a < b := by omega
    rw [Int.compare_eq_lt.mpr (by omega), Nat.compare_eq_lt.mpr hlt]
    rfl
  · rw [h, Std.compare_self, Ordering.eq_then]
    rcases Nat.lt_trichotomy (mantissa a) (mantissa b) with hm | hm | hm
    · have hlt : a < b := by omega
      rw [Nat.compare_eq_lt.mpr hm, Nat.compare_eq_lt.mpr hlt]
    · have heq : a = b := by omega
      rw [Nat.compare_eq_eq.mpr hm, Nat.compare_eq_eq.mpr heq]
    · have hgt : b < a := by omega
      rw [Nat.compare_eq_gt.mpr hm, Nat.compare_eq_gt.mpr hgt]
  · have := le_mantissa (b := a) (by omega)
    have hgt : b < a := by omega
    rw [Int.compare_eq_gt.mpr (by omega), Nat.compare_eq_gt.mpr hgt]
    rfl

theorem pos_of_mantissa_pos (h : 0 < mantissa b) : 0 < b := by
  have := exponent_add_mantissa b
  omega

theorem unpack_eq (x : Float) : x.toModel.unpack = UnpackedFloat.unpack .binary64 x.toBits.toBitVec := rfl

theorem compare_abs (hx : x.isFinite) (hy : y.isFinite) :
    x.abs.toModel.unpack.compare y.abs.toModel.unpack = some (compare (pattern x) (pattern y)) := by
  obtain ⟨s, e, m, hbx⟩ := exists_bits x
  obtain ⟨s', e', m', hby⟩ := exists_bits y
  have he := (isFinite_iff hbx).mp hx
  have he' := (isFinite_iff hby).mp hy
  rw [unpack_eq, unpack_eq, toBits_abs hbx he, toBits_abs hby he']
  rcases unpack_bits_eq he (pattern_eq hbx).symm .positive with ⟨hzero, hunpack⟩ | ⟨hpos, hunpack⟩ <;>
    rcases unpack_bits_eq he' (pattern_eq hby).symm .positive with ⟨hzero', hunpack'⟩ | ⟨hpos', hunpack'⟩ <;>
    rw [hunpack, hunpack']
  · rw [hzero, hzero']
    rfl
  · rw [Nat.compare_eq_lt.mpr (hzero ▸ pos_of_mantissa_pos hpos')]
    rfl
  · rw [Nat.compare_eq_gt.mpr (hzero' ▸ pos_of_mantissa_pos hpos)]
    rfl
  · exact congrArg some (compare_exponent_mantissa _ _)

/-! ## The order -/

theorem le_iff (x y : Float) : x ≤ y ↔ x.toModel.unpack.le y.toModel.unpack :=
  @decide_eq_true_iff (x.toModel ≤ y.toModel) _

theorem lt_iff (x y : Float) : x < y ↔ x.toModel.unpack.lt y.toModel.unpack :=
  @decide_eq_true_iff (x.toModel < y.toModel) _

theorem abs_le_abs (hx : x.isFinite) (hy : y.isFinite) : x.abs ≤ y.abs ↔ pattern x ≤ pattern y := by
  rw [le_iff, UnpackedFloat.le, compare_abs hx hy, Option.any_some, Nat.isLE_compare]

theorem abs_lt_abs (hx : x.isFinite) (hy : y.isFinite) : x.abs < y.abs ↔ pattern x < pattern y := by
  rw [lt_iff, UnpackedFloat.lt, compare_abs hx hy, beq_iff_eq, Option.some.injEq, Nat.compare_eq_lt]

/-- Zeros apart, the doubles below zero are those with a minus sign. -/
theorem lt_zero_iff (hx : x.isFinite) (hpos : 0 < pattern x) : x < 0 ↔ isNegative x := by
  obtain ⟨s, e, m, hbx⟩ := exists_bits x
  have he := (isFinite_iff hbx).mp hx
  have hzero : (0 : Float).toModel.unpack = .zero .positive := rfl
  rw [lt_iff, isNegative_iff hbx, unpack_eq, hbx, hzero]
  rcases unpack_bits_eq he (pattern_eq hbx).symm s with ⟨h0, -⟩ | ⟨hm, hunpack⟩
  · omega
  · rw [hunpack]
    cases s with
    | negative => exact iff_of_true rfl rfl
    | positive => exact iff_of_false Bool.false_ne_true nofun

end Reckon.Number
