import Packrat.Proofs.Binary64
/-!
# NumberRange — which numbers are read as floats

A number with a negative exponent is read, be it as a zero.  Another is read if its exponent is that of a power of ten
among the floats and the product of the floats is finite: both factors are rounded, and then the product.
-/
namespace Packrat.Json

open Binary64

/-- The number is zero, or its exponent is negative, or the product of its factors as floats is finite. -/
def NumberText.InRange (n : NumberText) : Prop :=
  n.significand = 0 ∨ n.exponent < 0 ∨
    n.exponent ≤ 308 ∧ nearest n.significand.toNat * nearest (10 ^ n.exponent.toNat) < limit

instance : DecidablePred NumberText.InRange := fun n =>
  inferInstanceAs (Decidable (n.significand = 0 ∨ n.exponent < 0 ∨
    n.exponent ≤ 308 ∧ nearest n.significand.toNat * nearest (10 ^ n.exponent.toNat) < limit))

variable {f : Float} {e : Int}

theorem isSome_scale_of_neg (h : e < 0) : (scale f e).isSome = true := by
  fun_induction scale f e with
  | case1 | case2 | case5 => omega
  | case3 | case4 => rfl
  | case6 f e _ _ _ ih => exact ih (by omega)

theorem isSome_scale_of_le (hlow : 0 ≤ e) (hhigh : e ≤ 308) :
    (scale f e).isSome = true ↔ ¬(f * powerOfTen e.toNat).isInf = true := by
  obtain ⟨k, rfl⟩ := Int.eq_ofNat_of_zero_le hlow
  rw [scale, if_pos (by omega), if_pos hlow]
  change (if (f * powerOfTen k).isInf = true then none else some (f * powerOfTen k)).isSome = true ↔
    ¬(f * powerOfTen k).isInf = true
  by_cases hinf : (f * powerOfTen k).isInf = true
  · rw [if_pos hinf]
    exact iff_of_false Bool.false_ne_true (not_not.2 hinf)
  · rw [if_neg hinf]
    exact iff_of_true rfl hinf

theorem isSome_scale_of_lt (h : 308 < e) : (scale f e).isSome = true ↔ (f == 0.0) = true := by
  rw [scale, if_neg (by omega)]
  by_cases hzero : (f == 0.0) = true
  · rw [if_pos hzero]
    exact iff_of_true rfl hzero
  · rw [if_neg hzero, if_pos (by omega)]
    exact iff_of_false Bool.false_ne_true hzero

theorem beq_zero_of_stands {n : Nat} (h : Stands n f.toModel.unpack) : (f == 0.0) = false := by
  obtain ⟨s, m, e, hm, hf, -⟩ := h.exists
  have hzero : (0.0 : Float).toModel.unpack = .zero .positive := rfl
  change Float.Model.UnpackedFloat.beq f.toModel.unpack (0.0 : Float).toModel.unpack = false
  rw [hf, hzero]
  cases s <;> rfl

theorem isSome_scale_zero : (scale (0 : UInt64).toFloat e).isSome = true := by
  rcases Int.lt_or_le e 0 with h | h
  · exact isSome_scale_of_neg h
  · rcases Int.lt_or_le 308 e with hlarge | hsmall
    · exact (isSome_scale_of_lt hlarge).2 (by decide)
    · obtain ⟨k, rfl⟩ := Int.eq_ofNat_of_zero_le h
      refine (isSome_scale_of_le h hsmall).2 ?_
      have hzero : (0 : UInt64).toFloat.toModel.unpack = .zero .positive := rfl
      obtain ⟨s, m, e, hm, hk, -⟩ := (stands_powerOfTen (k := k) (by omega)).exists
      change ¬(Float.Model.pack (.mul .binary64 _ (powerOfTen k).toModel.unpack)).isInf = true
      rw [hzero, hk, Bool.not_eq_true]
      exact isInf_pack_zero _

/-- **A number is read as a float exactly if it is in the range.** -/
theorem NumberText.isSome_toFloat? (n : NumberText) : n.toFloat?.isSome = true ↔ n.InRange := by
  rw [toFloat?, Option.isSome_map, InRange]
  by_cases hzero : n.significand = 0
  · rw [hzero]
    exact iff_of_true isSome_scale_zero (Or.inl rfl)
  rw [or_iff_right hzero]
  have hf := stands_toFloat hzero
  rcases Int.lt_or_le n.exponent 0 with hneg | hpos
  · exact iff_of_true (isSome_scale_of_neg hneg) (Or.inl hneg)
  rw [or_iff_right (Int.not_lt.2 hpos)]
  rcases Int.lt_or_le 308 n.exponent with hlarge | hsmall
  · rw [isSome_scale_of_lt hlarge, beq_zero_of_stands hf]
    exact iff_of_false Bool.false_ne_true fun h => Int.not_le.2 hlarge h.1
  · rw [isSome_scale_of_le hpos hsmall, isInf_mul hf (stands_powerOfTen (by omega)), and_iff_right hsmall, Nat.not_le]

/-- A number below the largest float that is refused, and one above it that is taken. -/
example : (⟨false, 17976931348623158, 292⟩ : NumberText).toFloat? = none ∧
    (⟨false, 179769313486231581, 291⟩ : NumberText).toFloat?.isSome = true := by
  rw [← Option.not_isSome_iff_eq_none, NumberText.isSome_toFloat?, NumberText.isSome_toFloat?]
  decide +kernel

end Packrat.Json
