import Mathlib
import Packrat.Json.Number
/-!
# Binary64 — numbers as floats, and which products are infinite

A natural number becomes a float by rounding it to 53 digits (`nearest`, `stands_toFloat`, `stands_powerOfTen`).  A float
is packed as an infinity when its exponent is too large.  Rounding a product makes one digit more at most, and does so
if the first 54 digits are ones; so a product of floats is infinite exactly from half a place above the largest float on
(`isInf_mul`).
-/
namespace Packrat.Binary64

open Float.Model Float.Model.UnpackedFloat

/-! ## Packed floats -/

theorem isInf_unpack {spec : Format} (b : BitVec spec.numBits) :
    UnpackedFloat.isInf (UnpackedFloat.unpack spec b) = true ↔ unpackExponent b = -1#_ ∧ unpackMantissa b = 0#_ := by
  unfold UnpackedFloat.unpack
  dsimp only
  split
  · rename_i he
    split
    · rename_i hm
      exact iff_of_true rfl ⟨he, hm⟩
    · rename_i hm
      exact iff_of_false Bool.false_ne_true fun h => hm h.2
  · rename_i he
    have hno : ¬(unpackExponent b = -1#_ ∧ unpackMantissa b = 0#_) := fun h => he h.1
    split
    · split <;> exact iff_of_false Bool.false_ne_true hno
    · exact iff_of_false Bool.false_ne_true hno

theorem isInf_pack_zero (s : Sign) : (Float.Model.pack (.zero s)).isInf = false := by
  cases s <;> decide

theorem isInf_pack_finite {s : Sign} {m : Nat} {e : Int} {hm : 0 < m} :
    (Float.Model.pack (.finite s m e hm)).isInf = true ↔ 972 ≤ e := by
  have hbias : Format.binary64.exponentBias = 1023 := by decide
  change (UnpackedFloat.unpack .binary64 (UnpackedFloat.pack .binary64 (.finite s m e hm))).isInf = true ↔ _
  rw [UnpackedFloat.pack, hbias]
  dsimp only
  split
  · rename_i h
    rw [packedInfinity, isInf_unpack, unpackExponent_packComponents, unpackMantissa_packComponents]
    refine iff_of_true ⟨rfl, rfl⟩ ?_
    omega
  · rename_i h
    have he : ¬972 ≤ e := by omega
    split
    · rw [isInf_unpack, unpackExponent_packComponents]
      refine iff_of_false ?_ he
      rintro ⟨hvec, -⟩
      have := congrArg BitVec.toNat hvec
      simp at this
      omega
    · rw [isInf_unpack, unpackExponent_packComponents]
      exact iff_of_false (fun h => absurd h.1 (by decide)) he

theorem toNat_implicit {m : Nat} (hm : m.log2 = 52) : (1#1 ++ BitVec.ofNat 52 m).toNat = m := by
  have hne : m ≠ 0 := by
    rintro rfl
    cases hm
  have hbounds := (Nat.log2_eq_iff hne).1 hm
  simp only [BitVec.toNat_append, BitVec.toNat_ofNat, Nat.shiftLeft_eq]
  change 2 ^ 52 ||| m % 2 ^ 52 = m
  rw [Nat.or_comm, Nat.or_two_pow_eq_add_of_lt (Nat.mod_lt m (Nat.two_pow_pos 52))]
  omega

theorem unpack_normal {b : BitVec Format.binary64.numBits} {m : Nat} {e : Int} (hinf : unpackExponent b ≠ -1#_)
    (hzero : unpackExponent b ≠ 0#_) (hm : (1#1 ++ unpackMantissa b).toNat = m)
    (he : ((unpackExponent b).toNat : Int) - 1075 = e) (hpos : 0 < m) :
    ∃ s, UnpackedFloat.unpack .binary64 b = .finite s m e hpos := by
  subst hm he
  unfold UnpackedFloat.unpack
  dsimp only
  rw [if_neg hinf, if_neg hzero]
  exact ⟨_, rfl⟩

/-- **A float of 53 digits is unpacked as it was packed.** -/
theorem unpack_pack {s : Sign} {m : Nat} {e : Int} {hm : 0 < m} (hlog : m.log2 = 52) (hlow : -1074 ≤ e)
    (hhigh : e ≤ 971) : ∃ s', (Float.Model.pack (.finite s m e hm)).unpack = .finite s' m e hm := by
  have hbias : Format.binary64.exponentBias = 1023 := by decide
  have hbits : Format.binary64.mantissaBits = 53 := by decide
  obtain ⟨b, rfl⟩ : ∃ b : Nat, e = b - 1075 := ⟨(e + 1075).toNat, by omega⟩
  have hval : (BitVec.ofNat 11 b).toNat = b := by
    rw [BitVec.toNat_ofNat, Nat.mod_eq_of_lt (by omega)]
  have hpack : UnpackedFloat.pack .binary64 (.finite s m (b - 1075) hm) =
      packComponents .binary64 s (BitVec.ofNat 11 b) (BitVec.ofNat 52 m) := by
    rw [UnpackedFloat.pack, hbias, hbits, hlog]
    dsimp only
    rw [if_neg (by omega), if_pos rfl]
    congr 2
    omega
  have hexponent : unpackExponent (packComponents .binary64 s (BitVec.ofNat 11 b) (BitVec.ofNat 52 m)) =
      BitVec.ofNat 11 b := unpackExponent_packComponents
  have hmantissa : unpackMantissa (packComponents .binary64 s (BitVec.ofNat 11 b) (BitVec.ofNat 52 m)) =
      BitVec.ofNat 52 m := unpackMantissa_packComponents
  have hinf : BitVec.ofNat 11 b ≠ -1#11 := by
    intro h
    have htop : b = 2047 := hval.symm.trans (congrArg BitVec.toNat h)
    omega
  have hzero : BitVec.ofNat 11 b ≠ 0#11 := by
    intro h
    have hbottom : b = 0 := hval.symm.trans (congrArg BitVec.toNat h)
    omega
  change ∃ s', UnpackedFloat.unpack .binary64 (UnpackedFloat.pack .binary64 (.finite s m (b - 1075) hm)) = _
  rw [hpack]
  refine unpack_normal ?_ ?_ ?_ ?_ hm
  · rw [hexponent]
    exact hinf
  · rw [hexponent]
    exact hzero
  · rw [hmantissa]
    exact toNat_implicit hlog
  · rw [hexponent, hval]

/-! ## Rounding -/

/-- The quotient rounded to the nearest number; of two that are as near, to the even one. -/
def halfEven (n d : Nat) : Nat :=
  if 2 * (n % d) < d ∨ (2 * (n % d) = d ∧ n / d % 2 = 0) then n / d else n / d + 1

theorem halfEven_mul_mul {n d c : Nat} (hc : 0 < c) : halfEven (n * c) (d * c) = halfEven n d := by
  simp only [halfEven, Nat.mul_mod_mul_right, Nat.mul_div_mul_right _ _ hc, ← Nat.mul_assoc, Nat.mul_lt_mul_right hc,
    Nat.mul_left_inj (Nat.ne_of_gt hc)]

theorem halfEven_one (n : Nat) : halfEven n 1 = n := by
  rw [halfEven, Nat.mod_one, if_pos (Or.inl (by decide)), Nat.div_one]

theorem le_halfEven (n d : Nat) : n / d ≤ halfEven n d := by
  unfold halfEven
  split <;> omega

theorem halfEven_le (n d : Nat) : halfEven n d ≤ n / d + 1 := by
  unfold halfEven
  split <;> omega

/-- Rounding a number below `2 ^ 53` makes one digit more exactly if all digits and the next one are ones. -/
theorem halfEven_eq_iff {n d : Nat} (h : n < 2 ^ 53 * d) : halfEven n d = 2 ^ 53 ↔ (2 ^ 54 - 1) * d ≤ 2 * n := by
  have hd : 0 < d := Nat.pos_of_ne_zero fun hd => by simp [hd] at h
  have hlt : n / d < 2 ^ 53 := Nat.div_lt_of_lt_mul (Nat.mul_comm _ _ ▸ h)
  have hmod : n % d < d := Nat.mod_lt n hd
  have hn : d * (n / d) + n % d = n := Nat.div_add_mod n d
  unfold halfEven
  generalize n % d = r at *
  generalize n / d = q at *
  subst hn
  rcases Nat.lt_or_ge q (2 ^ 53 - 1) with hq | hq
  · have hle : d * q ≤ d * (2 ^ 53 - 2) := Nat.mul_le_mul_left d (by omega)
    refine iff_of_false ?_ ?_
    · split <;> omega
    · omega
  · obtain rfl : q = 2 ^ 53 - 1 := by omega
    split <;> omega

/-- The mantissa after a shift, with the two bits that stand for what is dropped. -/
def shifted (m k : Nat) : ExtendedMantissa := ExtendedMantissa.ofMantissaAndAccuracy m .exact >>> k

theorem mantissa_shifted (m k : Nat) : (shifted m k).mantissa = m / 2 ^ k := by
  induction k with
  | zero => exact (Nat.div_one m).symm
  | succ k ih =>
    change (shifted m k).mantissa / 2 = _
    rw [ih, Nat.div_div_eq_div_mul, Nat.pow_succ]

theorem residue_shifted (m k : Nat) : ((shifted m k).roundBit || (shifted m k).stickyBit) = (m % 2 ^ k != 0) := by
  induction k with
  | zero =>
    rw [Nat.pow_zero, Nat.mod_one]
    rfl
  | succ k ih =>
    change ((shifted m k).mantissa % 2 != 0 || ((shifted m k).roundBit || (shifted m k).stickyBit)) = _
    rw [ih, mantissa_shifted, Nat.mod_pow_succ, Bool.eq_iff_iff]
    simp
    omega

theorem roundedMantissa_eq (em : ExtendedMantissa) : em.roundedMantissa =
    if em.roundBit then if em.stickyBit then em.mantissa + 1 else em.mantissa + em.mantissa % 2 else em.mantissa := by
  obtain ⟨q, roundBit, stickyBit⟩ := em
  cases roundBit <;> cases stickyBit <;> rfl

/-- **The mantissa after a shift, rounded**, is the rounded quotient. -/
theorem roundedMantissa_shifted (m k : Nat) : (shifted m k).roundedMantissa = halfEven m (2 ^ k) := by
  cases k with
  | zero =>
    rw [Nat.pow_zero, halfEven_one]
    rfl
  | succ k =>
    have hshifted : shifted m (k + 1) = ⟨m / 2 ^ (k + 1), m / 2 ^ k % 2 != 0, m % 2 ^ k != 0⟩ := by
      rw [← residue_shifted, Nat.pow_succ, ← Nat.div_div_eq_div_mul, ← mantissa_shifted]
      rfl
    have hmod : m % 2 ^ (k + 1) = m % 2 ^ k + 2 ^ k * (m / 2 ^ k % 2) := Nat.mod_pow_succ
    have hlt : m % 2 ^ k < 2 ^ k := Nat.mod_lt m (Nat.two_pow_pos k)
    rw [hshifted, roundedMantissa_eq, halfEven, hmod]
    dsimp only
    generalize m / 2 ^ (k + 1) = q
    rw [Nat.pow_succ]
    generalize 2 ^ k = p at *
    -- the round bit is set from the middle on, and the sticky bit beyond it
    rcases Nat.mod_two_eq_zero_or_one (m / p) with hbit | hbit
    · rw [hbit, if_pos (Or.inl (by omega))]
      rfl
    · rw [hbit, if_pos (by decide)]
      by_cases hlow : m % p = 0
      · rw [hlow, if_neg (by decide)]
        split <;> omega
      · rw [if_pos (by simpa using hlow), if_neg (by omega)]

variable {m n : Nat} {e : Int}

theorem shiftToTargetExponent_eq (hlog : 52 ≤ m.log2) (he : -1074 ≤ e + (m.log2 - 52 : Nat)) :
    shiftToTargetExponent .binary64 m e .exact = (shifted m (m.log2 - 52), e + (m.log2 - 52 : Nat)) := by
  have hbits : Format.binary64.mantissaBits = 53 := by decide
  have hmin : Format.binary64.minExponent = -1074 := by decide
  have hshift : (Format.binary64.targetExponent (totalExponent m e) - e).toNat = m.log2 - 52 := by
    rw [Format.targetExponent, totalExponent, hbits, hmin]
    omega
  rw [shiftToTargetExponent, shiftToExponent, hshift]
  rfl

theorem ne_zero_of_le_log2 {k : Nat} (h : k + 1 ≤ m.log2) : m ≠ 0 := by
  rintro rfl
  rw [Nat.log2_zero] at h
  cases h

def rounded (m : Nat) : Nat := halfEven m (2 ^ (m.log2 - 52))

theorem rounded_bounds (hlog : 52 ≤ m.log2) : 2 ^ 52 ≤ rounded m ∧ rounded m ≤ 2 ^ 53 := by
  have hpos := Nat.two_pow_pos (m.log2 - 52)
  have hlow : 2 ^ 52 ≤ m / 2 ^ (m.log2 - 52) := by
    rw [Nat.le_div_iff_mul_le hpos, ← Nat.pow_add, Nat.add_sub_cancel' hlog]
    exact Nat.log2_self_le (ne_zero_of_le_log2 hlog)
  have hhigh : m / 2 ^ (m.log2 - 52) < 2 ^ 53 := by
    rw [Nat.div_lt_iff_lt_mul hpos, ← Nat.pow_add, show 53 + (m.log2 - 52) = m.log2 + 1 by omega]
    exact Nat.lt_log2_self
  exact ⟨Nat.le_trans hlow (le_halfEven _ _), Nat.le_trans (halfEven_le _ _) hhigh⟩

/-- **Rounding to 53 digits** may make one digit more, and then the last one is dropped: it is a zero. -/
theorem roundWithAccuracy_eq (s : Sign) (hlog : 52 ≤ m.log2) (he : -1074 ≤ e + (m.log2 - 52 : Nat)) :
    ∃ m' e' h, roundWithAccuracy .binary64 s m e .exact = .finite s m' e' h ∧ m'.log2 = 52 ∧
      (rounded m ≠ 2 ^ 53 ∧ m' = rounded m ∧ e' = e + (m.log2 - 52 : Nat) ∨
        rounded m = 2 ^ 53 ∧ m' = 2 ^ 52 ∧ e' = e + (m.log2 - 52 : Nat) + 1) := by
  obtain ⟨hlow, hhigh⟩ := rounded_bounds hlog
  rw [roundWithAccuracy, shiftToTargetExponent_eq hlog he]
  dsimp only
  rw [roundedMantissa_shifted, ← rounded]
  generalize e + ((m.log2 - 52 : Nat) : Int) = e' at *
  generalize rounded m = r at *
  by_cases hr : r = 2 ^ 53
  · subst hr
    rw [shiftToTargetExponent_eq (by decide) (by rw [Nat.log2_two_pow]; omega), Nat.log2_two_pow]
    dsimp only
    rw [mantissa_shifted]
    exact ⟨2 ^ 52, e' + 1, by decide, dif_neg (by decide), Nat.log2_two_pow, Or.inr ⟨rfl, rfl, rfl⟩⟩
  · have hlog' : r.log2 = 52 := (Nat.log2_eq_iff (by omega)).2 ⟨hlow, by omega⟩
    rw [shiftToTargetExponent_eq (by omega) (by omega), hlog']
    dsimp only
    rw [mantissa_shifted, Nat.sub_self, Nat.pow_zero, Nat.div_one, Int.natCast_zero, Int.add_zero]
    exact ⟨r, e', by omega, dif_neg (by omega), hlog', Or.inl ⟨hr, rfl, rfl⟩⟩

/-- Half a place above the largest float. -/
@[irreducible] def limit : Nat := 2 ^ 1024 - 2 ^ 970

theorem limit_eq : limit = (2 ^ 54 - 1) * 2 ^ 970 := by
  unfold limit
  rw [Nat.sub_mul, Nat.one_mul, ← Nat.pow_add]

/-- **What is rounded becomes infinite** exactly from half a place above the largest float on. -/
theorem isInf_roundWithAccuracy (s : Sign) (hlog : 52 ≤ m.log2) {w : Nat} :
    (Float.Model.pack (roundWithAccuracy .binary64 s m (w - 104) .exact)).isInf = true ↔
      limit * 2 ^ 104 ≤ m * 2 ^ w := by
  obtain ⟨m', e', hm', heq, -, hcases⟩ := roundWithAccuracy_eq s (e := w - 104) hlog (by omega)
  have hne := ne_zero_of_le_log2 hlog
  have hself := Nat.log2_self_le hne
  have hlt : m < 2 ^ (m.log2 + 1) := Nat.lt_log2_self
  obtain ⟨t, ht⟩ : ∃ t, 970 + 104 = t := ⟨_, rfl⟩
  rw [heq, isInf_pack_finite, limit_eq, Nat.mul_assoc, ← Nat.pow_add, ht]
  obtain ⟨k, hk⟩ : ∃ k, m.log2 = 52 + k := ⟨m.log2 - 52, by omega⟩
  have hround : rounded m = 2 ^ 53 ↔ (2 ^ 54 - 1) * 2 ^ k ≤ 2 * m := by
    rw [rounded, hk, Nat.add_sub_cancel_left, halfEven_eq_iff]
    rwa [← Nat.pow_add, show 53 + k = m.log2 + 1 by omega]
  rw [hk] at hself hlt hcases
  rcases Nat.lt_trichotomy (k + w) (t + 1) with hw | hw | hw
  · have hle : m * 2 ^ w < (2 ^ 54 - 1) * 2 ^ t := by
      calc m * 2 ^ w < 2 ^ (52 + k + 1) * 2 ^ w := Nat.mul_lt_mul_of_pos_right hlt (Nat.two_pow_pos w)
        _ ≤ 2 ^ 53 * 2 ^ t := by
          rw [← Nat.pow_add, ← Nat.pow_add]
          exact Nat.pow_le_pow_right (by decide) (by omega)
        _ ≤ (2 ^ 54 - 1) * 2 ^ t := Nat.mul_le_mul_right _ (by decide)
    exact iff_of_false (by omega) (Nat.not_le.2 hle)
  · have hscale : (2 ^ 54 - 1) * 2 ^ k ≤ 2 * m ↔ (2 ^ 54 - 1) * 2 ^ t ≤ m * 2 ^ w := by
      rw [← Nat.mul_le_mul_right_iff (Nat.two_pow_pos w), Nat.mul_assoc, ← Nat.pow_add, hw, Nat.pow_succ 2 t,
        ← Nat.mul_assoc, Nat.mul_comm _ 2, Nat.mul_assoc 2, Nat.mul_le_mul_left_iff (by decide)]
    rw [← hscale, ← hround]
    omega
  · have hle : (2 ^ 54 - 1) * 2 ^ t ≤ m * 2 ^ w := by
      calc (2 ^ 54 - 1) * 2 ^ t ≤ 2 ^ 54 * 2 ^ t := Nat.mul_le_mul_right _ (by decide)
        _ ≤ 2 ^ (52 + k) * 2 ^ w := by
          rw [← Nat.pow_add, ← Nat.pow_add]
          exact Nat.pow_le_pow_right (by decide) (by omega)
        _ ≤ m * 2 ^ w := Nat.mul_le_mul_right _ hself
    exact iff_of_true (by omega) hle

/-! ## Natural numbers as floats -/

/-- **The nearest number of 53 digits**; of two that are as near, the one whose last digit is even. -/
def nearest (n : Nat) : Nat := rounded n * 2 ^ (n.log2 - 52)

/-- The float has 53 digits and is this number, but for its sign. -/
def Stands (n : Nat) : UnpackedFloat → Prop
  | .finite _ m e _ => m.log2 = 52 ∧ -52 ≤ e ∧ e ≤ 971 ∧ m * 2 ^ (e + 52).toNat = n * 2 ^ 52
  | _ => False

instance (n : Nat) : DecidablePred (Stands n)
  | .finite _ m e _ =>
    inferInstanceAs (Decidable (m.log2 = 52 ∧ -52 ≤ e ∧ e ≤ 971 ∧ m * 2 ^ (e + 52).toNat = n * 2 ^ 52))
  | .infinity _ | .notANumber | .zero _ => inferInstanceAs (Decidable False)

theorem Stands.exists {u : UnpackedFloat} (h : Stands n u) : ∃ s m e hm, u = .finite s m e hm ∧
    m.log2 = 52 ∧ -52 ≤ e ∧ e ≤ 971 ∧ m * 2 ^ (e + 52).toNat = n * 2 ^ 52 := by
  cases u with
  | finite s m e hm => exact ⟨s, m, e, hm, rfl, h⟩
  | infinity | notANumber | zero => exact h.elim

theorem log2_mul_two_pow (hn : n ≠ 0) (j : Nat) : (n * 2 ^ j).log2 = n.log2 + j := by
  rw [Nat.log2_eq_iff (Nat.mul_ne_zero hn (Nat.ne_of_gt (Nat.two_pow_pos j)))]
  constructor
  · rw [Nat.pow_add]
    exact Nat.mul_le_mul_right _ (Nat.log2_self_le hn)
  · rw [Nat.add_right_comm, Nat.pow_add]
    exact Nat.mul_lt_mul_of_pos_right Nat.lt_log2_self (Nat.two_pow_pos j)

theorem rounded_mul_two_pow (hn : n ≠ 0) {j : Nat} (hj : 52 ≤ n.log2 + j) :
    rounded (n * 2 ^ j) * 2 ^ n.log2 = nearest n * 2 ^ 52 := by
  have hhalf : ∀ {d k : Nat}, halfEven (n * 2 ^ k) (2 ^ (d + k)) = halfEven n (2 ^ d) := by
    intro d k
    rw [Nat.pow_add, halfEven_mul_mul (Nat.two_pow_pos k)]
  rw [rounded, log2_mul_two_pow hn, nearest, rounded]
  rcases Nat.le_total 52 n.log2 with h | h
  · obtain ⟨u, hu⟩ := Nat.exists_eq_add_of_le h
    rw [show n.log2 + j - 52 = u + j by omega, hhalf, show n.log2 - 52 = u by omega, hu, Nat.pow_add 2 52,
      Nat.mul_assoc, Nat.mul_comm (2 ^ 52)]
  · obtain ⟨i, rfl⟩ : ∃ i, j = (52 - n.log2) + i := ⟨n.log2 + j - 52, by omega⟩
    have hmul : n * 2 ^ (52 - n.log2 + i) = n * 2 ^ (52 - n.log2) * 2 ^ i := by rw [Nat.pow_add, Nat.mul_assoc]
    rw [hmul, show n.log2 + (52 - n.log2 + i) - 52 = 0 + i by omega, Nat.pow_add 2 0 i,
      halfEven_mul_mul (Nat.two_pow_pos i), Nat.pow_zero, halfEven_one, Nat.mul_assoc, ← Nat.pow_add,
      show 52 - n.log2 + n.log2 = 52 by omega, show n.log2 - 52 = 0 by omega, Nat.pow_zero, halfEven_one, Nat.mul_one]

theorem stands_round (s : Sign) (hn : n ≠ 0) (hlimit : n < limit) {j : Nat} (hj : 52 ≤ n.log2 + j) (hj' : j ≤ 104) :
    Stands (nearest n) (Float.Model.pack (roundWithAccuracy .binary64 s (n * 2 ^ j) (-j) .exact)).unpack := by
  have hlog : 52 ≤ (n * 2 ^ j).log2 := by rwa [log2_mul_two_pow hn]
  have hinf := isInf_roundWithAccuracy s hlog (w := 104 - j)
  rw [show (((104 - j : Nat) : Int) - 104) = -j by omega, Nat.mul_assoc, ← Nat.pow_add,
    Nat.add_sub_cancel' hj', Nat.mul_le_mul_right_iff (Nat.two_pow_pos 104)] at hinf
  obtain ⟨m', e', hm', heq, hlog', hcases⟩ := roundWithAccuracy_eq s (e := -j) hlog (by omega)
  have hinf' : (Float.Model.pack (.finite s m' e' hm')).isInf = true ↔ 972 ≤ e' := isInf_pack_finite
  have hfinite : ¬972 ≤ e' := by
    rw [← hinf', ← heq, hinf]
    exact Nat.not_le.2 hlimit
  have hvalue := rounded_mul_two_pow hn hj
  rw [log2_mul_two_pow hn] at hcases
  obtain ⟨s', hunpack⟩ : ∃ s', (Float.Model.pack (.finite s m' e' hm')).unpack = .finite s' m' e' hm' :=
    unpack_pack hlog' (by omega) (by omega)
  rw [heq, hunpack]
  refine ⟨hlog', by omega, by omega, ?_⟩
  rw [← hvalue]
  rcases hcases with ⟨-, rfl, he⟩ | ⟨hr, rfl, he⟩
  · rw [show (e' + 52).toNat = n.log2 by omega]
  · rw [hr, show (e' + 52).toNat = n.log2 + 1 by omega, Nat.pow_succ 2 n.log2, Nat.mul_comm _ 2, ← Nat.mul_assoc,
      ← Nat.pow_succ]

/-! ## Products -/

/-- **A product of floats is infinite** exactly if the numbers' product is at the limit or beyond it. -/
theorem isInf_mul {a b : Float} {n' : Nat} (ha : Stands n a.toModel.unpack) (hb : Stands n' b.toModel.unpack) :
    (a * b).isInf = true ↔ limit ≤ n * n' := by
  obtain ⟨s₁, m₁, e₁, h₁, ha, hlog₁, hlow₁, -, hn⟩ := ha.exists
  obtain ⟨s₂, m₂, e₂, h₂, hb, hlog₂, hlow₂, -, hn'⟩ := hb.exists
  have hlog : 52 ≤ (m₁ * m₂).log2 := by
    rw [Nat.le_log2 (Nat.ne_of_gt (Nat.mul_pos h₁ h₂)), ← hlog₁]
    exact Nat.le_trans (Nat.log2_self_le (Nat.ne_of_gt h₁)) (Nat.le_mul_of_pos_right _ h₂)
  have hexp : e₁ + e₂ = ((e₁ + 52).toNat + (e₂ + 52).toNat : Nat) - 104 := by omega
  have hvalue : m₁ * m₂ * 2 ^ ((e₁ + 52).toNat + (e₂ + 52).toNat) = n * n' * 2 ^ 104 := by
    calc m₁ * m₂ * 2 ^ ((e₁ + 52).toNat + (e₂ + 52).toNat) =
          m₁ * 2 ^ (e₁ + 52).toNat * (m₂ * 2 ^ (e₂ + 52).toNat) := by rw [Nat.pow_add, Nat.mul_mul_mul_comm]
      _ = n * 2 ^ 52 * (n' * 2 ^ 52) := by rw [hn, hn']
      _ = n * n' * 2 ^ 104 := by rw [Nat.mul_mul_mul_comm, ← Nat.pow_add]
  change (Float.Model.pack (UnpackedFloat.mul .binary64 a.toModel.unpack b.toModel.unpack)).isInf = true ↔ _
  rw [ha, hb, UnpackedFloat.mul, hexp, isInf_roundWithAccuracy _ hlog, hvalue,
    Nat.mul_le_mul_right_iff (Nat.two_pow_pos 104)]

/-! ## Significands and powers of ten -/

theorem ten_pow_lt_limit {k : Nat} (hk : k ≤ 308) : 10 ^ k < limit := by
  have hlast : 10 ^ 308 < limit := by
    rw [limit_eq]
    decide +kernel
  refine Nat.lt_of_le_of_lt ?_ hlast
  rwa [Nat.pow_le_pow_iff_right (by decide)]

theorem ofNat_eq (hn : n ≠ 0) : UnpackedFloat.ofNat .binary64 n =
    roundWithAccuracy .binary64 .positive (n * 2 ^ (52 - n.log2)) (-(52 - n.log2 : Nat)) .exact := by
  have hbits : Format.binary64.mantissaBits = 53 := by decide
  have hmin : Format.binary64.minExponent = -1074 := by decide
  have hround : UnpackedFloat.ofNat .binary64 n = UnpackedFloat.round .binary64 .positive n 0 := by
    rw [UnpackedFloat.ofNat, UnpackedFloat.ofInt, UnpackedFloat.normalize, Int.compare_eq_gt.2 (by omega)]
    rfl
  have hshift : (0 - Format.binary64.targetExponent (totalExponent n 0)).toNat = 52 - n.log2 := by
    rw [Format.targetExponent, totalExponent, hbits, hmin]
    omega
  rw [hround, UnpackedFloat.round, decreaseExponent, hshift]
  dsimp only
  rw [Nat.shiftLeft_eq, Int.zero_sub]

/-- **An integer of 64 bits becomes the nearest float.** -/
theorem stands_toFloat {n : UInt64} (hn : n ≠ 0) : Stands (nearest n.toNat) n.toFloat.toModel.unpack := by
  have hne : n.toNat ≠ 0 := fun h => hn (UInt64.toNat_inj.1 h)
  have hlimit : n.toNat < limit :=
    Nat.lt_trans (Nat.lt_of_lt_of_le n.toNat_lt (by decide)) (ten_pow_lt_limit (k := 20) (by decide))
  change Stands _ (Float.Model.pack (UnpackedFloat.ofNat .binary64 n.toNat)).unpack
  rw [ofNat_eq hne]
  exact stands_round .positive hne hlimit (by omega) (by omega)

theorem stands_smallPower : ∀ k : Fin 23, Stands (nearest (10 ^ k.1)) (Json.powerOfTen k).toModel.unpack := by
  decide +kernel

/-- **The powers of ten become the nearest floats.** -/
theorem stands_powerOfTen {k : Nat} (hk : k ≤ 308) :
    Stands (nearest (10 ^ k)) (Json.powerOfTen k).toModel.unpack := by
  rcases Nat.lt_or_ge k 23 with hsmall | hlarge
  · exact stands_smallPower ⟨k, hsmall⟩
  have hne : 10 ^ k ≠ 0 := Nat.ne_of_gt (Nat.pow_pos (by decide))
  have hbits : (2 ^ Format.binary64.exponentBits : Int) = 2048 := by decide
  have hmantissa : Format.binary64.mantissaBits = 53 := by decide
  have hpower : Json.powerOfTen k = .ofModel (Float.Model.ofScientific 1 k) := by
    rw [Json.powerOfTen, Float.ofScientific, dif_neg (by omega)]
    rfl
  have hround : UnpackedFloat.ofScientific .binary64 1 k =
      roundWithAccuracy .binary64 (.positive * .positive) (10 ^ k * 2 ^ 53) (-(53 : Nat)) .exact := by
    rw [UnpackedFloat.ofScientific, dif_neg (by decide), hbits, if_neg (by omega), if_neg (by omega), if_pos (by omega),
      UnpackedFloat.mul, hmantissa, Nat.shiftLeft_eq, Nat.one_mul, Nat.mul_comm (2 ^ 53), Int.add_zero]
    rfl
  rw [hpower, Float.Model.ofScientific, hround]
  exact stands_round _ hne (ten_pow_lt_limit hk) (by omega) (by decide)

end Packrat.Binary64
