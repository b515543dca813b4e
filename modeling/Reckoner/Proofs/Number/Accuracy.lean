import Mathlib.Analysis.SpecialFunctions.Pow.Real
import Reckoner.Number.Binary

/-!
# Accuracy of rounded numbers

A binary fraction stands for a real number.  Whatever the direction, an operation that keeps a number of bits goes wrong
by at most two units of the last of them, in proportion to its exact result; a sum in proportion to its summands.
-/

namespace Reckoner.Number

/-! ### Relative errors -/

/-- A number that differs from the number `x` by at most the part `ε` of it. -/
def IsNear (ε y x : ℝ) : Prop := |y - x| ≤ ε * |x|

namespace IsNear

variable {ε δ x y z w : ℝ}

theorem refl (hε : 0 ≤ ε) (x : ℝ) : IsNear ε x x := by
  rw [IsNear, sub_self, abs_zero]
  positivity

theorem mono (h : IsNear ε y x) (hle : ε ≤ δ) : IsNear δ y x :=
  le_trans h (mul_le_mul_of_nonneg_right hle (abs_nonneg x))

theorem const_mul (c : ℝ) (h : IsNear ε y x) : IsNear ε (c * y) (c * x) := by
  unfold IsNear at h ⊢
  calc |c * y - c * x| = |c| * |y - x| := by rw [← mul_sub, abs_mul]
    _ ≤ |c| * (ε * |x|) := mul_le_mul_of_nonneg_left h (abs_nonneg c)
    _ = ε * |c * x| := by rw [abs_mul]; ring

theorem neg (h : IsNear ε y x) : IsNear ε (-y) (-x) := by simpa using h.const_mul (-1)

theorem abs (h : IsNear ε y x) : IsNear ε |y| |x| := by
  unfold IsNear at h ⊢
  rw [abs_abs]
  exact (abs_abs_sub_abs_le_abs_sub y x).trans h

theorem abs_le_mul (h : IsNear ε y x) : |y| ≤ (1 + ε) * |x| := by
  unfold IsNear at h
  have htriangle := abs_sub_abs_le_abs_sub y x
  linarith

theorem trans (hδ : 0 ≤ δ) (hy : IsNear ε y x) (hz : IsNear δ z y) : IsNear (ε + δ + δ * ε) z x := by
  have hbound : δ * |y| ≤ δ * ((1 + ε) * |x|) := mul_le_mul_of_nonneg_left hy.abs_le_mul hδ
  unfold IsNear at hy hz ⊢
  have htriangle := abs_sub_le z y x
  linarith

theorem mul (hδ : 0 ≤ δ) (hy : IsNear ε y x) (hw : IsNear δ w z) : IsNear (ε + δ + δ * ε) (y * w) (x * z) := by
  have hfirst : IsNear ε (y * z) (x * z) := by simpa only [mul_comm] using hy.const_mul z
  exact hfirst.trans hδ (hw.const_mul y)

/-- A quotient of numbers near two others. -/
theorem div (hδ : δ ≤ 1 / 2) (hy : IsNear ε y x) (hw : IsNear δ w z) (hz : z ≠ 0) :
    IsNear (2 * (ε + δ)) (y / w) (x / z) := by
  unfold IsNear at hy hw ⊢
  have hpositive : 0 < |z| := abs_pos.mpr hz
  have hhalf : |z| / 2 ≤ |w| := by
    have htriangle := abs_sub_abs_le_abs_sub z w
    rw [abs_sub_comm] at htriangle
    linarith [mul_le_mul_of_nonneg_right hδ (abs_nonneg z)]
  have hne : w ≠ 0 := abs_pos.mp (by linarith)
  have hcross : |y * z - x * w| ≤ (ε + δ) * (|x| * |z|) := by
    calc |y * z - x * w| = |(y - x) * z - x * (w - z)| := by ring_nf
      _ ≤ |(y - x) * z| + |x * (w - z)| := abs_sub _ _
      _ = |y - x| * |z| + |x| * |w - z| := by rw [abs_mul, abs_mul]
      _ ≤ ε * |x| * |z| + |x| * (δ * |z|) := by gcongr
      _ = (ε + δ) * (|x| * |z|) := by ring
  have hnonneg : 0 ≤ (ε + δ) * (|x| * |z|) := (abs_nonneg _).trans hcross
  calc |y / w - x / z| = |y * z - x * w| / (|w| * |z|) := by
        rw [div_sub_div _ _ hne hz, abs_div, abs_mul, mul_comm w x]
    _ ≤ (ε + δ) * (|x| * |z|) / (|z| / 2 * |z|) :=
        div_le_div₀ hnonneg hcross (by positivity) (mul_le_mul_of_nonneg_right hhalf hpositive.le)
    _ = 2 * (ε + δ) * |x / z| := by
        rw [abs_div]
        field_simp

theorem lower (h : IsNear ε y x) (hx : 0 ≤ x) : (1 - ε) * x ≤ y := by
  unfold IsNear at h
  rw [abs_of_nonneg hx] at h
  linarith [(abs_le.mp h).1]

theorem upper (h : IsNear ε y x) (hx : 0 ≤ x) : y ≤ (1 + ε) * x := by
  unfold IsNear at h
  rw [abs_of_nonneg hx] at h
  linarith [(abs_le.mp h).2]

/-- A multiple of a small unit, if it is the multiple nearest to a number or the one next to it. -/
theorem of_unit {m u : ℝ} (hu : 0 < u) (hm : |m - x / u| ≤ 1) (hsmall : u ≤ ε * |x|) : IsNear ε (m * u) x := by
  have hfactor : m * u - x = (m - x / u) * u := by
    field_simp
  calc |m * u - x| = |m - x / u| * u := by rw [hfactor, abs_mul, abs_of_pos hu]
    _ ≤ 1 * u := mul_le_mul_of_nonneg_right hm hu.le
    _ ≤ ε * |x| := by rwa [one_mul]

end IsNear

/-- The part of a number by which keeping `bits` significant bits may change it. -/
noncomputable def roundoff (bits : Nat) : ℝ := 2 / 2 ^ bits

theorem roundoff_pos (bits : Nat) : 0 < roundoff bits := by
  unfold roundoff
  positivity

theorem two_pow_bitLength_le {n : Nat} (hn : 0 < n) : (2 : ℝ) ^ bitLength n ≤ 2 * n := by
  have hlog := two_pow_le_of_pos hn
  have hlength : bitLength n = bitLength n - 1 + 1 := by
    have hlt := lt_two_pow_bitLength n
    cases hbits : bitLength n with
    | zero => rw [hbits] at hlt; omega
    | succ k => rfl
  rw [hlength, pow_succ']
  exact_mod_cast Nat.mul_le_mul_left 2 hlog

/-! ### Quotients -/

theorem Direction.le_divide (direction : Direction) (n : Nat) {d : Nat} (hd : 0 < d) :
    n / d ≤ direction.divide n d ∧ direction.divide n d ≤ n / d + 1 := by
  cases direction with
  | down => exact ⟨le_rfl, Nat.le_succ _⟩
  | toZero => exact ⟨le_rfl, Nat.le_succ _⟩
  | up =>
    refine ⟨Nat.div_le_div_right (by omega), ?_⟩
    have hsum : (n + d) / d = n / d + 1 := Nat.add_div_right n hd
    exact hsum ▸ Nat.div_le_div_right (Nat.sub_le _ _)
  | nearest =>
    simp only [divide, divHalfEven]
    split_ifs <;> omega

/-- A rounded quotient is wrong by at most one. -/
theorem Direction.abs_divide_sub_le (direction : Direction) (n : Nat) {d : Nat} (hd : 0 < d) :
    |((direction.divide n d : Nat) : ℝ) - n / d| ≤ 1 := by
  obtain ⟨hlower, hupper⟩ := direction.le_divide n hd
  have hdivisor : (0 : ℝ) < d := by exact_mod_cast hd
  have hlower' : ((n / d : Nat) : ℝ) ≤ (direction.divide n d : Nat) := by exact_mod_cast hlower
  have hupper' : ((direction.divide n d : Nat) : ℝ) ≤ ((n / d : Nat) : ℝ) + 1 := by exact_mod_cast hupper
  have hfloor : ((n / d : Nat) : ℝ) ≤ n / d := Nat.cast_div_le
  have hceil : (n : ℝ) / d ≤ ((n / d : Nat) : ℝ) + 1 := by
    rw [div_le_iff₀ hdivisor]
    exact_mod_cast (Nat.lt_mul_div_succ n hd).le.trans_eq (mul_comm _ _)
  rw [abs_le]
  constructor <;> linarith

/-! ### Values -/

namespace Binary

variable {x y : Binary} {bits : Nat} {direction : Direction}

noncomputable def value (x : Binary) : ℝ := x.mantissa * 2 ^ x.exponent

theorem value_ofInt (m : Int) : (ofInt m).value = m := by simp [value, ofInt]

theorem value_zero : zero.value = 0 := by simp [value, zero]

theorem value_neg (x : Binary) : x.neg.value = -x.value := by simp [value, neg]

theorem value_natAbs (x : Binary) : |x.value| = x.mantissa.natAbs * 2 ^ x.exponent := by
  rw [value, abs_mul, Nat.cast_natAbs, Int.cast_abs, abs_of_pos (zpow_pos (two_pos : (0 : ℝ) < 2) x.exponent)]

theorem value_abs (x : Binary) : x.abs.value = |x.value| := by
  rw [value_natAbs]
  simp [value, abs]

theorem value_scale (x : Binary) (k : Int) : (x.scale k).value = x.value * 2 ^ k := by
  simp only [value, scale]
  rw [zpow_add₀ two_ne_zero, mul_assoc]

theorem value_mul (x y : Binary) : (x.mul y).value = x.value * y.value := by
  simp only [value, mul]
  rw [zpow_add₀ two_ne_zero]
  push_cast
  ring

theorem isZero_iff : x.isZero ↔ x.value = 0 := by
  simp [isZero, value, zpow_ne_zero]

theorem value_mantissaAt {e : Int} (he : e ≤ x.exponent) : x.mantissaAt e * (2 : ℝ) ^ e = x.value := by
  have hexponent : x.exponent = ((x.exponent - e).toNat : Int) + e := by omega
  rw [value, mantissaAt]
  conv_rhs => rw [hexponent, zpow_add₀ two_ne_zero, zpow_natCast]
  push_cast
  ring

theorem value_add (x y : Binary) : (x.add y).value = x.value + y.value := by
  unfold add
  split_ifs with hx hy
  · rw [isZero_iff.mp hx, zero_add]
  · rw [isZero_iff.mp hy, add_zero]
  · rw [← value_mantissaAt (min_le_left x.exponent y.exponent), ← value_mantissaAt (min_le_right x.exponent y.exponent),
      ← add_mul]
    simp [value]

/-! ### Orders of magnitude -/

theorem value_lt_order (x : Binary) : |x.value| < 2 ^ x.order := by
  rw [value_natAbs, order, zpow_add₀ two_ne_zero, zpow_natCast, mul_comm]
  have hlength : (x.mantissa.natAbs : ℝ) < 2 ^ bitLength x.mantissa.natAbs := by
    exact_mod_cast lt_two_pow_bitLength x.mantissa.natAbs
  gcongr

theorem order_le_value (hx : ¬ x.isZero) : (2 : ℝ) ^ x.order ≤ 2 * |x.value| := by
  have hpos : 0 < x.mantissa.natAbs := by simpa [isZero, Int.natAbs_pos] using hx
  have hlength := two_pow_bitLength_le hpos
  rw [value_natAbs, order, zpow_add₀ two_ne_zero, zpow_natCast, mul_comm, ← mul_assoc]
  gcongr

/-! ### Rounding -/

theorem cut_isNear (direction : Direction) {n drop : Nat} (e : Int) (hn : 0 < n) (hdrop : drop + bits = bitLength n) :
    IsNear (roundoff bits) (value ⟨(direction.divide n (2 ^ drop) : Nat), e + drop⟩) (value ⟨n, e⟩) := by
  have hunit : (0 : ℝ) < 2 ^ (e + drop) := by positivity
  have hsplit : (2 : ℝ) ^ (e + drop) = 2 ^ drop * 2 ^ e := by
    rw [zpow_add₀ two_ne_zero, zpow_natCast, mul_comm]
  refine .of_unit hunit ?_ ?_
  · have hquotient := direction.abs_divide_sub_le n (Nat.two_pow_pos drop)
    have hsame : value ⟨n, e⟩ / 2 ^ (e + drop) = (n : ℝ) / ((2 ^ drop : Nat) : ℝ) := by
      rw [value, hsplit]
      push_cast
      field_simp
    rw [hsame]
    exact_mod_cast hquotient
  · have hlength := two_pow_bitLength_le hn
    rw [← hdrop, pow_add] at hlength
    rw [value_natAbs, hsplit, roundoff, div_mul_eq_mul_div, le_div_iff₀ (by positivity)]
    calc (2 : ℝ) ^ drop * 2 ^ e * 2 ^ bits = 2 ^ drop * 2 ^ bits * 2 ^ e := by ring
      _ ≤ 2 * n * 2 ^ e := mul_le_mul_of_nonneg_right hlength (by positivity)
      _ = 2 * (n * 2 ^ e) := by ring

theorem round_isNear (direction : Direction) (bits : Nat) (x : Binary) :
    IsNear (roundoff bits) (x.round direction bits).value x.value := by
  obtain ⟨m, e⟩ := x
  unfold round
  dsimp only
  split_ifs with hlength hneg
  · exact .refl (roundoff_pos bits).le _
  · have hvalue : value ⟨m, e⟩ = -value ⟨m.natAbs, e⟩ := by
      have hmantissa : m = -(m.natAbs : Int) := by omega
      conv_lhs => rw [hmantissa]
      exact value_neg ⟨m.natAbs, e⟩
    have hpos : 0 < m.natAbs := by omega
    have hdrop : bitLength m.natAbs - bits + bits = bitLength m.natAbs := by omega
    have hcut := cut_isNear direction.opposite e hpos hdrop
    rw [hvalue]
    simpa only [← value_neg, neg] using hcut.neg
  · have hvalue : value ⟨m, e⟩ = value ⟨m.natAbs, e⟩ := by
      congr
      omega
    rw [hvalue]
    refine cut_isNear direction e ?_ (by omega)
    -- only zero has no bits
    by_contra hzero
    have hbits : bitLength m.natAbs = 0 := by simp [Nat.eq_zero_of_not_pos hzero, bitLength]
    omega

theorem mulRounded_isNear (direction : Direction) (bits : Nat) (x y : Binary) :
    IsNear (roundoff bits) (x.mulRounded direction bits y).value (x.value * y.value) := by
  rw [← value_mul]
  exact round_isNear direction bits (x.mul y)

/-! ### Quotients of naturals -/

theorem bitLength_bounds {n : Nat} (hn : 0 < n) : (2 : ℚ) ^ ((bitLength n : Int) - 1) ≤ n ∧ (n : ℚ) < 2 ^ bitLength n := by
  have hpositive : 1 ≤ bitLength n := by
    by_contra hzero
    have hlt := lt_two_pow_bitLength n
    rw [Nat.lt_one_iff.mp (not_le.mp hzero)] at hlt
    omega
  constructor
  · have hcast : (bitLength n : Int) - 1 = ((bitLength n - 1 : Nat) : Int) := by omega
    rw [hcast, zpow_natCast]
    exact_mod_cast two_pow_le_of_pos hn
  · exact_mod_cast lt_two_pow_bitLength n

/-- The order of a quotient is guessed from the numbers of bits, one too low at most. -/
theorem quotient_order_bounds {n d : Nat} (hn : 0 < n) (hd : 0 < d) :
    (2 : ℚ) ^ ((bitLength n : Int) - bitLength d - 1) < n / d ∧
      (n : ℚ) / d < 2 ^ ((bitLength n : Int) - bitLength d + 1) := by
  obtain ⟨hnlower, hnupper⟩ := bitLength_bounds hn
  obtain ⟨hdlower, hdupper⟩ := bitLength_bounds hd
  have hdivisor : (0 : ℚ) < d := by exact_mod_cast hd
  have hunit : (0 : ℚ) < 2 ^ ((bitLength n : Int) - bitLength d - 1) := by positivity
  have hunit' : (0 : ℚ) < 2 ^ ((bitLength n : Int) - bitLength d + 1) := by positivity
  rw [lt_div_iff₀ hdivisor, div_lt_iff₀ hdivisor]
  constructor
  · calc (2 : ℚ) ^ ((bitLength n : Int) - bitLength d - 1) * d <
          2 ^ ((bitLength n : Int) - bitLength d - 1) * 2 ^ bitLength d := mul_lt_mul_of_pos_left hdupper hunit
      _ = 2 ^ ((bitLength n : Int) - 1) := by
          rw [← zpow_natCast, ← zpow_add₀ (by norm_num)]
          congr 1
          ring
      _ ≤ n := hnlower
  · calc (n : ℚ) < 2 ^ bitLength n := hnupper
      _ = 2 ^ ((bitLength n : Int) - bitLength d + 1) * 2 ^ ((bitLength d : Int) - 1) := by
          rw [← zpow_natCast, ← zpow_add₀ (by norm_num)]
          congr 1
          ring
      _ ≤ 2 ^ ((bitLength n : Int) - bitLength d + 1) * d := mul_le_mul_of_nonneg_left hdlower hunit'.le

theorem reaches_iff {n d : Nat} (hd : 0 < d) (estimate : Int) :
    (if 0 ≤ estimate then decide (d * 2 ^ estimate.toNat ≤ n) else decide (d ≤ n * 2 ^ (-estimate).toNat)) = true ↔
      (2 : ℚ) ^ estimate ≤ n / d := by
  have hdivisor : (0 : ℚ) < d := by exact_mod_cast hd
  rw [le_div_iff₀ hdivisor]
  split_ifs with hsign
  · obtain ⟨k, rfl⟩ := Int.eq_ofNat_of_zero_le hsign
    rw [decide_eq_true_iff, Int.toNat_natCast, zpow_natCast, mul_comm]
    exact_mod_cast Iff.rfl
  · obtain ⟨k, hk⟩ := Int.eq_ofNat_of_zero_le (by omega : 0 ≤ -estimate)
    have hunit : (0 : ℚ) < 2 ^ k := by positivity
    rw [decide_eq_true_iff, hk, Int.toNat_natCast, ← neg_neg estimate, hk, zpow_neg, zpow_natCast, inv_mul_le_iff₀ hunit,
      mul_comm n]
    exact_mod_cast Iff.rfl

/-- A quotient is taken of whole numbers that are scaled by its order. -/
theorem exists_order_of_quotient (direction : Direction) (bits : Nat) {n d : Nat} (hn : 0 < n) (hd : 0 < d) :
    ∃ order : Int, (2 : ℚ) ^ (order - 1) ≤ n / d ∧ (n : ℚ) / d < 2 ^ order ∧ ofQuotient direction bits n d =
      if 0 ≤ (bits : Int) - order then
        ⟨(direction.divide (n * 2 ^ ((bits : Int) - order).toNat) d : Nat), -((bits : Int) - order)⟩
      else ⟨(direction.divide n (d * 2 ^ (-((bits : Int) - order)).toNat) : Nat), -((bits : Int) - order)⟩ := by
  have hreaches := reaches_iff (n := n) hd ((bitLength n : Int) - bitLength d)
  obtain ⟨hleast, hmost⟩ := quotient_order_bounds hn hd
  by_cases h : (2 : ℚ) ^ ((bitLength n : Int) - bitLength d) ≤ n / d
  · refine ⟨(bitLength n : Int) - bitLength d + 1, by rwa [add_sub_cancel_right], hmost, ?_⟩
    simp only [ofQuotient, hreaches.mpr h, if_true]
  · refine ⟨(bitLength n : Int) - bitLength d, hleast.le, not_le.mp h, ?_⟩
    simp only [ofQuotient, if_neg (mt hreaches.mp h)]

theorem ofQuotient_isNear (direction : Direction) (bits : Nat) {n d : Nat} (hn : 0 < n) (hd : 0 < d) :
    IsNear (roundoff bits) (ofQuotient direction bits n d).value (n / d) := by
  have hquotient : (0 : ℝ) < n / d := div_pos (by exact_mod_cast hn) (by exact_mod_cast hd)
  obtain ⟨order, hlower, -, hvalue⟩ := exists_order_of_quotient direction bits hn hd
  have hunit : (0 : ℝ) < 2 ^ (-((bits : Int) - order)) := by positivity
  have hsmall : (2 : ℝ) ^ (-((bits : Int) - order)) ≤ roundoff bits * |(n : ℝ) / d| := by
    have horder := (Rat.cast_le (K := ℝ)).mpr hlower
    push_cast at horder
    rw [abs_of_pos hquotient, roundoff, div_mul_eq_mul_div, le_div_iff₀ (by positivity), ← zpow_natCast,
      ← zpow_add₀ two_ne_zero]
    rw [zpow_sub_one₀ two_ne_zero] at horder
    simp only [neg_sub, sub_add_cancel]
    linarith
  rw [hvalue]
  split_ifs with hshift
  · have hrounded := direction.abs_divide_sub_le (n * 2 ^ ((bits : Int) - order).toNat) hd
    have hscaled : (n : ℝ) / d / 2 ^ (-((bits : Int) - order)) = (n * 2 ^ ((bits : Int) - order).toNat : Nat) / d := by
      rw [zpow_neg, ← Int.toNat_of_nonneg hshift, zpow_natCast]
      push_cast
      simp only [Int.toNat_natCast]
      field_simp
    refine .of_unit hunit ?_ hsmall
    rw [hscaled]
    exact_mod_cast hrounded
  · have hrounded := direction.abs_divide_sub_le n (d := d * 2 ^ (-((bits : Int) - order)).toNat) (by positivity)
    have hscaled : (n : ℝ) / d / 2 ^ (-((bits : Int) - order)) =
        n / (d * 2 ^ (-((bits : Int) - order)).toNat : Nat) := by
      have hpositive : 0 ≤ -((bits : Int) - order) := by omega
      rw [← Int.toNat_of_nonneg hpositive, zpow_natCast, div_div]
      push_cast
      rfl
    refine .of_unit hunit ?_ hsmall
    rw [hscaled]
    exact_mod_cast hrounded

theorem ofRat_isNear (direction : Direction) (bits : Nat) (q : Rat) :
    IsNear (roundoff bits) (ofRat direction bits q).value q := by
  have hden : 0 < q.den := q.den_pos
  unfold ofRat
  split_ifs with hzero hneg
  · rw [Rat.zero_of_num_zero hzero, value_zero, Rat.cast_zero]
    exact .refl (roundoff_pos bits).le 0
  · have hvalue : (q : ℝ) = -((q.num.natAbs : ℝ) / q.den) := by
      rw [Rat.cast_def, Nat.cast_natAbs, abs_of_neg hneg]
      push_cast
      ring
    rw [hvalue, value_neg]
    exact (ofQuotient_isNear direction.opposite bits (by omega) hden).neg
  · have hvalue : (q : ℝ) = (q.num.natAbs : ℝ) / q.den := by
      rw [Rat.cast_def, Nat.cast_natAbs, abs_of_nonneg (by omega)]
    rw [hvalue]
    exact ofQuotient_isNear direction bits (by omega) hden

theorem divRounded_isNear (direction : Direction) (bits : Nat) (x : Binary) {y : Binary} (hy : ¬ y.isZero) :
    IsNear (roundoff bits) (x.divRounded direction bits y).value (x.value / y.value) := by
  unfold divRounded
  by_cases hx : x.isZero
  · rw [if_pos hx, isZero_iff.mp hx, zero_div, value_zero]
    exact .refl (roundoff_pos bits).le 0
  have hn : 0 < x.mantissa.natAbs := by simpa [isZero, Int.natAbs_pos] using hx
  have hd : 0 < y.mantissa.natAbs := by simpa [isZero, Int.natAbs_pos] using hy
  -- the quotient of the absolute values, with the exponents put back
  have hscaled (toward : Direction) : IsNear (roundoff bits)
      ((ofQuotient toward bits x.mantissa.natAbs y.mantissa.natAbs).scale (x.exponent - y.exponent)).value
      |x.value / y.value| := by
    have hquotient := (ofQuotient_isNear toward bits hn hd).const_mul (2 ^ (x.exponent - y.exponent))
    have hvalue : |x.value / y.value| = 2 ^ (x.exponent - y.exponent) * ((x.mantissa.natAbs : ℝ) / y.mantissa.natAbs) := by
      rw [abs_div, value_natAbs, value_natAbs, zpow_sub₀ two_ne_zero]
      field_simp
    rw [value_scale, hvalue, mul_comm]
    exact hquotient
  have hsign (z : Binary) (hz : ¬ z.isZero) : (z.mantissa < 0 ↔ z.value < 0) := by
    rw [value, mul_neg_iff]
    have hpower : (0 : ℝ) < 2 ^ z.exponent := by positivity
    simp [hpower, hpower.not_gt]
  rw [if_neg hx]
  by_cases hneg : (decide (x.mantissa < 0) != decide (y.mantissa < 0)) = true
  · simp only [hneg, if_true, value_neg]
    have hquotient : x.value / y.value ≤ 0 := by
      rw [bne_iff_ne, ne_eq, decide_eq_decide, hsign x hx, hsign y hy] at hneg
      rcases lt_or_ge x.value 0 with hlt | hge
      · exact div_nonpos_of_nonpos_of_nonneg hlt.le (by by_contra h; exact hneg (by simp [hlt, not_le.mp h]))
      · exact div_nonpos_of_nonneg_of_nonpos hge (by by_contra h; exact hneg (by simp [hge.not_gt, (not_le.mp h).not_gt]))
    simpa [abs_of_nonpos hquotient] using (hscaled direction.opposite).neg
  · simp only [hneg, Bool.false_eq_true, if_false]
    have hquotient : 0 ≤ x.value / y.value := by
      rw [bne_iff_ne, ne_eq, not_not, decide_eq_decide, hsign x hx, hsign y hy] at hneg
      rcases lt_or_ge x.value 0 with hlt | hge
      · exact div_nonneg_of_nonpos hlt.le (hneg.mp hlt).le
      · exact div_nonneg hge (not_lt.mp fun h => hge.not_gt (hneg.mpr h))
    simpa [abs_of_nonneg hquotient] using hscaled direction

/-! ### Sums -/

theorem order_mono (hx : ¬ x.isZero) (h : |x.value| ≤ |y.value|) : x.order ≤ y.order := by
  have hlt : (2 : ℝ) ^ x.order < 2 ^ (y.order + 1) := by
    calc (2 : ℝ) ^ x.order ≤ 2 * |x.value| := order_le_value hx
      _ ≤ 2 * |y.value| := by linarith
      _ < 2 * 2 ^ y.order := by linarith [value_lt_order y]
      _ = 2 ^ (y.order + 1) := by rw [zpow_add_one₀ two_ne_zero, mul_comm]
  have hexponent := (zpow_lt_zpow_iff_right₀ (one_lt_two : (1 : ℝ) < 2)).mp hlt
  omega

theorem abs_sign_le (x : Binary) : |(x.sign : ℝ)| ≤ 1 := by
  rcases Int.sign_trichotomy x.mantissa with h | h | h <;> simp [sign, h]

/-- A summand below the last bit of the other one may be replaced by another one of that size. -/
theorem round_add_near (direction : Direction) (bits : Nat) {big small tiny : Binary}
    (hsmall : |tiny.value - small.value| ≤ roundoff bits / 4 * |big.value|) :
    |((big.add tiny).round direction bits).value - (big.value + small.value)| ≤
      2 * roundoff bits * (|big.value| + |small.value|) := by
  have hround := round_isNear direction bits (big.add tiny)
  unfold IsNear at hround
  rw [value_add] at hround
  have hoff := roundoff_pos bits
  have hle : roundoff bits ≤ 2 := by
    unfold roundoff
    exact div_le_self zero_le_two (one_le_pow₀ one_le_two)
  have hsum : |big.value + tiny.value| ≤ |big.value| + |small.value| + roundoff bits / 4 * |big.value| := by
    calc |big.value + tiny.value| = |big.value + small.value + (tiny.value - small.value)| := by ring_nf
      _ ≤ |big.value + small.value| + |tiny.value - small.value| := abs_add_le _ _
      _ ≤ |big.value| + |small.value| + roundoff bits / 4 * |big.value| := add_le_add (abs_add_le _ _) hsmall
  have hbig : roundoff bits * (roundoff bits / 4 * |big.value|) ≤ roundoff bits / 2 * |big.value| := by
    have hquarter : roundoff bits * (roundoff bits / 4) ≤ roundoff bits / 2 := by nlinarith
    calc roundoff bits * (roundoff bits / 4 * |big.value|) = roundoff bits * (roundoff bits / 4) * |big.value| := by ring
      _ ≤ roundoff bits / 2 * |big.value| := mul_le_mul_of_nonneg_right hquarter (abs_nonneg _)
  have htriangle : |((big.add tiny).round direction bits).value - (big.value + small.value)| ≤
      |((big.add tiny).round direction bits).value - (big.value + tiny.value)| + |tiny.value - small.value| := by
    refine (abs_add_le _ _).trans_eq' ?_
    ring_nf
  have hrest : roundoff bits * |big.value + tiny.value| ≤
      roundoff bits * (|big.value| + |small.value| + roundoff bits / 4 * |big.value|) :=
    mul_le_mul_of_nonneg_left hsum hoff.le
  have hzero := mul_nonneg hoff.le (abs_nonneg big.value)
  have hzero' := mul_nonneg hoff.le (abs_nonneg small.value)
  linarith

/-- A summand below the last bit of another one is hardly nearer to zero than the unit that stands in for it. -/
theorem abs_unit_sub_le (bits : Nat) {big small : Binary} (hbig : ¬ big.isZero)
    (hfloor : small.order < min big.exponent (big.order - bits) - 4) :
    |value ⟨small.sign, min big.exponent (big.order - bits) - 4⟩ - small.value| ≤ roundoff bits / 4 * |big.value| := by
  have hoff := roundoff_pos bits
  have hunit : (2 : ℝ) ^ (min big.exponent (big.order - bits) - 4) ≤ roundoff bits / 8 * |big.value| := by
    calc (2 : ℝ) ^ (min big.exponent (big.order - bits) - 4) ≤ 2 ^ (big.order - bits - 4) :=
          zpow_le_zpow_right₀ one_le_two (by omega)
      _ = 2 ^ big.order / 2 ^ bits / 16 := by
          rw [zpow_sub₀ two_ne_zero, zpow_sub₀ two_ne_zero, zpow_natCast]
          norm_num
      _ ≤ 2 * |big.value| / 2 ^ bits / 16 := by
          gcongr
          exact order_le_value hbig
      _ = roundoff bits / 8 * |big.value| / 2 := by
          unfold roundoff
          ring
      _ ≤ roundoff bits / 8 * |big.value| := half_le_self (by positivity)
  have htiny : |value ⟨small.sign, min big.exponent (big.order - bits) - 4⟩| ≤
      2 ^ (min big.exponent (big.order - bits) - 4) := by
    rw [value, abs_mul, abs_of_pos (zpow_pos (two_pos : (0 : ℝ) < 2) _)]
    exact mul_le_of_le_one_left (by positivity) (abs_sign_le small)
  have hlast : |small.value| ≤ 2 ^ (min big.exponent (big.order - bits) - 4) :=
    (value_lt_order small).le.trans (zpow_le_zpow_right₀ one_le_two hfloor.le)
  calc |value ⟨small.sign, min big.exponent (big.order - bits) - 4⟩ - small.value| ≤
        |value ⟨small.sign, min big.exponent (big.order - bits) - 4⟩| + |small.value| := abs_sub _ _
    _ ≤ roundoff bits / 4 * |big.value| := by linarith

/-- A rounded sum is wrong by little in proportion to its summands. -/
theorem addRounded_near (direction : Direction) (bits : Nat) (x y : Binary) :
    |(x.addRounded direction bits y).value - (x.value + y.value)| ≤
      2 * roundoff bits * (|x.value| + |y.value|) := by
  have hoff := roundoff_pos bits
  have hround (z : Binary) : |(z.round direction bits).value - z.value| ≤ 2 * roundoff bits * |z.value| := by
    have h := round_isNear direction bits z
    unfold IsNear at h
    have hzero := mul_nonneg hoff.le (abs_nonneg z.value)
    linarith
  unfold addRounded
  by_cases hx : x.isZero
  · simpa [hx, isZero_iff.mp hx] using hround y
  by_cases hy : y.isZero
  · simpa [hx, hy, isZero_iff.mp hy] using hround x
  -- the summand of greater order comes first
  have hordered {big small : Binary} (hbig : ¬ big.isZero) :
      |(if small.order < min big.exponent (big.order - bits) - 4 then
          (big.add ⟨small.sign, min big.exponent (big.order - bits) - 4⟩).round direction bits
        else (big.add small).round direction bits).value - (big.value + small.value)| ≤
        2 * roundoff bits * (|big.value| + |small.value|) := by
    split_ifs with hfloor
    · exact round_add_near direction bits (abs_unit_sub_le bits hbig hfloor)
    · apply round_add_near
      rw [sub_self, abs_zero]
      positivity
  rw [if_neg hx, if_neg hy]
  by_cases horder : x.order < y.order
  · simp only [horder, if_true]
    rw [add_comm x.value, add_comm |x.value|]
    exact hordered hy
  · simp only [horder, if_false]
    exact hordered hx

/-! ### Comparison -/

theorem sign_lt_of_value_lt (h : x.value < y.value) (hsign : x.sign ≠ y.sign) : x.sign < y.sign := by
  have hpower (z : Binary) : (0 : ℝ) < 2 ^ z.exponent := by positivity
  have hpos (z : Binary) (hz : 0 < z.mantissa) : 0 < z.value := mul_pos (by exact_mod_cast hz) (hpower z)
  have hneg (z : Binary) (hz : z.mantissa < 0) : z.value < 0 := mul_neg_of_neg_of_pos (by exact_mod_cast hz) (hpower z)
  have hzero (z : Binary) (hz : z.mantissa = 0) : z.value = 0 := by simp [value, hz]
  rcases lt_trichotomy x.mantissa 0 with hx | hx | hx <;> rcases lt_trichotomy y.mantissa 0 with hy | hy | hy <;>
    simp only [sign, hx, hy, Int.sign_eq_neg_one_of_neg, Int.sign_eq_one_of_pos, Int.sign_zero] at hsign ⊢ <;>
    first
    | omega
    | linarith [hpos x hx, hneg y hy]
    | linarith [hpos x hx, hzero y hy]
    | linarith [hzero x hx, hneg y hy]

/-- What is not found to be greater is not greater. -/
theorem value_le_of_compare (h : x.compare y ≠ .gt) : x.value ≤ y.value := by
  by_contra hlt
  rw [not_le] at hlt
  apply h
  unfold compare
  by_cases hsign : x.sign = y.sign
  · rw [if_neg (not_not.mpr hsign)]
    have hzero (z : Binary) : z.isZero ↔ z.sign = 0 := by simp [isZero, sign, Int.sign_eq_zero_iff_zero]
    have hx : ¬ x.isZero := by
      intro hx
      have hy : y.isZero := by rwa [hzero, ← hsign, ← hzero]
      rw [isZero_iff.mp hx, isZero_iff.mp hy] at hlt
      exact lt_irrefl _ hlt
    have hy : ¬ y.isZero := by rwa [hzero, ← hsign, ← hzero]
    rw [if_neg hx]
    by_cases horder : x.order = y.order
    · rw [if_neg (not_not.mpr horder)]
      rw [← value_mantissaAt (min_le_left x.exponent y.exponent), ← value_mantissaAt (min_le_right x.exponent y.exponent)]
        at hlt
      have hmantissa := lt_of_mul_lt_mul_right hlt (by positivity)
      exact Int.compare_eq_gt.mpr (by exact_mod_cast hmantissa)
    · rw [if_pos horder]
      have hnonneg (z : Binary) (hz : ¬ z.sign < 0) : 0 ≤ z.value :=
        mul_nonneg (by exact_mod_cast Int.sign_nonneg_iff.mp (not_lt.mp hz)) (by positivity)
      have hnonpos (z : Binary) (hz : z.sign < 0) : z.value ≤ 0 :=
        mul_nonpos_of_nonpos_of_nonneg (by exact_mod_cast (Int.sign_neg_iff.mp hz).le) (by positivity)
      -- of two negative numbers the lesser one has the greater absolute value
      split_ifs with hnegative
      · have hle := order_mono (y := y) hx (by
          rw [abs_of_nonpos (hnonpos x hnegative), abs_of_nonpos (hnonpos y (hsign ▸ hnegative))]
          linarith)
        exact Int.compare_eq_gt.mpr (by omega)
      · have hle := order_mono (y := x) hy (by
          rw [abs_of_nonneg (hnonneg y (hsign ▸ hnegative)), abs_of_nonneg (hnonneg x hnegative)]
          exact hlt.le)
        exact Int.compare_eq_gt.mpr (by omega)
  · rw [if_pos hsign]
    exact Int.compare_eq_gt.mpr (sign_lt_of_value_lt hlt (Ne.symm hsign))

end Binary

end Reckoner.Number
