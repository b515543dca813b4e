import Mathlib.Analysis.Complex.ExponentialBounds
import Mathlib.Analysis.SpecialFunctions.Artanh
import Mathlib.Analysis.SpecialFunctions.Log.Deriv
import Reckoner.Number.Interval
import Reckoner.Proofs.Number.Accuracy

/-!
# Accuracy of logarithms

The logarithm of a whole number is the sum of a multiple of `log 2` and the logarithm of a number near one, each from the
power series of the inverse hyperbolic tangent, summed in scaled integers.  The main statements bound the relative error
of the two ends of the enclosure of such a logarithm, and of the decimal logarithm that is picked from them.
-/

namespace Reckoner.Number

open Real

/-! ### The series of the inverse hyperbolic tangent -/

/-- What the first `i` summands of the power series at `r` leave of `artanh r`. -/
noncomputable def artanhTail (r : ℝ) (i : Nat) : ℝ :=
  artanh r - ∑ j ∈ Finset.range i, r ^ (2 * j + 1) / ((2 * j + 1 : Nat) : ℝ)

theorem artanhTail_zero (r : ℝ) : artanhTail r 0 = artanh r := by simp [artanhTail]

theorem artanhTail_succ (r : ℝ) (i : Nat) : artanhTail r i = r ^ (2 * i + 1) / (2 * i + 1) + artanhTail r (i + 1) := by
  rw [artanhTail, artanhTail, Finset.sum_range_succ]
  push_cast
  ring

theorem hasSum_artanh {r : ℝ} (hr : |r| < 1) : HasSum (fun i : Nat => r ^ (2 * i + 1) / (2 * i + 1)) (artanh r) := by
  obtain ⟨hlower, hupper⟩ := abs_lt.mp hr
  have hlog : artanh r = (log (1 + r) - log (1 - r)) / 2 := by
    rw [artanh_eq_half_log ⟨hlower.le, hupper.le⟩, log_div (by linarith) (by linarith)]
    ring
  rw [hlog]
  refine ((hasSum_log_sub_log_of_abs_lt_one hr).div_const 2).congr_fun fun i => ?_
  field_simp

theorem abs_artanhTail_le {r : ℝ} (hr : |r| ≤ 1 / 2) (i : Nat) : |artanhTail r i| ≤ 2 * |r| ^ (2 * i + 1) := by
  have htail : HasSum (fun j : Nat => r ^ (2 * (j + i) + 1) / (2 * ((j + i : Nat) : ℝ) + 1)) (artanhTail r i) := by
    have hsum := (hasSum_nat_add_iff' i).mpr (hasSum_artanh (by linarith : |r| < 1))
    rw [artanhTail]
    push_cast at hsum ⊢
    exact hsum
  have hratio : |r| ^ 2 ≤ 1 / 2 := by nlinarith [abs_nonneg r]
  have hgeometric : HasSum (fun j : Nat => |r| ^ (2 * i + 1) * (|r| ^ 2) ^ j) (|r| ^ (2 * i + 1) * (1 - |r| ^ 2)⁻¹) :=
    (hasSum_geometric_of_lt_one (by positivity) (by linarith)).mul_left _
  have hterm (j : Nat) : ‖r ^ (2 * (j + i) + 1) / (2 * ((j + i : Nat) : ℝ) + 1)‖ ≤ |r| ^ (2 * i + 1) * (|r| ^ 2) ^ j := by
    rw [norm_div, norm_pow, Real.norm_eq_abs, ← pow_mul, ← pow_add]
    have hdenominator : (1 : ℝ) ≤ ‖2 * ((j + i : Nat) : ℝ) + 1‖ := by
      rw [Real.norm_of_nonneg (by positivity)]
      linarith [Nat.cast_nonneg (α := ℝ) (j + i)]
    have hsame : 2 * (j + i) + 1 = 2 * i + 1 + 2 * j := by ring
    rw [hsame]
    exact div_le_self (by positivity) hdenominator
  calc |artanhTail r i| ≤ |r| ^ (2 * i + 1) * (1 - |r| ^ 2)⁻¹ := by
        rw [← htail.tsum_eq]
        exact tsum_of_norm_bounded hgeometric hterm
    _ ≤ |r| ^ (2 * i + 1) * 2 := by
        gcongr
        rw [inv_le_comm₀ (by linarith) two_pos]
        linarith
    _ = 2 * |r| ^ (2 * i + 1) := mul_comm _ _

/-! ### Sums of scaled integers -/

/-- The floor of a quotient is wrong by at most one. -/
theorem abs_fdiv_sub_le (a : Int) {b : Int} (hb : 0 < b) : |(Int.fdiv a b : ℝ) - a / b| ≤ 1 := by
  have hdivisor : (0 : ℝ) < b := by exact_mod_cast hb
  rw [Int.fdiv_eq_ediv_of_nonneg a hb.le]
  have hlower : ((a / b : Int) : ℝ) * b ≤ a := by exact_mod_cast Int.ediv_mul_le a hb.ne'
  have hupper : (a : ℝ) < ((a / b : Int) + 1) * b := by exact_mod_cast Int.lt_ediv_add_one_mul_self a hb
  rw [← le_div_iff₀ hdivisor] at hlower
  rw [← div_lt_iff₀ hdivisor] at hupper
  rw [abs_le]
  constructor <;> linarith

section Series

variable {w i : Nat} {r power term : ℝ}

/-- A cut summand of the series. -/
theorem abs_summand_sub_le (hpower : |power - 2 ^ w * r ^ (2 * i + 1)| ≤ 2) (hterm : |term - power / (2 * i + 1)| ≤ 1) :
    |term - 2 ^ w * (r ^ (2 * i + 1) / (2 * i + 1))| ≤ 3 := by
  have hodd : (1 : ℝ) ≤ 2 * i + 1 := by linarith [Nat.cast_nonneg (α := ℝ) i]
  have hquotient : |power / (2 * i + 1) - 2 ^ w * (r ^ (2 * i + 1) / (2 * i + 1))| ≤ 2 := by
    rw [← mul_div_assoc, ← sub_div, abs_div, abs_of_pos (by linarith : (0 : ℝ) < 2 * i + 1)]
    exact (div_le_self (abs_nonneg _) hodd).trans hpower
  linarith [abs_sub_le term (power / (2 * i + 1)) (2 ^ w * (r ^ (2 * i + 1) / (2 * i + 1)))]

/-- The rest of the series once its summands vanish. -/
theorem abs_rest_le (hr : |r| ≤ 1 / 2) (hpower : |power - 2 ^ w * r ^ (2 * i + 1)| ≤ 2) (hend : |power| ≤ 1) :
    |2 ^ w * artanhTail r i| ≤ 6 := by
  have hsummand : |2 ^ w * r ^ (2 * i + 1)| ≤ 3 := by
    linarith [abs_sub_abs_le_abs_sub (2 ^ w * r ^ (2 * i + 1)) power, abs_sub_comm power (2 ^ w * r ^ (2 * i + 1))]
  rw [abs_mul, abs_of_pos (by positivity : (0 : ℝ) < 2 ^ w), abs_pow] at hsummand
  calc |2 ^ w * artanhTail r i| = 2 ^ w * |artanhTail r i| := by rw [abs_mul, abs_of_pos (by positivity)]
    _ ≤ 2 ^ w * (2 * |r| ^ (2 * i + 1)) := mul_le_mul_of_nonneg_left (abs_artanhTail_le hr i) (by positivity)
    _ ≤ 6 := by linarith

/-- The rest of the series after as many summands as there are bits. -/
theorem abs_rest_le_of_bits (hr : |r| ≤ 1 / 2) (hw : w ≤ i) : |2 ^ w * artanhTail r i| ≤ 6 := by
  have hsmall : (2 : ℝ) ^ w * |r| ^ (2 * i + 1) ≤ 1 := by
    calc (2 : ℝ) ^ w * |r| ^ (2 * i + 1) ≤ 2 ^ (2 * i + 1) * (1 / 2) ^ (2 * i + 1) := by
          gcongr
          · exact one_le_two
          · omega
      _ = 1 := by rw [← mul_pow]; norm_num
  calc |2 ^ w * artanhTail r i| = 2 ^ w * |artanhTail r i| := by rw [abs_mul, abs_of_pos (by positivity)]
    _ ≤ 2 ^ w * (2 * |r| ^ (2 * i + 1)) := mul_le_mul_of_nonneg_left (abs_artanhTail_le hr i) (by positivity)
    _ ≤ 6 := by linarith

end Series

namespace Interval

theorem abs_mulFixed_sub_le (w : Nat) (x y : Int) : |(mulFixed w x y : ℝ) - x * y / 2 ^ w| ≤ 1 := by
  have hfloor := abs_fdiv_sub_le (x * y) (b := ((2 ^ w : Nat) : Int)) (by positivity)
  push_cast at hfloor
  exact hfloor

/-- The product of two scaled numbers, from how far each of them is off. -/
theorem abs_mulFixed_sub_mul_le {w : Nat} {x y δ ε : ℝ} {a b : Int} (ha : |a - 2 ^ w * x| ≤ δ)
    (hb : |b - 2 ^ w * y| ≤ ε) :
    |(mulFixed w a b : ℝ) - 2 ^ w * (x * y)| ≤ |x| * ε + |y| * δ + δ * ε / 2 ^ w + 1 := by
  have hδ : 0 ≤ δ := (abs_nonneg _).trans ha
  have hpower : (0 : ℝ) < 2 ^ w := by positivity
  have hproduct : (a : ℝ) * b / 2 ^ w - 2 ^ w * (x * y) =
      x * (b - 2 ^ w * y) + y * (a - 2 ^ w * x) + (a - 2 ^ w * x) * (b - 2 ^ w * y) / 2 ^ w := by
    field_simp
    ring
  have herror : |(a : ℝ) * b / 2 ^ w - 2 ^ w * (x * y)| ≤ |x| * ε + |y| * δ + δ * ε / 2 ^ w := by
    rw [hproduct]
    refine (abs_add_three _ _ _).trans (add_le_add_three ?_ ?_ ?_)
    · rw [abs_mul]
      gcongr
    · rw [abs_mul]
      gcongr
    · rw [abs_div, abs_mul, abs_of_pos hpower]
      gcongr
  linarith [abs_sub_le (mulFixed w a b : ℝ) (a * b / 2 ^ w) (2 ^ w * (x * y)), abs_mulFixed_sub_le w a b]

theorem sixteen_le_two_pow {w : Nat} (hw : 4 ≤ w) : (16 : ℝ) ≤ 2 ^ w := by
  calc (16 : ℝ) = 2 ^ 4 := by norm_num
    _ ≤ 2 ^ w := pow_le_pow_right₀ one_le_two hw

/-- The square of a scaled number. -/
theorem abs_square_sub_le {w : Nat} {r : ℝ} {ratio : Int} (hw : 4 ≤ w) (hr : |r| ≤ 1 / 4)
    (hratio : |ratio - 2 ^ w * r| ≤ 1) : |(mulFixed w ratio ratio : ℝ) - 2 ^ w * r ^ 2| ≤ 2 := by
  have hbits := sixteen_le_two_pow hw
  have hproduct := abs_mulFixed_sub_mul_le hratio hratio
  have hthird : (1 : ℝ) * 1 / 2 ^ w ≤ 1 / 16 := by
    rw [div_le_div_iff₀ (by positivity) (by norm_num)]
    linarith
  rw [← pow_two] at hproduct
  linarith

/-- The next power of the series is wrong by at most two as well. -/
theorem abs_next_power_sub_le {w i : Nat} {r : ℝ} {power square : Int} (hw : 4 ≤ w) (hr : |r| ≤ 1 / 4)
    (hsquare : |square - 2 ^ w * r ^ 2| ≤ 2) (hpower : |power - 2 ^ w * r ^ (2 * i + 1)| ≤ 2) :
    |(mulFixed w power square : ℝ) - 2 ^ w * r ^ (2 * (i + 1) + 1)| ≤ 2 := by
  have hbits := sixteen_le_two_pow hw
  have hodd : |r ^ (2 * i + 1)| ≤ 1 / 4 := by
    rw [abs_pow]
    exact (pow_le_of_le_one (abs_nonneg r) (by linarith) (by omega)).trans hr
  have heven : |r ^ 2| ≤ 1 / 16 := by
    rw [abs_pow]
    nlinarith [abs_nonneg r]
  have hproduct := abs_mulFixed_sub_mul_le hpower hsquare
  have hthird : (2 : ℝ) * 2 / 2 ^ w ≤ 1 / 4 := by
    rw [div_le_div_iff₀ (by positivity) (by norm_num)]
    linarith
  rw [← pow_add, (by ring : 2 * i + 1 + 2 = 2 * (i + 1) + 1)] at hproduct
  linarith

/-- The scaled sum that the logarithm of a number near one is taken from. -/
theorem abs_logPoint_go_sub_le {w : Nat} {r : ℝ} {square : Int} (hw : 4 ≤ w) (hr : |r| ≤ 1 / 4)
    (hsquare : |square - 2 ^ w * r ^ 2| ≤ 2) (fuel i : Nat) {power : Int}
    (hpower : |power - 2 ^ w * r ^ (2 * i + 1)| ≤ 2) (hfuel : w ≤ i + fuel) (sum : Int) :
    |(logPoint.go w square fuel power (2 * i + 1) sum : ℝ) - (sum + 2 ^ w * artanhTail r i)| ≤ 3 * fuel + 7 := by
  induction fuel generalizing i power sum with
  | zero =>
    have hrest := abs_rest_le_of_bits (hr.trans (by norm_num)) (i := i) (w := w) (by omega)
    rw [logPoint.go, sub_add_cancel_left, abs_neg]
    push_cast
    linarith
  | succ fuel ih =>
    rw [logPoint.go]
    split_ifs with hend
    · have hone : |(power : ℝ)| ≤ 1 := by
        rw [← Int.cast_abs, Int.abs_eq_natAbs]
        exact_mod_cast hend
      have hrest := abs_rest_le (hr.trans (by norm_num)) hpower hone
      push_cast
      calc |(sum : ℝ) + power - (sum + 2 ^ w * artanhTail r i)| = |power - 2 ^ w * artanhTail r i| := by ring_nf
        _ ≤ |(power : ℝ)| + |2 ^ w * artanhTail r i| := abs_sub _ _
        _ ≤ 3 * (fuel + 1) + 7 := by linarith [Nat.cast_nonneg (α := ℝ) fuel]
    · have hterm := abs_fdiv_sub_le power (b := ((2 * i + 1 : Nat) : Int)) (by positivity)
      have hsummand : |(Int.fdiv power ((2 * i + 1 : Nat) : Int) : ℝ) - 2 ^ w * (r ^ (2 * i + 1) / (2 * i + 1))| ≤ 3 :=
        abs_summand_sub_le hpower (by push_cast at hterm ⊢; exact hterm)
      have hrun := ih (i + 1) (abs_next_power_sub_le hw hr hsquare hpower) (by omega)
        (sum + Int.fdiv power ((2 * i + 1 : Nat) : Int))
      have hodd : 2 * i + 1 + 2 = 2 * (i + 1) + 1 := by ring
      rw [hodd, artanhTail_succ r i]
      rw [abs_le] at hsummand hrun ⊢
      push_cast at hsummand hrun ⊢
      constructor <;> linarith [hsummand.1, hsummand.2, hrun.1, hrun.2]

/-! ### The logarithm of two -/

theorem abs_natDiv_sub_le (a : Nat) {b : Nat} (hb : 0 < b) : |((a / b : Nat) : ℝ) - a / b| ≤ 1 := by
  have hfloor := abs_fdiv_sub_le a (b := (b : Int)) (by exact_mod_cast hb)
  rw [Int.fdiv_eq_ediv_of_nonneg _ (by positivity), ← Int.natCast_ediv, Int.cast_natCast] at hfloor
  simpa only [Int.cast_natCast] using hfloor

theorem abs_inverseSeries_go_sub_le {w k : Nat} (hk : 2 ≤ k) (fuel i : Nat) {power : Nat}
    (hpower : |power - 2 ^ w * ((k : ℝ)⁻¹) ^ (2 * i + 1)| ≤ 2) (hfuel : w ≤ i + fuel) (sum : Int) :
    |(inverseSeries.go false k fuel power (2 * i + 1) true sum : ℝ) - (sum + 2 ^ w * artanhTail (k : ℝ)⁻¹ i)| ≤
      3 * fuel + 6 := by
  have hdivisor : (2 : ℝ) ≤ k := by exact_mod_cast hk
  have hr : |(k : ℝ)⁻¹| ≤ 1 / 2 := by
    rw [abs_of_nonneg (by positivity), one_div]
    exact inv_anti₀ two_pos hdivisor
  induction fuel generalizing i power sum with
  | zero =>
    have hrest := abs_rest_le_of_bits hr (i := i) (w := w) (by omega)
    rw [inverseSeries.go, sub_add_cancel_left, abs_neg]
    push_cast
    linarith
  | succ fuel ih =>
    rw [inverseSeries.go]
    simp only [Bool.false_eq_true, if_false, if_true]
    by_cases hend : power = 0
    · have hrest := abs_rest_le hr hpower (by simp [hend])
      rw [if_pos hend, sub_add_cancel_left, abs_neg]
      push_cast
      linarith [Nat.cast_nonneg (α := ℝ) fuel]
    · have hterm := abs_natDiv_sub_le power (b := 2 * i + 1) (by omega)
      have hsummand : |((power / (2 * i + 1) : Nat) : ℝ) - 2 ^ w * ((k : ℝ)⁻¹ ^ (2 * i + 1) / (2 * i + 1))| ≤ 3 :=
        abs_summand_sub_le hpower (by push_cast at hterm ⊢; exact hterm)
      have hsquare : (4 : ℝ) ≤ k * k := by nlinarith
      have hnext : |((power / (k * k) : Nat) : ℝ) - 2 ^ w * (k : ℝ)⁻¹ ^ (2 * (i + 1) + 1)| ≤ 2 := by
        have hcut := abs_natDiv_sub_le power (b := k * k) (by positivity)
        have hquotient : |(power : ℝ) / (k * k) - 2 ^ w * (k : ℝ)⁻¹ ^ (2 * (i + 1) + 1)| ≤ 2 / 4 := by
          have hsame : (power : ℝ) / (k * k) - 2 ^ w * (k : ℝ)⁻¹ ^ (2 * (i + 1) + 1) =
              (power - 2 ^ w * (k : ℝ)⁻¹ ^ (2 * i + 1)) / (k * k) := by
            have hexponent : 2 * (i + 1) + 1 = 2 * i + 1 + 2 := by ring
            rw [hexponent, pow_add]
            field_simp
          rw [hsame, abs_div, abs_of_pos (by positivity : (0 : ℝ) < k * k)]
          exact div_le_div₀ zero_le_two hpower (by norm_num) hsquare
        push_cast at hcut
        linarith [abs_sub_le ((power / (k * k) : Nat) : ℝ) (power / (k * k)) (2 ^ w * (k : ℝ)⁻¹ ^ (2 * (i + 1) + 1))]
      have hrun := ih (i + 1) hnext (by omega) (sum + (power / (2 * i + 1) : Nat))
      have hodd : 2 * i + 1 + 2 = 2 * (i + 1) + 1 := by ring
      rw [Int.cast_add, Int.cast_natCast] at hrun
      rw [if_neg hend, hodd, artanhTail_succ]
      rw [abs_le] at hsummand hrun ⊢
      rw [Nat.cast_succ]
      constructor <;> linarith [hsummand.1, hsummand.2, hrun.1, hrun.2]

theorem abs_inverseSeries_sub_le (w : Nat) {k : Nat} (hk : 2 ≤ k) :
    |(inverseSeries false k w : ℝ) - 2 ^ w * artanh (k : ℝ)⁻¹| ≤ 3 * w + 12 := by
  have hpower : |((2 ^ w / k : Nat) : ℝ) - 2 ^ w * ((k : ℝ)⁻¹) ^ (2 * 0 + 1)| ≤ 2 := by
    have hcut := abs_natDiv_sub_le (2 ^ w) (b := k) (by omega)
    push_cast at hcut
    simpa [div_eq_mul_inv] using hcut.trans one_le_two
  have hrun := abs_inverseSeries_go_sub_le hk (w + 2) 0 hpower (by omega) 0
  rw [artanhTail_zero] at hrun
  rw [inverseSeries]
  push_cast at hrun ⊢
  rw [zero_add] at hrun
  linarith

theorem artanh_inv {k : ℝ} (hk : 1 < k) : artanh k⁻¹ = (log (k + 1) - log (k - 1)) / 2 := by
  have hinv : k⁻¹ ≤ 1 := inv_le_one_of_one_le₀ hk.le
  have hpos : 0 < k⁻¹ := by positivity
  have hquotient : (1 + k⁻¹) / (1 - k⁻¹) = (k + 1) / (k - 1) := by
    have hne : k - 1 ≠ 0 := by linarith
    field_simp
  rw [artanh_eq_half_log ⟨by linarith, hinv⟩, hquotient, log_div (by linarith) (by linarith)]
  ring

/-- The sum that `log 2` is computed from. -/
theorem log_two_eq_artanh : log 2 = 18 * artanh (26 : ℝ)⁻¹ - 2 * artanh (4801 : ℝ)⁻¹ + 8 * artanh (8749 : ℝ)⁻¹ := by
  have hpow (a : ℝ) (n : Nat) : log (a ^ n) = n * log a := Real.log_pow a n
  have h27 : log (26 + 1) = 3 * log 3 := by rw [← Nat.cast_ofNat (n := 3), ← hpow]; norm_num
  have h25 : log (26 - 1) = 2 * log 5 := by rw [← Nat.cast_ofNat (n := 2), ← hpow]; norm_num
  have h4802 : log (4801 + 1) = log 2 + 4 * log 7 := by
    rw [← Nat.cast_ofNat (n := 4), ← hpow, ← log_mul (by norm_num) (by norm_num)]; norm_num
  have h4800 : log (4801 - 1) = 6 * log 2 + log 3 + 2 * log 5 := by
    rw [← Nat.cast_ofNat (n := 6), ← hpow, ← Nat.cast_ofNat (n := 2), ← hpow, ← log_mul (by norm_num) (by norm_num),
      ← log_mul (by norm_num) (by norm_num)]
    norm_num
  have h8750 : log (8749 + 1) = log 2 + 4 * log 5 + log 7 := by
    rw [← Nat.cast_ofNat (n := 4), ← hpow, ← log_mul (by norm_num) (by norm_num),
      ← log_mul (by norm_num) (by norm_num)]
    norm_num
  have h8748 : log (8749 - 1) = 2 * log 2 + 7 * log 3 := by
    rw [← Nat.cast_ofNat (n := 2), ← hpow, ← Nat.cast_ofNat (n := 7), ← hpow, ← log_mul (by norm_num) (by norm_num)]
    norm_num
  rw [artanh_inv (by norm_num), artanh_inv (by norm_num), artanh_inv (by norm_num), h27, h25, h4802, h4800, h8750, h8748]
  ring

theorem bitLength_le_self (n : Nat) : bitLength n ≤ n := by
  unfold bitLength
  split
  · omega
  · rename_i hn
    have hlt : n.log2 < n := (Nat.log2_lt hn).mpr Nat.lt_two_pow_self
    omega

/-- Cutting guard bits off a scaled number with a small error. -/
theorem abs_cut_guard_sub_le {width guard : Nat} {total : Int} {x δ : ℝ}
    (htotal : |total - 2 ^ (width + guard) * x| ≤ δ) (hδ : δ ≤ 2 ^ guard) :
    |(Int.fdiv total ((2 ^ guard : Nat) : Int) : ℝ) - 2 ^ width * x| ≤ 2 := by
  have hpower : (0 : ℝ) < 2 ^ guard := by positivity
  have hcut := abs_fdiv_sub_le total (b := ((2 ^ guard : Nat) : Int)) (by positivity)
  have hquotient : |(total : ℝ) / 2 ^ guard - 2 ^ width * x| ≤ 1 := by
    have hsame : (total : ℝ) / 2 ^ guard - 2 ^ width * x = (total - 2 ^ (width + guard) * x) / 2 ^ guard := by
      rw [pow_add]
      field_simp
    rw [hsame, abs_div, abs_of_pos hpower, div_le_one hpower]
    exact htotal.trans hδ
  have hcast : (((2 ^ guard : Nat) : Int) : ℝ) = 2 ^ guard := by norm_cast
  rw [hcast] at hcut
  linarith [abs_sub_le (Int.fdiv total ((2 ^ guard : Nat) : Int) : ℝ) (total / 2 ^ guard) (2 ^ width * x)]

theorem abs_ln2Fixed_sub_le {width : Nat} (hwidth : 1 ≤ width) : |(ln2Fixed width : ℝ) - 2 ^ width * log 2| ≤ 2 := by
  have h26 := abs_inverseSeries_sub_le (width + (bitLength width + 10)) (k := 26) (by norm_num)
  have h4801 := abs_inverseSeries_sub_le (width + (bitLength width + 10)) (k := 4801) (by norm_num)
  have h8749 := abs_inverseSeries_sub_le (width + (bitLength width + 10)) (k := 8749) (by norm_num)
  have hbits : (width : ℝ) + 1 ≤ 2 ^ bitLength width := by exact_mod_cast lt_two_pow_bitLength width
  have hlength : (bitLength width : ℝ) ≤ width := by exact_mod_cast bitLength_le_self width
  have hpositive : (1 : ℝ) ≤ width := by exact_mod_cast hwidth
  apply abs_cut_guard_sub_le (δ := 28 * (3 * (width + (bitLength width + 10)) + 12))
  · rw [log_two_eq_artanh]
    push_cast at h26 h4801 h8749 ⊢
    rw [abs_le] at h26 h4801 h8749 ⊢
    constructor <;> linarith [h26.1, h26.2, h4801.1, h4801.2, h8749.1, h8749.2]
  · rw [pow_add]
    linarith

/-! ### Ends of intervals -/

/-- Both ends of an interval are near a number. -/
def IsAround (x : Interval) (t δ : ℝ) : Prop := |x.lower.value - t| ≤ δ ∧ |x.upper.value - t| ≤ δ

theorem isAround_ofFixed {width : Nat} {scaled : Int} {t δ : ℝ} (h : |scaled - 2 ^ width * t| ≤ δ) (error : Nat) :
    (ofFixed width scaled error).IsAround t ((δ + error) / 2 ^ width) := by
  have hpower : (0 : ℝ) < 2 ^ width := by positivity
  have hend {m : Int} (hm : |(m : ℝ) - scaled| ≤ error) :
      |Binary.value ⟨m, -width⟩ - t| ≤ (δ + error) / 2 ^ width := by
    have hsame : Binary.value ⟨m, -width⟩ - t = (m - 2 ^ width * t) / 2 ^ width := by
      rw [Binary.value, zpow_neg, zpow_natCast]
      field_simp
    rw [hsame, abs_div, abs_of_pos hpower]
    gcongr
    linarith [abs_sub_le (m : ℝ) scaled (2 ^ width * t)]
  exact ⟨hend (by push_cast; simp), hend (by push_cast; simp)⟩

theorem IsAround.mono {x : Interval} {t δ ε : ℝ} (h : x.IsAround t δ) (hle : δ ≤ ε) : x.IsAround t ε :=
  ⟨h.1.trans hle, h.2.trans hle⟩

theorem least_cases (x y : Binary) : x.least y = x ∨ x.least y = y := by
  unfold Binary.least
  split <;> simp

theorem greatest_cases (x y : Binary) : x.greatest y = x ∨ x.greatest y = y := by
  unfold Binary.greatest
  split <;> simp

theorem abs_round_sub_le (direction : Direction) (bits : Nat) {x : Binary} {t δ : ℝ} (h : |x.value - t| ≤ δ) :
    |(x.round direction bits).value - t| ≤ δ + roundoff bits * (|t| + δ) := by
  have hround := Binary.round_isNear direction bits x
  unfold IsNear at hround
  have hvalue : |x.value| ≤ |t| + δ := by linarith [abs_sub_abs_le_abs_sub x.value t]
  have hbound : roundoff bits * |x.value| ≤ roundoff bits * (|t| + δ) :=
    mul_le_mul_of_nonneg_left hvalue (roundoff_pos bits).le
  linarith [abs_sub_le (x.round direction bits).value x.value t]

/-- A multiple of an interval. -/
theorem IsAround.mul_ofInt {x : Interval} {t δ : ℝ} (h : x.IsAround t δ) (bits : Nat) (m : Int) :
    (x.mul bits (ofInt m)).IsAround (t * m) (δ * |(m : ℝ)| + roundoff bits * (|t * m| + δ * |(m : ℝ)|)) := by
  have hδ : 0 ≤ δ := (abs_nonneg _).trans h.1
  have hscaled {z : Binary} (hz : |z.value - t| ≤ δ) : |z.value * m - t * m| ≤ δ * |(m : ℝ)| := by
    rw [← sub_mul, abs_mul]
    exact mul_le_mul_of_nonneg_right hz (abs_nonneg _)
  have hlower := hscaled h.1
  have hupper := hscaled h.2
  have hgrow : δ * |(m : ℝ)| ≤ δ * |(m : ℝ)| + roundoff bits * (|t * m| + δ * |(m : ℝ)|) := by
    have hoff := roundoff_pos bits
    have hnonneg : 0 ≤ |t * m| + δ * |(m : ℝ)| := by positivity
    linarith [mul_nonneg hoff.le hnonneg]
  unfold mul
  by_cases hzero : (x.isZero || (ofInt m).isZero) = true
  · -- an exact zero is near the product because one of the factors is
    rw [if_pos hzero]
    have hproduct : |0 - t * m| ≤ δ * |(m : ℝ)| := by
      rw [Bool.or_eq_true, isZero, isZero, Bool.and_eq_true, Bool.and_eq_true] at hzero
      rcases hzero with hzero | hzero
      · rw [Binary.isZero_iff.mp hzero.1, zero_mul] at hlower
        exact hlower
      · have hm : (m : ℝ) = 0 := by simpa [ofInt, point, Binary.value_ofInt] using Binary.isZero_iff.mp hzero.1
        simp [hm]
    have hvalue : |Binary.zero.value - t * m| ≤ δ * |(m : ℝ)| := by rwa [Binary.value_zero]
    exact ⟨hvalue.trans hgrow, hvalue.trans hgrow⟩
  · rw [if_neg hzero]
    have hends {z : Binary} (hz : z = x.lower.mul (.ofInt m) ∨ z = x.upper.mul (.ofInt m)) :
        |z.value - t * m| ≤ δ * |(m : ℝ)| := by
      rcases hz with rfl | rfl <;> rwa [Binary.value_mul, Binary.value_ofInt]
    constructor
    · apply abs_round_sub_le
      apply hends
      rcases least_cases ((x.lower.mul (.ofInt m)).least (x.lower.mul (.ofInt m)))
          ((x.upper.mul (.ofInt m)).least (x.upper.mul (.ofInt m))) with h | h <;>
        simp only [ofInt, point, h] <;>
        [rcases least_cases (x.lower.mul (.ofInt m)) (x.lower.mul (.ofInt m)) with h | h;
          rcases least_cases (x.upper.mul (.ofInt m)) (x.upper.mul (.ofInt m)) with h | h] <;>
        simp [h]
    · apply abs_round_sub_le
      apply hends
      rcases greatest_cases ((x.lower.mul (.ofInt m)).greatest (x.lower.mul (.ofInt m)))
          ((x.upper.mul (.ofInt m)).greatest (x.upper.mul (.ofInt m))) with h | h <;>
        simp only [ofInt, point, h] <;>
        [rcases greatest_cases (x.lower.mul (.ofInt m)) (x.lower.mul (.ofInt m)) with h | h;
          rcases greatest_cases (x.upper.mul (.ofInt m)) (x.upper.mul (.ofInt m)) with h | h] <;>
        simp [h]

theorem IsAround.add {x y : Interval} {t u δ ε : ℝ} (hx : x.IsAround t δ) (hy : y.IsAround u ε) (bits : Nat) :
    (x.add bits y).IsAround (t + u) (δ + ε + 2 * roundoff bits * (|t| + |u| + δ + ε)) := by
  have hsum (direction : Direction) {a b : Binary} (ha : |a.value - t| ≤ δ) (hb : |b.value - u| ≤ ε) :
      |(a.addRounded direction bits b).value - (t + u)| ≤ δ + ε + 2 * roundoff bits * (|t| + |u| + δ + ε) := by
    have hrounded := Binary.addRounded_near direction bits a b
    have habs : |a.value| + |b.value| ≤ |t| + |u| + δ + ε := by
      linarith [abs_sub_abs_le_abs_sub a.value t, abs_sub_abs_le_abs_sub b.value u]
    have hbound := mul_le_mul_of_nonneg_left habs (mul_nonneg zero_le_two (roundoff_pos bits).le)
    have hexact : |a.value + b.value - (t + u)| ≤ δ + ε := by
      rw [add_sub_add_comm]
      exact (abs_add_le _ _).trans (add_le_add ha hb)
    linarith [abs_sub_le (a.addRounded direction bits b).value (a.value + b.value) (t + u)]
  exact ⟨hsum .down hx.1 hy.1, hsum .up hx.2 hy.2⟩

/-! ### Logarithms of whole numbers -/

/-- The power of two that a whole number is compared with is not far from it. -/
theorem shift_bounds {n shift : Nat} (hn : 2 ≤ n)
    (hshift : shift = if n * 2 < 3 * 2 ^ (bitLength n - 1) then bitLength n - 1 else bitLength n) :
    1 ≤ shift ∧ 3 * 2 ^ shift ≤ 4 * n ∧ 2 * n ≤ 3 * 2 ^ shift := by
  have hupper := lt_two_pow_bitLength n
  have hlower := two_pow_le_of_pos (by omega : 0 < n)
  have hlength : 2 ≤ bitLength n := by
    by_contra hlt
    have hpower : 2 ^ bitLength n ≤ 2 ^ 1 := Nat.pow_le_pow_right two_pos (by omega)
    omega
  have hdouble : 2 ^ bitLength n = 2 * 2 ^ (bitLength n - 1) := by
    rw [← pow_succ', Nat.sub_add_cancel (by omega)]
  rw [hshift]
  split_ifs <;> omega

/-- A whole number is a power of two times the quotient of a sum and a difference. -/
theorem log_eq_artanh {n : Nat} (hn : 0 < n) (shift : Nat) :
    log n = shift * log 2 + 2 * artanh (((n : ℝ) - 2 ^ shift) / (n + 2 ^ shift)) := by
  have hpower : (0 : ℝ) < 2 ^ shift := by positivity
  have hpositive : (0 : ℝ) < n := by exact_mod_cast hn
  have hsum : (0 : ℝ) < n + 2 ^ shift := by positivity
  have hquotient : (1 + ((n : ℝ) - 2 ^ shift) / (n + 2 ^ shift)) / (1 - ((n : ℝ) - 2 ^ shift) / (n + 2 ^ shift)) =
      n / 2 ^ shift := by
    field_simp
    ring
  have hbounds : ((n : ℝ) - 2 ^ shift) / (n + 2 ^ shift) ∈ Set.Icc (-1) 1 :=
    ⟨by rw [le_div_iff₀ hsum]; linarith, by rw [div_le_one hsum]; linarith⟩
  rw [artanh_eq_half_log hbounds, hquotient, log_div hpositive.ne' hpower.ne', Real.log_pow]
  ring

/-- The quotient of the sum and the difference is small. -/
theorem abs_ratio_le {n shift : Nat} (hn : 0 < n) (hshift : 3 * 2 ^ shift ≤ 4 * n ∧ 2 * n ≤ 3 * 2 ^ shift) :
    |((n : ℝ) - 2 ^ shift) / (n + 2 ^ shift)| ≤ 1 / 4 := by
  have hpositive : (0 : ℝ) < n + 2 ^ shift := by
    have hcount : (0 : ℝ) < n := by exact_mod_cast hn
    positivity
  have hlower : 3 * (2 : ℝ) ^ shift ≤ 4 * n := by exact_mod_cast hshift.1
  have hupper : 2 * (n : ℝ) ≤ 3 * 2 ^ shift := by exact_mod_cast hshift.2
  rw [abs_div, abs_of_pos hpositive, div_le_iff₀ hpositive, abs_le]
  constructor <;> linarith

/-- The scaled logarithm of a whole number over a power of two. -/
def logRatioFixed (width n shift : Nat) : Int :=
  let guard := bitLength width + 8
  let ratio := Int.fdiv (((n : Int) - ((2 ^ shift : Nat) : Int)) * ((2 ^ (width + guard) : Nat) : Int))
    ((n : Int) + ((2 ^ shift : Nat) : Int))
  Int.fdiv (2 * logPoint.go (width + guard) (mulFixed (width + guard) ratio ratio) (width + guard + 2) ratio 1 0)
    ((2 ^ guard : Nat) : Int)

/-- The enclosure of the logarithm of the quotient near one. -/
theorem isAround_logRatio (width : Nat) {n shift : Nat} (hn : 0 < n)
    (hshift : 3 * 2 ^ shift ≤ 4 * n ∧ 2 * n ≤ 3 * 2 ^ shift) :
    (ofFixed width (logRatioFixed width n shift) 4).IsAround (2 * artanh (((n : ℝ) - 2 ^ shift) / (n + 2 ^ shift)))
      (6 / 2 ^ width) := by
  unfold logRatioFixed
  obtain ⟨guard, hguard⟩ : ∃ guard, guard = bitLength width + 8 := ⟨_, rfl⟩
  obtain ⟨ratio, hratio⟩ : ∃ ratio, ratio = Int.fdiv (((n : Int) - ((2 ^ shift : Nat) : Int)) *
      ((2 ^ (width + guard) : Nat) : Int)) ((n : Int) + ((2 ^ shift : Nat) : Int)) := ⟨_, rfl⟩
  obtain ⟨square, hsquare⟩ : ∃ square, square = mulFixed (width + guard) ratio ratio := ⟨_, rfl⟩
  simp only [← hguard, ← hratio, ← hsquare]
  have hbits : (width : ℝ) + 1 ≤ 2 ^ bitLength width := by exact_mod_cast lt_two_pow_bitLength width
  have hlength : (bitLength width : ℝ) ≤ width := by exact_mod_cast bitLength_le_self width
  obtain ⟨r, hr⟩ : ∃ r : ℝ, r = ((n : ℝ) - 2 ^ shift) / (n + 2 ^ shift) := ⟨_, rfl⟩
  have hsmall : |r| ≤ 1 / 4 := hr ▸ abs_ratio_le hn hshift
  have hw : 4 ≤ width + guard := by omega
  have hscaled : |(ratio : ℝ) - 2 ^ (width + guard) * r| ≤ 1 := by
    have hcut := abs_fdiv_sub_le (((n : Int) - ((2 ^ shift : Nat) : Int)) * ((2 ^ (width + guard) : Nat) : Int))
      (b := (n : Int) + ((2 ^ shift : Nat) : Int)) (by positivity)
    have hsame : 2 ^ (width + guard) * r =
        ((((n : Int) - ((2 ^ shift : Nat) : Int)) * ((2 ^ (width + guard) : Nat) : Int) : Int) : ℝ) /
          (((n : Int) + ((2 ^ shift : Nat) : Int) : Int) : ℝ) := by
      rw [hr]
      push_cast
      ring
    rw [hsame, hratio]
    exact hcut
  have hsquared : |(square : ℝ) - 2 ^ (width + guard) * r ^ 2| ≤ 2 := hsquare ▸ abs_square_sub_le hw hsmall hscaled
  have hrun := abs_logPoint_go_sub_le hw hsmall hsquared (width + guard + 2) 0
    (by simpa using hscaled.trans one_le_two : |(ratio : ℝ) - 2 ^ (width + guard) * r ^ (2 * 0 + 1)| ≤ 2) (by omega) 0
  rw [artanhTail_zero, Int.cast_zero, zero_add, mul_zero, zero_add] at hrun
  rw [← hr]
  have htotal : |((2 * logPoint.go (width + guard) square (width + guard + 2) ratio 1 0 : Int) : ℝ) -
      2 ^ (width + guard) * (2 * artanh r)| ≤ 6 * (width + guard) + 26 := by
    push_cast at hrun ⊢
    rw [abs_le] at hrun ⊢
    constructor <;> linarith [hrun.1, hrun.2]
  have hcut := abs_cut_guard_sub_le htotal (by
    have hvalue : (guard : ℝ) = bitLength width + 8 := by rw [hguard]; push_cast; rfl
    rw [hguard, pow_add]
    push_cast
    linarith)
  have hends := isAround_ofFixed hcut 4
  norm_num at hends
  exact hends

/-- The logarithm of a whole number and that of the power of two near it. -/
theorem shift_mul_log_two_bounds {n shift : Nat} (hn : 2 ≤ n) (hshift : 3 * 2 ^ shift ≤ 4 * n ∧ 2 * n ≤ 3 * 2 ^ shift) :
    (2 / 3 : ℝ) ≤ log n ∧ |shift * log 2 - log n| ≤ 1 / 2 := by
  have hpositive : (0 : ℝ) < n := by exact_mod_cast (by omega : 0 < n)
  have hpower : (0 : ℝ) < 2 ^ shift := by positivity
  have hlower : 3 * (2 : ℝ) ^ shift ≤ 4 * n := by exact_mod_cast hshift.1
  have hupper : 2 * (n : ℝ) ≤ 3 * 2 ^ shift := by exact_mod_cast hshift.2
  have habove : log (2 ^ shift / n) ≤ 2 ^ shift / n - 1 := log_le_sub_one_of_pos (by positivity)
  have hbelow : log (n / 2 ^ shift) ≤ n / 2 ^ shift - 1 := log_le_sub_one_of_pos (by positivity)
  have hquotient : (2 : ℝ) ^ shift / n ≤ 4 / 3 := by rw [div_le_div_iff₀ hpositive (by norm_num)]; linarith
  have hquotient' : (n : ℝ) / 2 ^ shift ≤ 3 / 2 := by rw [div_le_div_iff₀ hpower (by norm_num)]; linarith
  rw [log_div hpower.ne' hpositive.ne', Real.log_pow] at habove
  rw [log_div hpositive.ne' hpower.ne', Real.log_pow] at hbelow
  constructor
  · have hmono : log 2 ≤ log n := log_le_log two_pos (by exact_mod_cast hn)
    linarith [log_two_gt_d9]
  · rw [abs_le]
    constructor <;> linarith

theorem logPoint_ofInt (bits : Nat) {n shift : Nat} (hn : 2 ≤ n)
    (hshift : shift = if n * 2 < 3 * 2 ^ (bitLength n - 1) then bitLength n - 1 else bitLength n) :
    logPoint bits (.ofInt n) =
      if n = 2 ^ shift then (ofFixed (bits + 8) (ln2Fixed (bits + 8)) 1).mul bits (ofInt shift)
      else
        ((ofFixed (bits + 12 + bitLength shift) (ln2Fixed (bits + 12 + bitLength shift)) 1).mul (bits + 8)
          (ofInt shift)).add (bits + 8) (ofFixed (bits + 12) (logRatioFixed (bits + 12) n shift) 4) := by
  have hone := (shift_bounds hn hshift).1
  have hdistance : (n : Int) - ((2 ^ shift : Nat) : Int) = 0 ↔ n = 2 ^ shift := by omega
  have hpositive : n ≠ 0 := by omega
  have hcount : shift ≠ 0 := by omega
  unfold logPoint Binary.ofInt
  simp only [Int.natAbs_natCast, hpositive, if_false, ← hshift, zero_add, hdistance, Int.natCast_eq_zero, hcount,
    Nat.add_zero]
  rfl

/-- The unit of the last bit. -/
theorem unit_bounds (bits : Nat) : (0 : ℝ) < 1 / 2 ^ bits ∧ (1 : ℝ) / 2 ^ bits ≤ 1 :=
  ⟨by positivity, div_le_one_of_le₀ (one_le_pow₀ one_le_two) (by positivity)⟩

/-- The enclosure of the logarithm of a power of two. -/
theorem isAround_logPower (bits shift : Nat) :
    ((ofFixed (bits + 8) (ln2Fixed (bits + 8)) 1).mul bits (ofInt shift)).IsAround (log 2 * shift)
      (3 / 2 ^ bits * (log 2 * shift)) := by
  obtain ⟨hupos, hule⟩ := unit_bounds bits
  have hproduct := (isAround_ofFixed (abs_ln2Fixed_sub_le (by omega : 1 ≤ bits + 8)) 1).mul_ofInt bits shift
  obtain ⟨e, he⟩ : ∃ e : ℝ, e = (2 + (1 : Nat)) / 2 ^ (bits + 8) * |((shift : Int) : ℝ)| := ⟨_, rfl⟩
  obtain ⟨A, hA⟩ : ∃ A : ℝ, A = log 2 * shift := ⟨_, rfl⟩
  have hAnonneg : 0 ≤ A := by rw [hA]; positivity
  have hhalf : roundoff bits = 2 * (1 / 2 ^ bits) := by rw [roundoff]; ring
  have hrule : (3 : ℝ) / 2 ^ bits * A = 3 * (1 / 2 ^ bits * A) := by ring
  have hfirst : e = 3 / 256 * (1 / 2 ^ bits) * shift := by
    rw [he, pow_add, Int.cast_natCast, abs_of_nonneg (Nat.cast_nonneg shift)]
    push_cast
    ring
  rw [← he, hhalf, Int.cast_natCast, ← hA, abs_of_nonneg hAnonneg] at hproduct
  rw [← hA, hrule]
  refine hproduct.mono ?_
  generalize (1 : ℝ) / 2 ^ bits = u at hupos hule hfirst ⊢
  have hle : e ≤ 9 / 512 * (u * A) := by
    have hshift : (shift : ℝ) ≤ 3 / 2 * A := by
      have hcount : (0 : ℝ) ≤ shift := Nat.cast_nonneg shift
      rw [hA]
      nlinarith [log_two_gt_d9]
    calc e = 3 / 256 * u * shift := hfirst
      _ ≤ 3 / 256 * u * (3 / 2 * A) := mul_le_mul_of_nonneg_left hshift (by positivity)
      _ = 9 / 512 * (u * A) := by ring
  have hsecond : u * e ≤ 9 / 512 * (u * A) := by
    calc u * e ≤ 1 * (9 / 512 * (u * A)) := mul_le_mul hule hle (by rw [hfirst]; positivity) zero_le_one
      _ = 9 / 512 * (u * A) := one_mul _
  nlinarith [mul_nonneg hupos.le hAnonneg]

/-- With guard bits for the factor, a multiple of the logarithm of two. -/
theorem isAround_logMultiple (bits shift : Nat) :
    ((ofFixed (bits + 12 + bitLength shift) (ln2Fixed (bits + 12 + bitLength shift)) 1).mul (bits + 8)
      (ofInt shift)).IsAround (log 2 * shift)
        (1 / 2 ^ bits / 1000 + 1 / 2 ^ bits / 128 * (log 2 * shift + 1 / 2 ^ bits / 1000)) := by
  have hproduct := (isAround_ofFixed (abs_ln2Fixed_sub_le (by omega : 1 ≤ bits + 12 + bitLength shift)) 1).mul_ofInt
    (bits + 8) shift
  obtain ⟨e, he⟩ : ∃ e : ℝ, e = (2 + (1 : Nat)) / 2 ^ (bits + 12 + bitLength shift) * |((shift : Int) : ℝ)| := ⟨_, rfl⟩
  have hnonneg : 0 ≤ log 2 * shift := by positivity
  have hnarrow : roundoff (bits + 8) = 1 / 2 ^ bits / 128 := by rw [roundoff, pow_add]; ring
  have hle : e ≤ 1 / 2 ^ bits / 1000 := by
    have hlength : (shift : ℝ) ≤ 2 ^ bitLength shift := by exact_mod_cast (lt_two_pow_bitLength shift).le
    calc e = 3 / 4096 * (1 / 2 ^ bits) * (shift / 2 ^ bitLength shift) := by
          rw [he, pow_add, pow_add, Int.cast_natCast, abs_of_nonneg (Nat.cast_nonneg shift)]
          push_cast
          field_simp
          ring
      _ ≤ 3 / 4096 * (1 / 2 ^ bits) * 1 := by
          gcongr
          exact div_le_one_of_le₀ hlength (by positivity)
      _ ≤ 1 / 2 ^ bits / 1000 := by linarith [(unit_bounds bits).1]
  rw [← he, hnarrow, Int.cast_natCast, abs_of_nonneg hnonneg] at hproduct
  refine hproduct.mono ?_
  gcongr

/-- Both ends of the enclosure of the logarithm of a whole number are right to `bits` bits but for two. -/
theorem isAround_logPoint (bits : Nat) {n : Nat} (hn : 2 ≤ n) :
    (logPoint bits (.ofInt n)).IsAround (log n) (3 / 2 ^ bits * log n) := by
  obtain ⟨shift, hdef⟩ : ∃ shift, shift = if n * 2 < 3 * 2 ^ (bitLength n - 1) then bitLength n - 1 else bitLength n :=
    ⟨_, rfl⟩
  obtain ⟨-, hbounds⟩ := shift_bounds hn hdef
  rw [logPoint_ofInt bits hn hdef]
  split_ifs with hpower
  · have hwhole : log n = log 2 * shift := by
      rw [hpower]
      push_cast
      rw [Real.log_pow, mul_comm]
    rw [hwhole]
    exact isAround_logPower bits shift
  · obtain ⟨hleast, hclose⟩ := shift_mul_log_two_bounds hn hbounds
    have hsplit := log_eq_artanh (by omega : 0 < n) shift
    have hsum := (isAround_logMultiple bits shift).add
      (isAround_logRatio (bits + 12) (by omega : 0 < n) hbounds) (bits + 8)
    have hnarrow : roundoff (bits + 8) = 1 / 2 ^ bits / 128 := by rw [roundoff, pow_add]; ring
    have hrest : (6 : ℝ) / 2 ^ (bits + 12) = 6 / 4096 * (1 / 2 ^ bits) := by rw [pow_add]; ring
    have hrule : (3 : ℝ) / 2 ^ bits * log n = 3 * (1 / 2 ^ bits * log n) := by ring
    -- the multiple of the logarithm of two, and the rest
    have hnonneg : 0 ≤ log 2 * shift := by positivity
    rw [mul_comm (shift : ℝ)] at hclose hsplit
    rw [hnarrow, hrest, abs_of_nonneg hnonneg, ← hsplit] at hsum
    rw [hrule]
    refine hsum.mono ?_
    obtain ⟨hupos, hule⟩ := unit_bounds bits
    generalize (1 : ℝ) / 2 ^ bits = u at hupos hule ⊢
    generalize log 2 * shift = A at hclose hsplit hnonneg ⊢
    generalize 2 * artanh (((n : ℝ) - 2 ^ shift) / (n + 2 ^ shift)) = B at hsplit ⊢
    rw [abs_le] at hclose
    have hB : |B| ≤ 1 / 2 := abs_le.mpr ⟨by linarith, by linarith⟩
    have hfirst : u / 128 * (A + u / 1000) ≤ u / 128 * (log n + 1) :=
      mul_le_mul_of_nonneg_left (by linarith) (by positivity)
    have hsecond : 2 * (u / 128) * (A + |B| + (u / 1000 + u / 128 * (A + u / 1000)) + 6 / 4096 * u) ≤
        2 * (u / 128) * (2 * log n + 2) := by
      have hscaled : u / 128 * (log n + 1) ≤ 1 / 128 * (log n + 1) :=
        mul_le_mul_of_nonneg_right (by linarith) (by linarith)
      exact mul_le_mul_of_nonneg_left (by linarith) (by positivity)
    have hunit : u * (2 / 3) ≤ u * log n := mul_le_mul_of_nonneg_left hleast hupos.le
    linarith

/-! ### The number picked from an interval -/

theorem abs_pick_sub_le (bits : Nat) {x : Interval} {t δ : ℝ} (h : x.IsAround t δ) :
    |(x.pick bits).value - t| ≤ δ + 2 * roundoff bits * (|t| + δ) := by
  have hoff := roundoff_pos bits
  have hδ : 0 ≤ δ := (abs_nonneg _).trans h.1
  have hsize : 0 ≤ |t| + δ := by positivity
  unfold pick
  dsimp only
  split_ifs with hsame
  · have hround := abs_round_sub_le .nearest bits h.1
    linarith [mul_nonneg hoff.le hsize]
  · have hle : roundoff bits ≤ 2 := by
      unfold roundoff
      exact div_le_self zero_le_two (one_le_pow₀ one_le_two)
    have hnarrow : roundoff (bits + 8) = roundoff bits / 256 := by
      rw [roundoff, roundoff, pow_add]
      ring
    have hsum := Binary.addRounded_near .nearest (bits + 8) x.lower x.upper
    rw [hnarrow] at hsum
    have hmiddle : |((x.lower.addRounded .nearest (bits + 8) x.upper).scale (-1)).value - t| ≤
        δ + roundoff bits / 128 * (|t| + δ) := by
      have habs : |x.lower.value| + |x.upper.value| ≤ 2 * (|t| + δ) := by
        linarith [abs_sub_abs_le_abs_sub x.lower.value t, abs_sub_abs_le_abs_sub x.upper.value t, h.1, h.2]
      have hbound := mul_le_mul_of_nonneg_left habs (by positivity : 0 ≤ 2 * (roundoff bits / 256))
      rw [Binary.value_scale, zpow_neg_one]
      have hlower := abs_le.mp h.1
      have hupper := abs_le.mp h.2
      rw [abs_le] at hsum ⊢
      constructor <;> linarith [hsum.1, hsum.2]
    have hround := abs_round_sub_le .nearest bits hmiddle
    have hsquare : roundoff bits * (roundoff bits / 128 * (|t| + δ)) ≤ 2 * (roundoff bits / 128 * (|t| + δ)) :=
      mul_le_mul_of_nonneg_right hle (by positivity)
    linarith [mul_nonneg hoff.le hsize]

/-- The logarithm of a whole number, picked from its enclosure. -/
theorem exists_log?_ofInt (bits keep : Nat) {n : Nat} (hn : 2 ≤ n) :
    ∃ x, (ofInt n).log? bits = some x ∧
      IsNear (3 / 2 ^ bits + 2 * roundoff keep * (1 + 3 / 2 ^ bits)) (x.pick keep).value (log n) := by
  have hpositive : (ofInt n).isPositive = true := by
    simp only [isPositive, ofInt, point, Binary.sign, Binary.ofInt, decide_eq_true_eq, Int.sign_pos_iff]
    omega
  have hlog : 0 ≤ log n := log_natCast_nonneg n
  have hpick := abs_pick_sub_le keep (isAround_logPoint bits hn)
  refine ⟨_, by rw [log?, if_pos hpositive], ?_⟩
  unfold IsNear
  rw [abs_of_nonneg hlog] at hpick ⊢
  calc _ ≤ _ := hpick
    _ = _ := by ring

end Interval

end Reckoner.Number
