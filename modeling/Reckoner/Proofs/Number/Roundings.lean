import Mathlib.Algebra.Order.Field.Basic
import Mathlib.Algebra.Order.Field.Rat
import Mathlib.Data.Int.Log
import Mathlib.Data.Rat.Floor
import Mathlib.Tactic.FieldSimp
import Mathlib.Tactic.Linarith
import Mathlib.Tactic.Ring
import Reckoner.Number.Rounding

/-!
# Roundings to significant digits

Every way to cut quotients of naturals to naturals gives a rounding of rationals to a number of digits in any base.  If
the cut keeps the order of quotients and leaves naturals alone, then the rounding keeps the order and the signs of
rationals, does not care where the point stands, and leaves numbers with few digits alone.
-/

namespace Reckoner.Number

/-! ### Cuts -/

/-- A cut of quotients to naturals keeps their order and leaves naturals alone. -/
structure IsCut (cut : Nat → Nat → Nat) : Prop where
  mono {n d n' d' : Nat} (hd : 0 < d) (hd' : 0 < d') (h : n * d' ≤ n' * d) : cut n d ≤ cut n' d'
  whole (n : Nat) : cut n 1 = n

theorem isCut_div : IsCut (· / ·) where
  mono {n d n' d'} hd hd' h := by
    rw [Nat.le_div_iff_mul_le hd']
    refine Nat.le_of_mul_le_mul_right ?_ hd
    calc n / d * d' * d = n / d * d * d' := by ring
      _ ≤ n * d' := Nat.mul_le_mul_right d' (Nat.div_mul_le_self n d)
      _ ≤ n' * d := h
  whole := Nat.div_one

theorem isCut_divHalfUp : IsCut divHalfUp where
  mono {n d n' d'} hd hd' h := by
    refine isCut_div.mono (by omega) (by omega) ?_
    calc (2 * n + d) * (2 * d') = 4 * (n * d') + 2 * (d * d') := by ring
      _ ≤ 4 * (n' * d) + 2 * (d * d') := by omega
      _ = (2 * n' + d') * (2 * d) := by ring
  whole n := by
    unfold divHalfUp
    omega

theorem divHalfEven_bounds (n d : Nat) : n / d ≤ divHalfEven n d ∧ divHalfEven n d ≤ n / d + 1 := by
  unfold divHalfEven
  dsimp only
  split_ifs <;> omega

theorem isCut_divHalfEven : IsCut divHalfEven where
  mono {n d n' d'} hd hd' h := by
    have hquotient : n / d ≤ n' / d' := isCut_div.mono hd hd' h
    rcases hquotient.lt_or_eq with hlt | heq
    · exact (divHalfEven_bounds n d).2.trans (hlt.trans_le (divHalfEven_bounds n' d').1)
    · -- with equal whole parts, the remainders decide
      have hremainder : n % d * d' ≤ n' % d' * d := by
        rw [← Nat.div_add_mod n d, ← Nat.div_add_mod n' d', heq] at h
        have hcommon : d * (n' / d') * d' = d' * (n' / d') * d := by ring
        rw [Nat.add_mul, Nat.add_mul] at h
        omega
      have hless (hup : d < 2 * (n % d)) : d' < 2 * (n' % d') := by
        suffices d' * d < 2 * (n' % d') * d from Nat.lt_of_mul_lt_mul_right this
        calc d' * d = d * d' := Nat.mul_comm _ _
          _ < 2 * (n % d) * d' := Nat.mul_lt_mul_of_pos_right hup hd'
          _ = 2 * (n % d * d') := Nat.mul_assoc _ _ _
          _ ≤ 2 * (n' % d' * d) := Nat.mul_le_mul_left 2 hremainder
          _ = 2 * (n' % d') * d := (Nat.mul_assoc _ _ _).symm
      have hleast (htie : d ≤ 2 * (n % d)) : d' ≤ 2 * (n' % d') := by
        suffices d' * d ≤ 2 * (n' % d') * d from Nat.le_of_mul_le_mul_right this hd
        calc d' * d = d * d' := Nat.mul_comm _ _
          _ ≤ 2 * (n % d) * d' := Nat.mul_le_mul_right d' htie
          _ = 2 * (n % d * d') := Nat.mul_assoc _ _ _
          _ ≤ 2 * (n' % d' * d) := Nat.mul_le_mul_left 2 hremainder
          _ = 2 * (n' % d') * d := (Nat.mul_assoc _ _ _).symm
      unfold divHalfEven
      dsimp only
      rw [heq]
      split_ifs <;> omega
  whole n := by
    unfold divHalfEven
    simp [Nat.mod_one]

/-! ### Cut sizes -/

/-- The size of a rational, cut to a natural. -/
def cutSize (cut : Nat → Nat → Nat) (q : ℚ) : Nat := cut q.num.natAbs q.den

theorem natAbs_num_div_den (q : ℚ) : (q.num.natAbs : ℚ) / q.den = |q| := by
  have hden : (0 : ℚ) < q.den := by exact_mod_cast q.den_pos
  have hquotient : q = q.num / q.den := (Rat.num_div_den q).symm
  conv_rhs => rw [hquotient, abs_div, abs_of_pos hden]
  rw [Nat.cast_natAbs, Int.cast_abs]

section Sizes

variable {cut : Nat → Nat → Nat} {q r : ℚ} {n d : Nat}

theorem IsCut.eq_of_quotient_eq (hcut : IsCut cut) {n' d' : Nat} (hd : 0 < d) (hd' : 0 < d')
    (h : (n : ℚ) / d = n' / d') : cut n d = cut n' d' := by
  rw [div_eq_div_iff (by positivity) (by positivity)] at h
  have hcross : n * d' = n' * d := by exact_mod_cast h
  exact le_antisymm (hcut.mono hd hd' hcross.le) (hcut.mono hd' hd hcross.ge)

theorem IsCut.cutSize_eq (hcut : IsCut cut) (hd : 0 < d) (h : |q| = n / d) : cutSize cut q = cut n d :=
  hcut.eq_of_quotient_eq q.den_pos hd ((natAbs_num_div_den q).trans h)

theorem IsCut.cutSize_mono (hcut : IsCut cut) (h : |q| ≤ |r|) : cutSize cut q ≤ cutSize cut r := by
  refine hcut.mono q.den_pos r.den_pos ?_
  rw [← natAbs_num_div_den, ← natAbs_num_div_den, div_le_div_iff₀ (by exact_mod_cast q.den_pos)
    (by exact_mod_cast r.den_pos)] at h
  exact_mod_cast h

theorem IsCut.cutSize_natCast (hcut : IsCut cut) (m : Nat) : cutSize cut m = m := by
  rw [hcut.cutSize_eq Nat.one_pos (n := m) (by simp), hcut.whole]

theorem cutSize_neg (q : ℚ) : cutSize cut (-q) = cutSize cut q := by simp [cutSize]

end Sizes

/-! ### Roundings -/

/-- The place of the last of the significant digits that are kept of a number. -/
def lastKept (base digits : Nat) (q : ℚ) : Int := Int.log base |q| + 1 - digits

/-- A number rounded to significant digits in a base, by a cut. -/
def keep (cut : Nat → Nat → Nat) (base digits : Nat) (q : ℚ) : ℚ :=
  (if q < 0 then -1 else 1) * (cutSize cut (q / base ^ lastKept base digits q) * base ^ lastKept base digits q)

section Roundings

variable {cut : Nat → Nat → Nat} {base digits : Nat} {q r : ℚ} {e : Int}

/-- The exponent of a power that a number reaches, if it does not reach the next one. -/
theorem log_eq (hbase : 1 < base) (hlower : (base : ℚ) ^ e ≤ q) (hupper : q < (base : ℚ) ^ (e + 1)) :
    Int.log base q = e := by
  have hpositive : 0 < q := (zpow_pos (by exact_mod_cast (by omega : 0 < base)) e).trans_le hlower
  have hle := (Int.zpow_le_iff_le_log hbase hpositive).mp hlower
  have hlt := (Int.lt_zpow_iff_log_lt hbase hpositive).mp hupper
  omega

theorem lastKept_neg (q : ℚ) : lastKept base digits (-q) = lastKept base digits q := by simp [lastKept]

theorem keep_neg (hcut : IsCut cut) (q : ℚ) : keep cut base digits (-q) = -keep cut base digits q := by
  rcases lt_trichotomy q 0 with hq | rfl | hq
  · have hpositive : ¬ -q < 0 := by linarith
    simp only [keep, lastKept_neg, neg_div, cutSize_neg, hq, hpositive, if_true, if_false]
    ring
  · have hzero : cutSize cut 0 = 0 := by exact_mod_cast hcut.cutSize_natCast 0
    simp [keep, hzero]
  · have hpositive : ¬ q < 0 := by linarith
    have hnegative : -q < 0 := by linarith
    simp only [keep, lastKept_neg, neg_div, cutSize_neg, hpositive, hnegative, if_true, if_false]
    ring

theorem keep_of_pos (hq : 0 < q) : keep cut base digits q =
    cutSize cut (q / base ^ lastKept base digits q) * base ^ lastKept base digits q := by
  rw [keep, if_neg hq.not_gt, one_mul]

theorem keep_zero (hcut : IsCut cut) : keep cut base digits 0 = 0 := by
  have hneg : keep cut base digits (-0) = -keep cut base digits 0 := keep_neg hcut 0
  rw [neg_zero] at hneg
  linarith

variable (hcut : IsCut cut) (hbase : 1 < base)

include hbase in
/-- In units of its last place, a number has as many digits as are kept. -/
theorem scaled_bounds (digits : Nat) (hq : 0 < q) :
    (base : ℚ) ^ ((digits : Int) - 1) ≤ q / base ^ lastKept base digits q ∧
      q / base ^ lastKept base digits q < (base : ℚ) ^ (digits : Int) := by
  have hpositive : (0 : ℚ) < base := by exact_mod_cast (by omega : 0 < base)
  have hunit : (0 : ℚ) < (base : ℚ) ^ lastKept base digits q := zpow_pos hpositive _
  have hlower := Int.zpow_log_le_self hbase hq
  have hupper := Int.lt_zpow_succ_log_self hbase q
  rw [le_div_iff₀ hunit, div_lt_iff₀ hunit, ← zpow_add₀ hpositive.ne', ← zpow_add₀ hpositive.ne', lastKept,
    abs_of_pos hq]
  constructor
  · convert hlower using 2
    ring
  · convert hupper using 2
    ring

include hcut hbase in
/-- A rounded number does not leave the two powers of the base that the number lies between. -/
theorem keep_bounds (hdigits : 1 ≤ digits) (hq : 0 < q) :
    (base : ℚ) ^ Int.log base q ≤ keep cut base digits q ∧
      keep cut base digits q ≤ (base : ℚ) ^ (Int.log base q + 1) := by
  have hpositive : (0 : ℚ) < base := by exact_mod_cast (by omega : 0 < base)
  have hunit : (0 : ℚ) < (base : ℚ) ^ lastKept base digits q := zpow_pos hpositive _
  obtain ⟨hlower, hupper⟩ := scaled_bounds hbase digits hq
  have hscaled : 0 ≤ q / base ^ lastKept base digits q := (div_pos hq hunit).le
  have hleast : ((base ^ (digits - 1) : Nat) : ℚ) ≤ q / base ^ lastKept base digits q := by
    rw [Nat.cast_pow, ← zpow_natCast, Nat.cast_sub hdigits]
    exact_mod_cast hlower
  have hmost : q / base ^ lastKept base digits q ≤ ((base ^ digits : Nat) : ℚ) := by
    rw [Nat.cast_pow, ← zpow_natCast]
    exact hupper.le
  have hfloor : base ^ (digits - 1) ≤ cutSize cut (q / base ^ lastKept base digits q) := by
    conv_lhs => rw [← hcut.cutSize_natCast (base ^ (digits - 1))]
    apply hcut.cutSize_mono
    rwa [abs_of_nonneg (Nat.cast_nonneg _), abs_of_nonneg hscaled]
  have hceil : cutSize cut (q / base ^ lastKept base digits q) ≤ base ^ digits := by
    conv_rhs => rw [← hcut.cutSize_natCast (base ^ digits)]
    apply hcut.cutSize_mono
    rwa [abs_of_nonneg hscaled, abs_of_nonneg (Nat.cast_nonneg _)]
  rw [keep_of_pos hq]
  constructor
  · calc (base : ℚ) ^ Int.log base q = ((base ^ (digits - 1) : Nat) : ℚ) * base ^ lastKept base digits q := by
          rw [Nat.cast_pow, ← zpow_natCast, Nat.cast_sub hdigits, ← zpow_add₀ hpositive.ne', lastKept, abs_of_pos hq]
          congr 1
          push_cast
          ring
      _ ≤ _ := mul_le_mul_of_nonneg_right (by exact_mod_cast hfloor) hunit.le
  · calc _ ≤ ((base ^ digits : Nat) : ℚ) * base ^ lastKept base digits q :=
          mul_le_mul_of_nonneg_right (by exact_mod_cast hceil) hunit.le
      _ = (base : ℚ) ^ (Int.log base q + 1) := by
          rw [Nat.cast_pow, ← zpow_natCast, ← zpow_add₀ hpositive.ne', lastKept, abs_of_pos hq]
          congr 1
          ring

include hcut hbase in
theorem keep_pos (hdigits : 1 ≤ digits) (hq : 0 < q) : 0 < keep cut base digits q :=
  (zpow_pos (by exact_mod_cast (by omega : 0 < base)) _).trans_le (keep_bounds hcut hbase hdigits hq).1

include hcut hbase in
theorem keep_le_keep_of_pos (hdigits : 1 ≤ digits) (hq : 0 < q) (h : q ≤ r) :
    keep cut base digits q ≤ keep cut base digits r := by
  have hpositive : (0 : ℚ) < base := by exact_mod_cast (by omega : 0 < base)
  have hr : 0 < r := hq.trans_le h
  rcases (Int.log_mono_right (b := base) hq h).lt_or_eq with hlt | heq
  · calc keep cut base digits q ≤ (base : ℚ) ^ (Int.log base q + 1) := (keep_bounds hcut hbase hdigits hq).2
      _ ≤ (base : ℚ) ^ Int.log base r := zpow_le_zpow_right₀ (by exact_mod_cast hbase.le) hlt
      _ ≤ keep cut base digits r := (keep_bounds hcut hbase hdigits hr).1
  · have hplace : lastKept base digits q = lastKept base digits r := by
      rw [lastKept, lastKept, abs_of_pos hq, abs_of_pos hr, heq]
    have hunit : (0 : ℚ) < (base : ℚ) ^ lastKept base digits r := zpow_pos hpositive _
    rw [keep_of_pos hq, keep_of_pos hr, hplace]
    refine mul_le_mul_of_nonneg_right ?_ hunit.le
    have hsize : cutSize cut (q / base ^ lastKept base digits r) ≤ cutSize cut (r / base ^ lastKept base digits r) := by
      apply hcut.cutSize_mono
      rw [abs_of_pos (div_pos hq hunit), abs_of_pos (div_pos hr hunit)]
      exact div_le_div_of_nonneg_right h hunit.le
    exact_mod_cast hsize

include hcut hbase in
/-- A rounding to significant digits keeps the order of numbers. -/
theorem monotone_keep (hdigits : 1 ≤ digits) : Monotone (keep cut base digits) := by
  intro q r h
  rcases lt_trichotomy q 0 with hq | rfl | hq
  · have hneg : keep cut base digits (-q) = -keep cut base digits q := keep_neg hcut q
    have hsize := keep_pos hcut hbase hdigits (neg_pos.mpr hq)
    rcases lt_trichotomy r 0 with hr | rfl | hr
    · have hle := keep_le_keep_of_pos hcut hbase hdigits (neg_pos.mpr hr) (neg_le_neg h)
      rw [keep_neg hcut, keep_neg hcut] at hle
      linarith
    · rw [keep_zero hcut]
      linarith
    · have hpos := keep_pos hcut hbase hdigits hr
      linarith
  · rw [keep_zero hcut]
    rcases h.lt_or_eq with hr | rfl
    · exact (keep_pos hcut hbase hdigits hr).le
    · rw [keep_zero hcut]
  · exact keep_le_keep_of_pos hcut hbase hdigits hq h

include hcut hbase in
/-- A rounding does not care where the point stands. -/
theorem keep_mul_zpow (digits : Nat) (q : ℚ) (e : Int) :
    keep cut base digits (q * base ^ e) = keep cut base digits q * base ^ e := by
  have hpositive : (0 : ℚ) < base := by exact_mod_cast (by omega : 0 < base)
  have hunit : (0 : ℚ) < (base : ℚ) ^ e := zpow_pos hpositive e
  have hsign : q * base ^ e < 0 ↔ q < 0 := by rw [mul_neg_iff]; simp [hunit, hunit.not_gt]
  by_cases hq : q = 0
  · rw [hq, zero_mul, keep_zero hcut, zero_mul]
  · have hlower := Int.zpow_log_le_self hbase (abs_pos.mpr hq)
    have hupper := Int.lt_zpow_succ_log_self hbase |q|
    have hlog : Int.log base |q * base ^ e| = Int.log base |q| + e := by
      rw [abs_mul, abs_of_pos hunit]
      apply log_eq hbase
      · rw [zpow_add₀ hpositive.ne']
        exact mul_le_mul_of_nonneg_right hlower hunit.le
      · rw [add_right_comm, zpow_add₀ hpositive.ne']
        exact mul_lt_mul_of_pos_right hupper hunit
    have hplace : lastKept base digits (q * base ^ e) = lastKept base digits q + e := by
      rw [lastKept, lastKept, hlog]
      ring
    have hscaled : q * base ^ e / base ^ (lastKept base digits q + e) = q / base ^ lastKept base digits q := by
      rw [zpow_add₀ hpositive.ne', mul_div_mul_right _ _ hunit.ne']
    simp only [keep, hplace, hscaled, hsign]
    rw [zpow_add₀ hpositive.ne']
    ring

include hcut hbase in
/-- What is kept of a number that is given as a quotient, in units of the last place. -/
theorem keep_eq {n d : Nat} {u : Int} (hd : 0 < d) (hlower : (base : ℚ) ^ ((digits : Int) - 1) ≤ n / d)
    (hupper : (n : ℚ) / d < base ^ (digits : Int)) : keep cut base digits (n / d * base ^ u) = cut n d * base ^ u := by
  have hpositive : (0 : ℚ) < base := by exact_mod_cast (by omega : 0 < base)
  have hquotient : 0 < (n : ℚ) / d := (zpow_pos hpositive _).trans_le hlower
  have hlog : Int.log base ((n : ℚ) / d) = digits - 1 := log_eq hbase hlower (by rwa [sub_add_cancel])
  have hplace : lastKept base digits ((n : ℚ) / d) = 0 := by
    rw [lastKept, abs_of_pos hquotient, hlog]
    ring
  rw [keep_mul_zpow hcut hbase, keep_of_pos hquotient, hplace, zpow_zero, div_one, mul_one,
    hcut.cutSize_eq hd (abs_of_pos hquotient)]

include hcut hbase in
/-- Nothing changes a number that has as few digits as are kept. -/
theorem keep_of_short {m : Nat} (h : |q| = m * base ^ e) (hshort : m < base ^ digits) : keep cut base digits q = q := by
  have hpositive : (0 : ℚ) < base := by exact_mod_cast (by omega : 0 < base)
  wlog hq : 0 < q generalizing q with hsigned
  · rcases (not_lt.mp hq).lt_or_eq with hneg | rfl
    · have hkept := hsigned (q := -q) (by rwa [abs_neg]) (neg_pos.mpr hneg)
      rw [keep_neg hcut] at hkept
      linarith
    · exact keep_zero hcut
  · rw [abs_of_pos hq] at h
    have hupper : q < (base : ℚ) ^ ((digits : Int) + e) := by
      rw [h, zpow_add₀ hpositive.ne', zpow_natCast]
      exact mul_lt_mul_of_pos_right (by exact_mod_cast hshort) (zpow_pos hpositive e)
    have hle : lastKept base digits q ≤ e := by
      have hlog := (Int.lt_zpow_iff_log_lt hbase hq).mp hupper
      rw [lastKept, abs_of_pos hq]
      omega
    rw [keep_of_pos hq]
    generalize lastKept base digits q = u at hle ⊢
    obtain ⟨k, hk⟩ := Int.eq_ofNat_of_zero_le (sub_nonneg.mpr hle)
    have hscaled : q / base ^ u = ((m * base ^ k : Nat) : ℚ) := by
      rw [h, mul_div_assoc, ← zpow_sub₀ hpositive.ne', hk, zpow_natCast]
      push_cast
      rfl
    rw [hscaled, hcut.cutSize_natCast, ← hscaled, div_mul_cancel₀ _ (zpow_pos hpositive u).ne']

end Roundings

end Reckoner.Number
