import Reckoner.Proofs.Number.Logarithm

/-!
# Powers of ten from intervals

The power of an interval is computed by squaring.  Each of its ends is then wrong by no more than two roundings for every
factor may cause, and so is the number that is picked from it.
-/

namespace Reckoner.Number

/-! ### Errors of many roundings -/

/-- The part of a number by which `count` roundings to `bits` may change it. -/
noncomputable def drift (bits count : Nat) : ℝ := (1 + roundoff bits) ^ count - 1

section Drift

variable {bits a b : Nat} {w x y z : ℝ}

theorem drift_zero (bits : Nat) : drift bits 0 = 0 := by simp [drift]

theorem drift_one (bits : Nat) : drift bits 1 = roundoff bits := by simp [drift]

theorem drift_add (bits a b : Nat) : drift bits (a + b) = drift bits a + drift bits b + drift bits b * drift bits a := by
  simp only [drift, pow_add]
  ring

theorem one_le_one_add_roundoff (bits : Nat) : 1 ≤ 1 + roundoff bits := by linarith [roundoff_pos bits]

theorem drift_nonneg (bits count : Nat) : 0 ≤ drift bits count :=
  sub_nonneg.mpr (one_le_pow₀ (one_le_one_add_roundoff bits))

theorem drift_mono (bits : Nat) (h : a ≤ b) : drift bits a ≤ drift bits b :=
  sub_le_sub_right (pow_le_pow_right₀ (one_le_one_add_roundoff bits) h) 1

/-- As long as they are small, errors add up at most twice. -/
theorem drift_le {count : Nat} (h : 2 * count * roundoff bits ≤ 1) : drift bits count ≤ 2 * count * roundoff bits := by
  induction count with
  | zero => simp [drift_zero]
  | succ count ih =>
    have hpos := roundoff_pos bits
    push_cast at h ⊢
    have hle := ih (by nlinarith)
    have hcross : roundoff bits * drift bits count ≤ roundoff bits * 1 :=
      mul_le_mul_of_nonneg_left (by nlinarith) hpos.le
    rw [drift_add, drift_one]
    linarith

theorem IsNear.mul_drift (hy : IsNear (drift bits a) y x) (hw : IsNear (drift bits b) w z) :
    IsNear (drift bits (a + b)) (y * w) (x * z) := by
  rw [drift_add]
  exact hy.mul (drift_nonneg bits b) hw

theorem IsNear.round_drift {u : Binary} (h : IsNear (drift bits a) u.value x) (direction : Direction) :
    IsNear (drift bits (a + 1)) (u.round direction bits).value x := by
  rw [drift_add, drift_one]
  exact h.trans (roundoff_pos bits).le (Binary.round_isNear direction bits u)

end Drift

/-! ### Intervals -/

namespace Interval

variable {bits a b : Nat} {x y : Interval} {t u : ℝ}

/-- Both ends of an interval differ from a number by no more than `count` roundings may cause. -/
def IsWithin (bits count : Nat) (x : Interval) (t : ℝ) : Prop :=
  IsNear (drift bits count) x.lower.value t ∧ IsNear (drift bits count) x.upper.value t

theorem isWithin_point (bits : Nat) (x : Binary) : (point x).IsWithin bits 0 x.value :=
  ⟨.refl (drift_nonneg bits 0) _, .refl (drift_nonneg bits 0) _⟩

theorem IsWithin.mono (h : x.IsWithin bits a t) (hle : a ≤ b) : x.IsWithin bits b t :=
  ⟨h.1.mono (drift_mono bits hle), h.2.mono (drift_mono bits hle)⟩

/-- An interval close to a positive number contains positive numbers only. -/
theorem IsWithin.pos (h : x.IsWithin bits a t) (hsmall : drift bits a < 1) (ht : 0 < t) :
    0 < x.lower.value ∧ 0 < x.upper.value := by
  have hleast : 0 < (1 - drift bits a) * t := mul_pos (by linarith) ht
  exact ⟨hleast.trans_le (h.1.lower ht.le), hleast.trans_le (h.2.lower ht.le)⟩

theorem abs_of_pos (h : 0 < x.lower.value) : x.abs = x := by
  have hmantissa : 0 ≤ x.lower.mantissa := by
    by_contra hneg
    have hvalue : x.lower.value ≤ 0 :=
      mul_nonpos_of_nonpos_of_nonneg (by exact_mod_cast (not_le.mp hneg).le) (by positivity)
    linarith
  have hsign : 0 ≤ x.lower.sign := Int.sign_nonneg_iff.mpr hmantissa
  rw [abs, if_pos hsign]

theorem IsWithin.mul (hx : x.IsWithin bits a t) (hy : y.IsWithin bits b u) (hxpos : 0 < x.lower.value)
    (hypos : 0 < y.lower.value) : (x.mul bits y).IsWithin bits (a + b + 1) (t * u) := by
  have hxzero : ¬ x.isZero := by
    simp only [isZero, Bool.and_eq_true, not_and]
    exact fun hzero => absurd (Binary.isZero_iff.mp hzero) hxpos.ne'
  have hyzero : ¬ y.isZero := by
    simp only [isZero, Bool.and_eq_true, not_and]
    exact fun hzero => absurd (Binary.isZero_iff.mp hzero) hypos.ne'
  -- each product of two ends is close, whichever of them the extremes are
  have hproduct {p q : Binary} (hp : IsNear (drift bits a) p.value t) (hq : IsNear (drift bits b) q.value u) :
      IsNear (drift bits (a + b)) (p.mul q).value (t * u) := by
    rw [Binary.value_mul]
    exact hp.mul_drift hq
  have hll := hproduct hx.1 hy.1
  have hlu := hproduct hx.1 hy.2
  have hul := hproduct hx.2 hy.1
  have huu := hproduct hx.2 hy.2
  have hleast {p q : Binary} (hp : IsNear (drift bits (a + b)) p.value (t * u))
      (hq : IsNear (drift bits (a + b)) q.value (t * u)) : IsNear (drift bits (a + b)) (p.least q).value (t * u) := by
    rcases least_cases p q with h | h <;> rwa [h]
  have hgreatest {p q : Binary} (hp : IsNear (drift bits (a + b)) p.value (t * u))
      (hq : IsNear (drift bits (a + b)) q.value (t * u)) : IsNear (drift bits (a + b)) (p.greatest q).value (t * u) := by
    rcases greatest_cases p q with h | h <;> rwa [h]
  simp only [Interval.mul, hxzero, hyzero, Bool.or_self, Bool.false_eq_true, if_false]
  exact ⟨(hleast (hleast hll hlu) (hleast hul huu)).round_drift .down,
    (hgreatest (hgreatest hll hlu) (hgreatest hul huu)).round_drift .up⟩

/-- A power is wrong by no more than two roundings for each factor but the first may cause. -/
theorem isWithin_pow {m : Int} (hm : 0 < m) {n : Nat} (hsmall : drift bits (2 * n - 2) < 1) :
    (pow bits (ofInt m) n).IsWithin bits (2 * n - 2) ((m : ℝ) ^ n) := by
  have hbase : (ofInt m).IsWithin bits 0 m := by
    have h := isWithin_point bits (.ofInt m)
    rwa [Binary.value_ofInt] at h
  have hreal : (0 : ℝ) < m := by exact_mod_cast hm
  induction n using Nat.strong_induction_on with
  | _ n ih =>
    -- the square of the power with half the exponent
    have hsquare (hn : 2 ≤ n) : 0 < (mul bits (pow bits (ofInt m) (n / 2)).abs (pow bits (ofInt m) (n / 2)).abs).lower.value ∧
        (mul bits (pow bits (ofInt m) (n / 2)).abs (pow bits (ofInt m) (n / 2)).abs).IsWithin bits
          (2 * (2 * (n / 2) - 2) + 1) ((m : ℝ) ^ (2 * (n / 2))) := by
      have hfew : drift bits (2 * (n / 2) - 2) < 1 := (drift_mono bits (by omega)).trans_lt hsmall
      have hroot := ih (n / 2) (by omega) hfew
      have hpos := (hroot.pos hfew (by positivity)).1
      have hsquare := hroot.mul hroot hpos hpos
      rw [← pow_add, ← two_mul, ← two_mul] at hsquare
      rw [abs_of_pos hpos]
      exact ⟨(hsquare.pos ((drift_mono bits (by omega)).trans_lt hsmall) (by positivity)).1, hsquare⟩
    rw [pow]
    dsimp only
    split_ifs with hzero heven hone
    · rw [hzero, pow_zero]
      have h := isWithin_point bits (.ofInt 1)
      rwa [Binary.value_ofInt, Int.cast_one] at h
    · have heq : 2 * (n / 2) = n := by omega
      have h := (hsquare (by omega)).2
      rw [heq] at h
      exact h.mono (by omega)
    · rw [hone, pow_one]
      exact hbase
    · have heq : 2 * (n / 2) + 1 = n := by omega
      obtain ⟨hpos, h⟩ := hsquare (by omega)
      have hproduct := h.mul hbase hpos (by rwa [ofInt, point, Binary.value_ofInt])
      rw [← pow_succ, heq] at hproduct
      exact hproduct.mono (by omega)

/-- The number that is picked from an interval is wrong by two roundings more. -/
theorem IsWithin.pick (h : x.IsWithin bits a t) : IsNear (drift bits (a + 2)) (x.pick bits).value t := by
  have haround : x.IsAround t (drift bits a * |t|) := h
  have hpick := abs_pick_sub_le bits haround
  refine hpick.trans ?_
  have hpos := roundoff_pos bits
  have hdrift := drift_nonneg bits a
  have htwo : drift bits 2 = 2 * roundoff bits + roundoff bits * roundoff bits := by
    rw [drift]
    ring
  calc drift bits a * |t| + 2 * roundoff bits * (|t| + drift bits a * |t|) =
        (drift bits a + 2 * roundoff bits + 2 * roundoff bits * drift bits a) * |t| := by ring
    _ ≤ drift bits (a + 2) * |t| := by
        refine mul_le_mul_of_nonneg_right ?_ (abs_nonneg t)
        rw [drift_add, htwo]
        nlinarith [mul_nonneg hpos.le hpos.le, mul_nonneg (mul_nonneg hpos.le hpos.le) hdrift]

end Interval

end Reckoner.Number
