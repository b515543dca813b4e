import Mathlib.Analysis.SpecialFunctions.Log.Base
import Mathlib.Data.Nat.Digits.Defs
import Reckoner.Proofs.Expression.Limits
import Reckoner.Proofs.Expression.RationalSketches
import Reckoner.Proofs.Number.Logarithm

/-!
# Sizes of powers

The number of digits of a power is estimated from the decimal logarithm of the greater one of the numerator and the
denominator of its base.  A power that the estimate lets through has at most one digit more than the limit allows, above
and below the fraction bar, if its base is or becomes a rational number.  Where the base stays a root, only the magnitude
of the power is looked at, and that says nothing about its digits.
-/

namespace Reckoner.Expression

open Reckoner.Algebra Reckoner.Number

/-! ### Decimal logarithms -/

/-- The decimal logarithm is right to 51 bits. -/
theorem decimalLogarithm_isNear {n : Nat} (hn : 2 ≤ n) :
    IsNear (1 / 2 ^ 51) (decimalLogarithm n).value (Real.logb 10 n) := by
  obtain ⟨x, hx, hxNear⟩ := Interval.exists_log?_ofInt 120 110 hn
  obtain ⟨y, hy, hyNear⟩ := Interval.exists_log?_ofInt 120 110 (by decide : 2 ≤ 10)
  have hten : Real.log (10 : Nat) ≠ 0 := (Real.log_pos (by norm_num)).ne'
  have hdivisor : ¬ (y.pick 110).isZero := by
    rw [Binary.isZero_iff]
    intro hzero
    rw [hzero, IsNear, zero_sub, abs_neg, roundoff] at hyNear
    have hpositive := abs_pos.mpr hten
    norm_num at hyNear
  have hquotient := (hxNear.div (by rw [roundoff]; norm_num) hyNear hten).trans (roundoff_pos 53).le
    (Binary.divRounded_isNear .nearest 53 (x.pick 110) hdivisor)
  have hvalue : decimalLogarithm n = Binary.divRounded .nearest 53 (x.pick 110) (y.pick 110) := by
    unfold decimalLogarithm
    have hy' : (Interval.ofInt 10).log? 120 = some y := hy
    simp only [hx, hy']
  rw [hvalue, Real.logb]
  refine hquotient.mono ?_
  simp only [roundoff]
  norm_num

/-! ### The estimate -/

variable {settings : Settings}

/-- The greatest number that the estimate is taken from. -/
def partSize (q : Rat) : Nat := max q.num.natAbs (max q.den 2)

theorem two_le_partSize (q : Rat) : 2 ≤ partSize q := le_max_of_le_right (le_max_right _ _)

theorem modulus?_rational (q : Rat) : modulus? (.rational q) = some (Binary.ofRat .nearest 53 q).abs := rfl

theorem isZero_ofRat_abs {q : Rat} (hq : q ≠ 0) : (Binary.ofRat .nearest 53 q).abs.isZero = false := by
  rw [Bool.eq_false_iff, ne_eq, Binary.isZero_iff, Binary.value_abs, abs_eq_zero]
  intro hzero
  have hnear := Binary.ofRat_isNear .nearest 53 q
  rw [hzero, IsNear, zero_sub, abs_neg, roundoff] at hnear
  have hpositive : 0 < |(q : ℝ)| := abs_pos.mpr (by exact_mod_cast hq)
  norm_num at hnear
  linarith

/-- The estimated number of digits of a power of rationals. -/
theorem digits_of_powerSize? {q r : Rat} (hq : q ≠ 0) (hr : r ≠ 0) : ∃ magnitude, powerSize? (.rational q) (.rational r) =
    some (magnitude, (Binary.ofRat .nearest 53 r).abs.mulRounded .nearest 53 (decimalLogarithm (partSize q))) := by
  unfold powerSize?
  simp only [modulus?_rational, isZero_ofRat_abs hq, isZero_ofRat_abs hr, Bool.or_false, Bool.false_eq_true, if_false]
  exact ⟨_, rfl⟩

/-- The limit bounds the estimate, and so the number of digits, but for a part of `2 ^ 49`. -/
theorem logarithm_le_of_small {q r : Rat} (hq : q ≠ 0) (hr : r ≠ 0)
    (hsmall : extentOf settings false (.rational q) (.rational r) = .small) :
    (1 - 1 / 2 ^ 49) * (|(r : ℝ)| * Real.logb 10 (partSize q)) ≤ settings.maxExactDigits := by
  obtain ⟨magnitude, hsize⟩ := digits_of_powerSize? hq hr
  unfold extentOf at hsmall
  simp only [hsize, Bool.false_eq_true, if_false] at hsmall
  split_ifs at hsmall with hrange hlarge
  have hlimit := Binary.value_le_of_compare hlarge
  rw [Binary.value_ofInt] at hlimit
  have hexponent : IsNear (roundoff 53) (Binary.ofRat .nearest 53 r).abs.value |(r : ℝ)| := by
    rw [Binary.value_abs]
    exact (Binary.ofRat_isNear .nearest 53 r).abs
  have hproduct := (hexponent.mul (by positivity) (decimalLogarithm_isNear (two_le_partSize q))).trans (roundoff_pos 53).le
    (Binary.mulRounded_isNear .nearest 53 _ _)
  have hnear : IsNear (1 / 2 ^ 49) _ (|(r : ℝ)| * Real.logb 10 (partSize q)) := hproduct.mono (by
    simp only [roundoff]
    norm_num)
  refine (hnear.lower ?_).trans hlimit
  have hone : (1 : ℝ) ≤ partSize q := by exact_mod_cast (two_le_partSize q).trans' one_le_two
  exact mul_nonneg (abs_nonneg _) (Real.logb_nonneg (by norm_num) hone)

/-- The limit of digits up to which the estimate is right to one digit. -/
def sizeLimit : Int := 2 ^ 48

/-- Where the estimate is within the limit, the greatest number raised to the power has one digit more at most. -/
theorem pow_lt_of_small {q : Rat} {n : Int} (hlimit : settings.maxExactDigits ≤ sizeLimit) (hq : q ≠ 0) (hn : n ≠ 0)
    (hsmall : extentOf settings false (.rational q) (.rational n) = .small) :
    0 ≤ settings.maxExactDigits ∧ partSize q ^ n.natAbs < 10 ^ (settings.maxExactDigits.toNat + 1) := by
  have hbound := logarithm_le_of_small hq (Int.cast_ne_zero.mpr hn) hsmall
  have hone : (1 : ℝ) ≤ partSize q := by exact_mod_cast (two_le_partSize q).trans' one_le_two
  have hlog : 0 ≤ Real.logb 10 (partSize q) := Real.logb_nonneg (by norm_num) hone
  have habs : |((n : Rat) : ℝ)| = n.natAbs := by
    rw [Rat.cast_intCast, Nat.cast_natAbs, Int.cast_abs]
  rw [habs] at hbound
  have hnonneg : (0 : ℝ) ≤ settings.maxExactDigits := by
    refine le_trans ?_ hbound
    have hfactor : (0 : ℝ) ≤ 1 - 1 / 2 ^ 49 := by norm_num
    positivity
  have hdigits : 0 ≤ settings.maxExactDigits := by exact_mod_cast hnonneg
  refine ⟨hdigits, ?_⟩
  have hcast : ((settings.maxExactDigits.toNat : Nat) : ℝ) = settings.maxExactDigits := by
    exact_mod_cast congrArg (Int.cast (R := ℝ)) (Int.toNat_of_nonneg hdigits)
  have hmost : (settings.maxExactDigits : ℝ) ≤ 2 ^ 48 := by exact_mod_cast hlimit
  have hpower : Real.logb 10 ((partSize q : ℝ) ^ n.natAbs) < (settings.maxExactDigits.toNat + 1 : Nat) := by
    rw [Real.logb_pow, Nat.cast_add_one, hcast]
    have hpart : 1 / 2 ^ 49 * (2 * (settings.maxExactDigits : ℝ)) ≤ 1 := by
      norm_num at hmost ⊢
      linarith
    have hsmallPart : (1 / 2 : ℝ) ≤ 1 - 1 / 2 ^ 49 := by norm_num
    nlinarith
  rw [Real.logb_lt_iff_lt_rpow (by norm_num) (by positivity), Real.rpow_natCast] at hpower
  exact_mod_cast hpower

/-! ### Digits of powers -/

/-- Numerator and denominator of a power are powers of those of its base. -/
theorem zpow_parts_le {q : Rat} {n : Int} (hq : q ≠ 0) :
    (q ^ n).num.natAbs ≤ partSize q ^ n.natAbs ∧ (q ^ n).den ≤ partSize q ^ n.natAbs := by
  have hnum (k : Nat) : (q ^ k).num.natAbs ≤ partSize q ^ k := by
    rw [Rat.num_pow, Int.natAbs_pow]
    exact Nat.pow_le_pow_left (le_max_left _ _) k
  have hden (k : Nat) : (q ^ k).den ≤ partSize q ^ k := by
    rw [Rat.den_pow]
    exact Nat.pow_le_pow_left (le_max_of_le_right (le_max_left _ _)) k
  cases n with
  | ofNat k =>
    rw [Int.ofNat_eq_natCast, zpow_natCast, Int.natAbs_natCast]
    exact ⟨hnum k, hden k⟩
  | negSucc k =>
    have hpower : q ^ (k + 1) ≠ 0 := pow_ne_zero _ hq
    rw [zpow_negSucc, Int.natAbs_negSucc]
    constructor
    · rw [Rat.num_inv, Int.natAbs_mul, Int.natAbs_sign_of_ne_zero (Rat.num_ne_zero.mpr hpower), one_mul,
        Int.natAbs_natCast]
      exact hden (k + 1)
    · rw [Rat.den_inv_of_ne_zero hpower]
      exact hnum (k + 1)

theorem length_digitsOfNat_le {m k : Nat} (h : m < 10 ^ (k + 1)) : (digitsOfNat m).length ≤ k + 1 :=
  Nat.toDigits_length 10 m (k + 1) k.succ_pos h

/-- A small power of a rational has one digit more than the limit at most, above and below the fraction bar. -/
theorem digits_le_of_small {q : Rat} {n : Int} (hlimit : settings.maxExactDigits ≤ sizeLimit) (hpower : q ≠ 0 ∨ 0 ≤ n)
    (hsmall : extentOf settings false (.rational q) (.rational n) = .small) :
    ((digitsOfNat (q ^ n).num.natAbs).length : Int) ≤ settings.maxExactDigits + 1 ∧
      ((digitsOfNat (q ^ n).den).length : Int) ≤ settings.maxExactDigits + 1 := by
  suffices h : 0 ≤ settings.maxExactDigits ∧ (q ^ n).num.natAbs < 10 ^ (settings.maxExactDigits.toNat + 1) ∧
      (q ^ n).den < 10 ^ (settings.maxExactDigits.toNat + 1) by
    obtain ⟨hdigits, hnum, hden⟩ := h
    have hnum := length_digitsOfNat_le hnum
    have hden := length_digitsOfNat_le hden
    omega
  by_cases htrivial : q = 0 ∨ n = 0
  · -- zero and one have one digit
    have hsize : powerSize? (.rational q) (.rational n) = some (.zero, .zero) := by
      have hzero : (Binary.ofRat .nearest 53 0).abs.isZero = true := rfl
      unfold powerSize?
      rcases htrivial with rfl | rfl <;> simp [modulus?_rational, hzero]
    unfold extentOf at hsmall
    simp only [hsize, Bool.false_eq_true, if_false] at hsmall
    split_ifs at hsmall with hrange hlarge
    have hbound := Binary.value_le_of_compare hlarge
    rw [Binary.value_ofInt, Binary.value_zero] at hbound
    refine ⟨by exact_mod_cast hbound, ?_⟩
    rcases htrivial with rfl | rfl
    · rcases eq_or_ne n 0 with rfl | hne
      · simp
      · simp [zero_zpow n hne]
    · simp
  · obtain ⟨hq, hn⟩ := not_or.mp htrivial
    obtain ⟨hdigits, hsize⟩ := pow_lt_of_small hlimit hq hn hsmall
    obtain ⟨hnum, hden⟩ := zpow_parts_le (n := n) hq
    exact ⟨hdigits, hnum.trans_lt hsize, hden.trans_lt hsize⟩

/-! ### The guard -/

theorem anyLarge_false {powers : List (Term × Term)} {rounded : Bool} (h : anyLarge settings rounded powers = .ok false) :
    rounded = false ∧ Sketch.HasSmallPowers settings powers := by
  induction powers generalizing rounded with
  | nil => exact ⟨by simpa [anyLarge] using h, by simp [Sketch.HasSmallPowers]⟩
  | cons p rest ih =>
    obtain ⟨base, exponent⟩ := p
    rw [anyLarge] at h
    cases hextent : extentOf settings rounded base exponent with
    | outOfRange => simp [hextent] at h
    | large =>
      simp only [hextent] at h
      exact absurd (ih h).1 (by decide)
    | small =>
      simp only [hextent] at h
      obtain ⟨rfl, hrest⟩ := ih h
      exact ⟨rfl, List.forall_mem_cons.mpr ⟨hextent, hrest⟩⟩

/-- The rational value of a sketch: every part of it is rational, or it simplifies to a rational. -/
def Sketch.HasValue (settings : Settings) (s : Sketch) (q : Rat) : Prop :=
  s.rational? = some q ∨ s.number? settings = some (.rational q)

theorem Sketch.HasValue.number? {s : Sketch} {q : Rat} (h : s.HasValue settings q)
    (hsmall : HasSmallPowers settings (s.powers settings)) : s.number? settings = some (.rational q) := by
  rcases h with h | h
  · rw [Sketch.number?, settle_of_rational? h hsmall]
  · exact h

/-- In a sketch that need not be rounded, every power of a rational with an integer exponent has one digit more than the
    limit at most, above and below the fraction bar. -/
theorem guarded_powers_fit {s base exponent : Sketch} {q : Rat} {n : Int} (hlimit : settings.maxExactDigits ≤ sizeLimit)
    (hs : s.isMathematical) (hguard : s.needsRounding settings = .ok false) (hpart : (base, exponent) ∈ s.powerParts)
    (hbase : base.HasValue settings q) (hexponent : exponent.HasValue settings n) (hpower : q ≠ 0 ∨ 0 ≤ n) :
    ((digitsOfNat (q ^ n).num.natAbs).length : Int) ≤ settings.maxExactDigits + 1 ∧
      ((digitsOfNat (q ^ n).den).length : Int) ≤ settings.maxExactDigits + 1 := by
  rw [Sketch.needsRounding, if_pos hs] at hguard
  have hsmall := (anyLarge_false hguard).2
  obtain ⟨hinside, hself⟩ : Sketch.Examines settings (s.powers settings) base exponent :=
    Sketch.examines_of_mem_powerParts hpart
  have hbase := hbase.number? fun p hp => hsmall p (hinside p (List.mem_append_left _ hp))
  have hexponent := hexponent.number? fun p hp => hsmall p (hinside p (List.mem_append_right _ hp))
  exact digits_le_of_small hlimit hpower (hsmall _ (hself _ _ hbase hexponent))

/-- The sketch of `(sqrt(4) + 1/2)^-3`. -/
def cubeSketch : Sketch × Sketch :=
  (.sum [.power (.value (.number (.rational 4))) (.value (.number .half)),
    .product [.value (.number .one), .power (.value (.number (.rational 2))) (.value (.number .minusOne))]],
    .value (.number (.rational (-3))))

/-- The cube of two fifths has few digits. -/
theorem cube_of_root_fits :
    ((digitsOfNat ((5 / 2 : Rat) ^ (-3 : Int)).num.natAbs).length : Int) ≤ Settings.standard.maxExactDigits + 1 ∧
      ((digitsOfNat ((5 / 2 : Rat) ^ (-3 : Int)).den).length : Int) ≤ Settings.standard.maxExactDigits + 1 :=
  have hguard : (Sketch.power cubeSketch.1 cubeSketch.2).needsRounding .standard = .ok false := by decide +kernel
  have hpart : cubeSketch ∈ (Sketch.power cubeSketch.1 cubeSketch.2).powerParts := by simp [Sketch.powerParts]
  have hbase : cubeSketch.1.HasValue .standard (5 / 2) := .inl (by decide +kernel)
  have hexponent : cubeSketch.2.HasValue .standard (-3 : Int) := .inl (by decide +kernel)
  guarded_powers_fit (by decide) rfl hguard hpart hbase hexponent (.inl (by norm_num))

/-- The program's decision about a text: whether it has to be evaluated with rounded numbers. -/
def roundingOf (settings : Settings) (scope : Scope) (text : List Char) : Except Failure Bool :=
  match readProgram scope true text with
  | .ok (.expression f) => (f.sketch settings scope).bind (·.needsRounding settings)
  | .ok _ => .error .evaluation
  | .error f => .error f

/-- A power of a root escapes: its value is the rational `(101/100)^5002` with 10005 digits below the fraction bar, yet
    it need not be rounded and is computed exactly.  The same power of the rational itself is rounded. -/
theorem root_escapes_the_guard :
    roundingOf .standard [] "sqrt(1.01)^10004".toList = .ok false ∧
      (evaluateExpression .standard [] "sqrt(1.01)^10004".toList).answer =
        .ok (.numeric (.rational ((101 / 100) ^ 5002))) ∧
      Real.sqrt ((101 / 100 : Rat) : ℝ) ^ 10004 = (((101 / 100) ^ 5002 : Rat) : ℝ) ∧
      Settings.standard.maxExactDigits + 1 < (digitsOfNat ((101 / 100 : Rat) ^ 5002).den).length ∧
      roundingOf .standard [] "1.01^5002".toList = .ok true := by
  refine ⟨by decide +kernel, ?_, ?_, by decide +kernel, by decide +kernel⟩
  · have hexact : (evaluateExpression .standard [] "sqrt(1.01)^10004".toList).answer.toOption.any
        (Answer.isRational ((101 / 100) ^ 5002)) := by
      decide +kernel
    obtain ⟨answer, hanswer, hexact⟩ := exists_answer_of_any hexact
    unfold Answer.isRational at hexact
    split at hexact
    · rw [hanswer, of_decide_eq_true hexact]
    · cases hexact
  · have hsquare : Real.sqrt ((101 / 100 : Rat) : ℝ) ^ 2 = ((101 / 100 : Rat) : ℝ) :=
      Real.sq_sqrt (by positivity)
    calc Real.sqrt ((101 / 100 : Rat) : ℝ) ^ 10004 = (Real.sqrt ((101 / 100 : Rat) : ℝ) ^ 2) ^ 5002 := by rw [← pow_mul]
      _ = (((101 / 100) ^ 5002 : Rat) : ℝ) := by rw [hsquare, Rat.cast_pow]

end Reckoner.Expression
