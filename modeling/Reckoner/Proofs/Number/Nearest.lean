import Mathlib.Algebra.Order.Field.Power
import Reckoner.Proofs.Number.Roundings

/-!
# The nearest decimal

What is kept of a number when it is cut half up to decimal digits is the nearest number that has so few digits, and of
two numbers that are equally near, the greater in size.  Where the rounding passes from one such number to the next, it
does so at a tie.
-/

namespace Reckoner.Number

/-! ### Numbers with few digits -/

/-- A number that has no more than some significant decimal digits. -/
def IsShort (digits : Nat) (a : ℚ) : Prop := ∃ (m : Nat) (e : Int), m < 10 ^ digits ∧ |a| = m * 10 ^ e

/-- The number with few digits that is nearest to a number, ties going away from zero. -/
structure IsHalfUp (digits : Nat) (v a : ℚ) : Prop where
  short : IsShort digits a
  nearest (b : ℚ) (hb : IsShort digits b) : |v - a| ≤ |v - b|
  away (b : ℚ) (hb : IsShort digits b) (h : |v - a| = |v - b|) : |b| ≤ |a|

section Short

variable {digits : Nat} {a b v : ℚ} {u : Int}

theorem isShort_zero (digits : Nat) : IsShort digits 0 := ⟨0, 0, by positivity, by simp⟩

theorem IsShort.neg (h : IsShort digits a) : IsShort digits (-a) := by rwa [IsShort, abs_neg]

theorem IsHalfUp.neg (h : IsHalfUp digits v a) : IsHalfUp digits (-v) (-a) where
  short := h.short.neg
  nearest b hb := by
    have hnearest := h.nearest (-b) hb.neg
    rw [← abs_neg (-v - -a), ← abs_neg (-v - b)]
    ring_nf at hnearest ⊢
    exact hnearest
  away b hb heq := by
    have haway := h.away (-b) hb.neg
    rw [← abs_neg (-v - -a), ← abs_neg (-v - b)] at heq
    rw [abs_neg] at haway ⊢
    apply haway
    ring_nf at heq ⊢
    exact heq

theorem isHalfUp_neg : IsHalfUp digits (-v) (-a) ↔ IsHalfUp digits v a :=
  ⟨fun h => by simpa only [neg_neg] using h.neg, IsHalfUp.neg⟩

/-- There is only one nearest number. -/
theorem IsHalfUp.unique (ha : IsHalfUp digits v a) (hb : IsHalfUp digits v b) : a = b := by
  have hdistance : |v - a| = |v - b| := le_antisymm (ha.nearest b hb.short) (hb.nearest a ha.short)
  have hsize : |a| = |b| := le_antisymm (hb.away a ha.short hdistance.symm) (ha.away b hb.short hdistance)
  rcases abs_eq_abs.mp hsize with heq | hopposite
  · exact heq
  · -- opposite numbers are equally near to zero only, which is near to itself
    have hzero := ha.nearest 0 (isShort_zero digits)
    rcases abs_eq_abs.mp hdistance with h | h
    · linarith
    · have hv : v = 0 := by linarith
      rw [hv, zero_sub, sub_zero, abs_neg, abs_zero] at hzero
      have ha : a = 0 := abs_nonpos_iff.mp hzero
      linarith

/-- A number with few digits is a multiple of a unit, or it is below the units with as many digits. -/
theorem IsShort.cases (hb : IsShort digits b) (u : Int) :
    (∃ j : Int, b = j * 10 ^ u) ∨ |b| < 10 ^ ((digits : Int) - 1) * 10 ^ u := by
  obtain ⟨m, e, hm, hsize⟩ := hb
  rcases le_or_gt u e with hle | hlt
  · left
    obtain ⟨k, hk⟩ := Int.eq_ofNat_of_zero_le (sub_nonneg.mpr hle)
    have hexponent : e = k + u := by omega
    have hmultiple : |b| = ((m * 10 ^ k : Nat) : Int) * 10 ^ u := by
      rw [hsize, hexponent, zpow_add₀ (by norm_num), zpow_natCast]
      push_cast
      ring
    rcases abs_choice b with h | h
    · exact ⟨_, h.symm.trans hmultiple⟩
    · refine ⟨-((m * 10 ^ k : Nat) : Int), ?_⟩
      rw [h] at hmultiple
      push_cast at hmultiple ⊢
      linarith
  · right
    have hcoefficient : (m : ℚ) < 10 ^ digits := by exact_mod_cast hm
    calc |b| = m * 10 ^ e := hsize
      _ < 10 ^ digits * 10 ^ e := mul_lt_mul_of_pos_right hcoefficient (by positivity)
      _ = 10 ^ ((digits : Int) + e) := by rw [zpow_add₀ (by norm_num), zpow_natCast]
      _ ≤ 10 ^ ((digits : Int) - 1 + u) := zpow_le_zpow_right₀ (by norm_num) (by omega)
      _ = 10 ^ ((digits : Int) - 1) * 10 ^ u := zpow_add₀ (by norm_num) _ _

end Short

/-! ### Cutting half up -/

section HalfUp

variable {digits : Nat} {q v w : ℚ}

theorem cutSize_divHalfUp_bounds (hq : 0 ≤ q) :
    (cutSize divHalfUp q : ℚ) ≤ q + 1 / 2 ∧ q + 1 / 2 < cutSize divHalfUp q + 1 := by
  have hden : (0 : ℚ) < q.den := by exact_mod_cast q.den_pos
  have hquotient : (q.num.natAbs : ℚ) = q * q.den := by
    rw [eq_comm, ← eq_div_iff hden.ne', natAbs_num_div_den, abs_of_nonneg hq]
  have hlower : cutSize divHalfUp q * (2 * q.den) ≤ 2 * q.num.natAbs + q.den := Nat.div_mul_le_self _ _
  have hupper : 2 * q.num.natAbs + q.den < (cutSize divHalfUp q + 1) * (2 * q.den) :=
    (Nat.lt_mul_div_succ _ (Nat.mul_pos two_pos q.den_pos)).trans_eq (mul_comm _ _)
  have hlower' : (cutSize divHalfUp q : ℚ) * (2 * q.den) ≤ 2 * q.num.natAbs + q.den := by exact_mod_cast hlower
  have hupper' : 2 * (q.num.natAbs : ℚ) + q.den < (cutSize divHalfUp q + 1) * (2 * q.den) := by exact_mod_cast hupper
  rw [hquotient] at hlower' hupper'
  constructor <;> nlinarith

/-- A positive number in units of its last place, and the whole number of units that is kept. -/
theorem exists_units (hv : 0 < v) : ∃ (u : Int) (t : ℚ) (c : Nat), v = t * 10 ^ u ∧
    keep divHalfUp 10 digits v = c * 10 ^ u ∧ 10 ^ ((digits : Int) - 1) ≤ t ∧ t < 10 ^ (digits : Int) ∧
      (c : ℚ) ≤ t + 1 / 2 ∧ t + 1 / 2 < c + 1 ∧ c ≤ 10 ^ digits := by
  obtain ⟨hlower, hupper⟩ := scaled_bounds (by norm_num : 1 < 10) digits hv
  have hkept : keep divHalfUp 10 digits v = _ := keep_of_pos hv
  rw [Nat.cast_ofNat] at hlower hupper hkept
  have hunit : (0 : ℚ) < 10 ^ lastKept 10 digits v := by positivity
  obtain ⟨hleast, hmost⟩ := cutSize_divHalfUp_bounds (div_pos hv hunit).le
  refine ⟨lastKept 10 digits v, v / 10 ^ lastKept 10 digits v, _, (div_mul_cancel₀ _ hunit.ne').symm, hkept, hlower, hupper,
    hleast, hmost, ?_⟩
  rw [zpow_natCast] at hupper
  have hlt : (cutSize divHalfUp (v / 10 ^ lastKept 10 digits v) : ℚ) < 10 ^ digits + 1 := by linarith
  have hlt' : cutSize divHalfUp (v / 10 ^ lastKept 10 digits v) < 10 ^ digits + 1 := by exact_mod_cast hlt
  omega

/-- What is kept of a number is wrong by at most half a unit of its last place. -/
theorem abs_keep_sub_le (v : ℚ) : |keep divHalfUp 10 digits v - v| ≤ 10 ^ (1 - (digits : Int)) / 2 * |v| := by
  wlog hv : 0 < v generalizing v with hpositive
  · rcases (not_lt.mp hv).lt_or_eq with hneg | rfl
    · have hopposite := hpositive (-v) (by linarith)
      rwa [keep_neg isCut_divHalfUp, abs_neg, neg_sub_neg, abs_sub_comm] at hopposite
    · simp [keep_zero isCut_divHalfUp]
  · obtain ⟨u, t, c, rfl, hkept, hleast, -, hlower, hupper, -⟩ := @exists_units digits _ hv
    have hunit : (0 : ℚ) < 10 ^ u := by positivity
    have hcut : |(c : ℚ) - t| ≤ 1 / 2 := abs_le.mpr ⟨by linarith, by linarith⟩
    have hone : (1 : ℚ) ≤ 10 ^ (1 - (digits : Int)) * t := by
      calc (1 : ℚ) = 10 ^ (1 - (digits : Int)) * 10 ^ ((digits : Int) - 1) := by
            rw [← zpow_add₀ (by norm_num)]
            norm_num
        _ ≤ 10 ^ (1 - (digits : Int)) * t := mul_le_mul_of_nonneg_left hleast (by positivity)
    rw [hkept, ← sub_mul, abs_mul, abs_of_pos hunit, abs_of_pos hv, ← mul_assoc]
    refine mul_le_mul_of_nonneg_right ?_ hunit.le
    linarith

theorem isShort_keep (hdigits : 1 ≤ digits) (v : ℚ) : IsShort digits (keep divHalfUp 10 digits v) := by
  wlog hv : 0 < v generalizing v with hpositive
  · rcases (not_lt.mp hv).lt_or_eq with hneg | rfl
    · have hshort := (hpositive (-v) (by linarith)).neg
      rwa [keep_neg isCut_divHalfUp, neg_neg] at hshort
    · rw [keep_zero isCut_divHalfUp]
      exact isShort_zero digits
  · obtain ⟨u, t, c, -, hkept, -, -, -, -, hle⟩ := exists_units hv
    have hsize : |keep divHalfUp 10 digits v| = c * 10 ^ u := by rw [hkept, abs_of_nonneg (by positivity)]
    rcases hle.lt_or_eq with hlt | heq
    · exact ⟨c, u, hlt, hsize⟩
    · refine ⟨1, digits + u, Nat.one_lt_pow (by omega) (by norm_num), ?_⟩
      rw [hsize, heq, zpow_add₀ (by norm_num), zpow_natCast]
      push_cast
      ring

/-- Of the whole numbers, the one that a number is cut to is the nearest, and only the one below it is ever as near. -/
theorem abs_sub_le_of_cut {t : ℚ} {c : Nat} (hlower : (c : ℚ) ≤ t + 1 / 2) (hupper : t + 1 / 2 < c + 1) (j : Int) :
    |t - c| ≤ |t - j| ∧ (|t - c| = |t - j| → j = c ∨ j = c - 1) := by
  have hnear : |t - c| ≤ 1 / 2 := abs_le.mpr ⟨by linarith, by linarith⟩
  rcases lt_trichotomy j (c - 1) with hlt | rfl | hgt
  · have hle : (j : ℚ) ≤ c - 2 := by
      have hle : j ≤ c - 2 := by omega
      exact_mod_cast hle
    have hfar : 1 / 2 < |t - j| := lt_of_lt_of_le (by linarith) (le_abs_self _)
    exact ⟨by linarith, fun heq => by linarith⟩
  · refine ⟨hnear.trans ?_, fun _ => .inr rfl⟩
    push_cast
    exact le_trans (by linarith) (le_abs_self _)
  · rcases eq_or_ne j c with rfl | hne
    · exact ⟨le_rfl, fun _ => .inl rfl⟩
    · have hle : (c : ℚ) + 1 ≤ j := by
        have hle : (c : Int) + 1 ≤ j := by omega
        exact_mod_cast hle
      have hfar : 1 / 2 < |t - j| := lt_of_lt_of_le (by linarith) (neg_le_abs _)
      exact ⟨by linarith, fun heq => by linarith⟩

/-- What is kept by cutting half up is the nearest number with so few digits. -/
theorem isHalfUp_keep (hdigits : 1 ≤ digits) (v : ℚ) : IsHalfUp digits v (keep divHalfUp 10 digits v) := by
  wlog hv : 0 < v generalizing v with hpositive
  · rcases (not_lt.mp hv).lt_or_eq with hneg | rfl
    · have hopposite := (hpositive (-v) (by linarith)).neg
      rwa [keep_neg isCut_divHalfUp, neg_neg, neg_neg] at hopposite
    · rw [keep_zero isCut_divHalfUp]
      refine ⟨isShort_zero digits, fun b _ => by simp, fun b _ heq => ?_⟩
      rw [sub_zero, abs_zero, zero_sub, abs_neg] at heq
      rw [← heq, abs_zero]
  · obtain ⟨u, t, c, hnumber, hkept, hleast, -, hlower, hupper, -⟩ := exists_units hv
    have hunit : (0 : ℚ) < 10 ^ u := by positivity
    have hscale (j : ℚ) : |v - j * 10 ^ u| = |t - j| * 10 ^ u := by
      rw [hnumber, ← sub_mul, abs_mul, abs_of_pos hunit]
    -- what has a finer unit lies below the least number of whole units that the number reaches
    have hfiner {b : ℚ} (hsmall : |b| < 10 ^ ((digits : Int) - 1) * 10 ^ u) : |v - c * 10 ^ u| < |v - b| := by
      have hcast : ((10 ^ (digits - 1) : Nat) : Int) = (10 : ℚ) ^ ((digits : Int) - 1) := by
        have hplaces : (digits : Int) - 1 = ((digits - 1 : Nat) : Int) := by omega
        rw [hplaces, zpow_natCast]
        push_cast
        rfl
      have hreach : |v - c * 10 ^ u| ≤ v - 10 ^ ((digits : Int) - 1) * 10 ^ u := by
        have hnearest := (abs_sub_le_of_cut hlower hupper ((10 ^ (digits - 1) : Nat) : Int)).1
        rw [hscale, hnumber, ← sub_mul]
        rw [hcast, abs_of_nonneg (by linarith : 0 ≤ t - 10 ^ ((digits : Int) - 1))] at hnearest
        exact mul_le_mul_of_nonneg_right hnearest hunit.le
      calc |v - c * 10 ^ u| ≤ v - 10 ^ ((digits : Int) - 1) * 10 ^ u := hreach
        _ < v - b := by linarith [le_abs_self b]
        _ ≤ |v - b| := le_abs_self _
    rw [hkept]
    refine ⟨hkept ▸ isShort_keep hdigits v, fun b hb => ?_, fun b hb heq => ?_⟩
    · rcases hb.cases u with ⟨j, rfl⟩ | hsmall
      · rw [hscale, hscale]
        exact mul_le_mul_of_nonneg_right (abs_sub_le_of_cut hlower hupper j).1 hunit.le
      · exact (hfiner hsmall).le
    · rcases hb.cases u with ⟨j, rfl⟩ | hsmall
      · rw [hscale, hscale] at heq
        have hcount : 1 ≤ c := by
          have hone : (1 : ℚ) ≤ 10 ^ ((digits : Int) - 1) := one_le_zpow₀ (by norm_num) (by omega)
          have hpos : (0 : ℚ) < c := by linarith
          exact_mod_cast hpos
        have hsize : |j| ≤ c := by
          rcases (abs_sub_le_of_cut hlower hupper j).2 (mul_right_cancel₀ hunit.ne' heq) with rfl | rfl
          · simp
          · rw [abs_of_nonneg (by omega)]
            omega
        rw [abs_mul, abs_mul]
        refine mul_le_mul_of_nonneg_right ?_ (abs_nonneg _)
        rw [Nat.abs_cast]
        exact_mod_cast hsize
      · exact absurd heq (hfiner hsmall).ne

theorem isHalfUp_iff (hdigits : 1 ≤ digits) {a : ℚ} : IsHalfUp digits v a ↔ a = keep divHalfUp 10 digits v :=
  ⟨fun h => h.unique (isHalfUp_keep hdigits v), fun h => h ▸ isHalfUp_keep hdigits v⟩

end HalfUp

/-! ### Ties -/

/-- A number that lies in the middle between two neighbours among the numbers with some digits. -/
def IsTie (digits : Nat) (m : ℚ) : Prop :=
  ∃ (c : Nat) (e : Int), 10 ^ (digits - 1) ≤ c ∧ c < 10 ^ digits ∧ |m| = (c + 1 / 2) * 10 ^ e

section Ties

variable {digits c : Nat} {v w m : ℚ} {e : Int}

theorem isTie_neg : IsTie digits (-m) ↔ IsTie digits m := by rw [IsTie, IsTie, abs_neg]

theorem isTie_abs : IsTie digits |m| ↔ IsTie digits m := by rw [IsTie, IsTie, abs_abs]

/-- A tie has one digit more, which is a five. -/
theorem IsTie.exists_digits (h : IsTie digits m) : ∃ (n : Nat) (e : Int), n < 10 ^ (digits + 1) ∧ |m| = n * 10 ^ e := by
  obtain ⟨c, e, -, hupper, hsize⟩ := h
  refine ⟨10 * c + 5, e - 1, ?_, ?_⟩
  · rw [pow_succ]
    omega
  · rw [hsize, zpow_sub_one₀ (by norm_num)]
    push_cast
    ring

theorem scaled_lower (hdigits : 1 ≤ digits) (hlower : 10 ^ (digits - 1) ≤ c) : (10 : ℚ) ^ ((digits : Int) - 1) ≤ c := by
  have hplaces : (digits : Int) - 1 = ((digits - 1 : Nat) : Int) := by omega
  rw [hplaces, zpow_natCast]
  exact_mod_cast hlower

theorem scaled_upper (hupper : c < 10 ^ digits) : (c : ℚ) + 1 ≤ 10 ^ (digits : Int) := by
  rw [zpow_natCast]
  exact_mod_cast hupper

/-- A tie is rounded up. -/
theorem keep_tie (hdigits : 1 ≤ digits) (hlower : 10 ^ (digits - 1) ≤ c) (hupper : c < 10 ^ digits) (e : Int) :
    keep divHalfUp 10 digits ((c + 1 / 2) * 10 ^ e) = (c + 1) * 10 ^ e := by
  have hquotient : (c : ℚ) + 1 / 2 = (2 * c + 1 : Nat) / (2 : Nat) := by
    push_cast
    ring
  have hcut : divHalfUp (2 * c + 1) 2 = c + 1 := by
    unfold divHalfUp
    omega
  have hleast := scaled_lower hdigits hlower
  have hmost := scaled_upper hupper
  have hkept := @keep_eq _ 10 digits isCut_divHalfUp (by norm_num) _ _ e two_pos
    (by rw [← hquotient]; push_cast; linarith) (by rw [← hquotient]; push_cast; linarith)
  rw [hcut, ← hquotient] at hkept
  exact_mod_cast hkept

/-- What lies below a tie is rounded down. -/
theorem keep_le_of_lt_tie (hdigits : 1 ≤ digits) (hlower : 10 ^ (digits - 1) ≤ c) (hupper : c < 10 ^ digits) (hv : 0 < v)
    (h : v < (c + 1 / 2) * 10 ^ e) : keep divHalfUp 10 digits v ≤ c * 10 ^ e := by
  have hunit : (0 : ℚ) < 10 ^ e := by positivity
  have hshort : keep divHalfUp 10 digits (c * 10 ^ e) = c * 10 ^ e :=
    keep_of_short isCut_divHalfUp (by norm_num) (abs_of_nonneg (by positivity)) hupper
  rcases le_total v (c * 10 ^ e) with hle | hge
  · exact (monotone_keep isCut_divHalfUp (by norm_num) hdigits hle).trans_eq hshort
  · obtain ⟨q, rfl⟩ : ∃ q, v = q * 10 ^ e := ⟨v / 10 ^ e, (div_mul_cancel₀ _ hunit.ne').symm⟩
    have hleast : (c : ℚ) ≤ q := le_of_mul_le_mul_right hge hunit
    have hless : q < c + 1 / 2 := lt_of_mul_lt_mul_right h hunit.le
    have hq : 0 ≤ q := (Nat.cast_nonneg c).trans hleast
    have hquotient : (q.num.natAbs : ℚ) / q.den = q := (natAbs_num_div_den q).trans (abs_of_nonneg hq)
    have hfirst := scaled_lower hdigits hlower
    have hlast := scaled_upper hupper
    have hkept := @keep_eq _ 10 digits isCut_divHalfUp (by norm_num) _ _ e q.den_pos
      (by rw [hquotient]; push_cast; linarith) (by rw [hquotient]; push_cast; linarith)
    rw [hquotient] at hkept
    have hcut : cutSize divHalfUp q ≤ c := by
      have hlt : (cutSize divHalfUp q : ℚ) < c + 1 := by linarith [(cutSize_divHalfUp_bounds hq).1]
      have hlt' : cutSize divHalfUp q < c + 1 := by exact_mod_cast hlt
      omega
    have hle : (divHalfUp q.num.natAbs q.den : ℚ) ≤ c := by exact_mod_cast hcut
    exact hkept.trans_le (mul_le_mul_of_nonneg_right hle hunit.le)

/-- The least tie above a number, and what is kept of the number. -/
theorem exists_tie_above (hdigits : 1 ≤ digits) (hv : 0 < v) : ∃ (c : Nat) (e : Int), 10 ^ (digits - 1) ≤ c ∧
    c < 10 ^ digits ∧ keep divHalfUp 10 digits v = c * 10 ^ e ∧ v < (c + 1 / 2) * 10 ^ e := by
  obtain ⟨u, t, c, rfl, hkept, hleast, -, -, habove, hupper⟩ := @exists_units digits _ hv
  have hunit : (0 : ℚ) < 10 ^ u := by positivity
  have hlower : 10 ^ (digits - 1) ≤ c := by
    have hplaces : (digits : Int) - 1 = ((digits - 1 : Nat) : Int) := by omega
    rw [hplaces, zpow_natCast] at hleast
    have hlt : (10 : ℚ) ^ (digits - 1) < c + 1 := by linarith
    have hlt' : 10 ^ (digits - 1) < c + 1 := by exact_mod_cast hlt
    omega
  rcases hupper.lt_or_eq with hlt | heq
  · exact ⟨c, u, hlower, hlt, hkept, mul_lt_mul_of_pos_right (by linarith) hunit⟩
  · -- the rounding has carried, so the last digit that counts stands one place further left
    have hcarry : (c : ℚ) = 10 ^ (digits - 1) * 10 := by
      rw [heq, ← pow_succ, Nat.sub_add_cancel hdigits]
      push_cast
      rfl
    refine ⟨10 ^ (digits - 1), u + 1, le_rfl, Nat.pow_lt_pow_right (by norm_num) (by omega), ?_, ?_⟩
    · rw [hkept, hcarry, zpow_add_one₀ (by norm_num)]
      push_cast
      ring
    · rw [zpow_add_one₀ (by norm_num)]
      push_cast
      calc t * 10 ^ u < (c + 5) * 10 ^ u := mul_lt_mul_of_pos_right (by linarith) hunit
        _ = (10 ^ (digits - 1) + 1 / 2) * (10 ^ u * 10) := by
          rw [hcarry]
          ring

/-- Between two numbers that are rounded differently there is a tie. -/
theorem exists_tie_between (hdigits : 1 ≤ digits) (hv : 0 < v)
    (h : keep divHalfUp 10 digits v < keep divHalfUp 10 digits w) : ∃ m, IsTie digits m ∧ v < m ∧ m ≤ w := by
  obtain ⟨c, e, hlower, hupper, hkept, habove⟩ := exists_tie_above hdigits hv
  have hunit : (0 : ℚ) < 10 ^ e := by positivity
  refine ⟨(c + 1 / 2) * 10 ^ e, ⟨c, e, hlower, hupper, abs_of_pos (by positivity)⟩, habove, ?_⟩
  by_contra hless
  have hw : 0 < w := by
    by_contra hnot
    have hmono := monotone_keep isCut_divHalfUp (by norm_num : 1 < 10) hdigits ((not_lt.mp hnot).trans hv.le)
    exact absurd h (not_lt.mpr hmono)
  have hle := keep_le_of_lt_tie hdigits hlower hupper hw (not_le.mp hless)
  rw [← hkept] at hle
  exact absurd h (not_lt.mpr hle)

end Ties

end Reckoner.Number
