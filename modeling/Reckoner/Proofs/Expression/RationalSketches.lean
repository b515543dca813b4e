import Mathlib.Data.Rat.Sqrt
import Mathlib.Tactic.IntervalCases
import Mathlib.Tactic.Linarith
import Reckoner.Proofs.Expression.Sketches

/-!
# Exact values of sketches

A sketch of sums, products, integer powers and square roots may have an exact rational value in every part.  Then it
settles to that value, provided that no power in it is large.
-/

namespace Reckoner.Algebra

open Reckoner.Number

/-! ### Roots of squares -/

theorem two_mul_le_add_div (root : Nat) {guess : Nat} (hguess : 0 < guess) : 2 * root ≤ guess + root ^ 2 / guess := by
  have hmean : (2 * root - guess) * guess ≤ root ^ 2 := by
    obtain hle | hle := Nat.le_total (2 * root) guess
    · rw [Nat.sub_eq_zero_of_le hle, Nat.zero_mul]
      exact Nat.zero_le _
    · obtain ⟨rest, hrest⟩ := Nat.exists_eq_add_of_le hle
      rw [hrest, Nat.add_sub_cancel_left]
      have hsquare := two_mul_le_add_sq rest guess
      nlinarith
  have hquotient := (Nat.le_div_iff_mul_le hguess).mpr hmean
  omega

/-- From above, the iteration reaches the root of a square. -/
theorem rootFloor_go_sq {root guess : Nat} (hroot : 0 < root) (hguess : root ≤ guess) :
    rootFloor.go 2 (root ^ 2) guess = root := by
  induction guess using Nat.strongRecOn with
  | ind guess ih =>
    have hmean := two_mul_le_add_div root (by omega : 0 < guess)
    rw [rootFloor.go]
    simp only [Nat.reduceSub, one_mul, pow_one]
    split_ifs with hnext
    · exact ih _ hnext (by omega)
    · -- a guess above the root is followed by a smaller one
      by_contra hne
      have hlt : root ^ 2 / guess < guess := by
        rw [Nat.div_lt_iff_lt_mul (by omega)]
        nlinarith [Nat.lt_of_le_of_ne hguess (Ne.symm hne)]
      omega

theorem exactRoot?_sq (root : Nat) : exactRoot? 2 (root ^ 2) = some root := by
  have hfloor : rootFloor 2 (root ^ 2) = root := by
    unfold rootFloor
    split_ifs with hsmall hlength
    · have hle : root ≤ 1 := by nlinarith [hsmall.resolve_right (by decide)]
      interval_cases root <;> rfl
    · have hlt := lt_two_pow_bitLength (root ^ 2)
      have hpower : 2 ^ bitLength (root ^ 2) ≤ 2 ^ 2 := Nat.pow_le_pow_right two_pos hlength
      have hle : root ≤ 1 := by nlinarith
      interval_cases root <;> simp at hsmall
    · refine rootFloor_go_sq (Nat.pos_of_ne_zero fun hzero => hsmall (.inl (by simp [hzero]))) ?_
      by_contra hlt
      have hbound := lt_two_pow_bitLength (root ^ 2)
      have hpower : 2 ^ bitLength (root ^ 2) ≤ (2 ^ ((bitLength (root ^ 2) + 2 - 1) / 2)) ^ 2 := by
        rw [← pow_mul]
        exact Nat.pow_le_pow_right two_pos (by omega)
      have hsquare := Nat.pow_lt_pow_left (not_le.mp hlt) (two_ne_zero)
      omega
  rw [exactRoot?, hfloor, if_pos rfl]

theorem radical_sq (root : Nat) (r : Rat) (hr : r.den = 2) :
    radical (root ^ 2) r = (if 0 ≤ r.num then (root : Rat) ^ r.num.toNat else ((root : Rat) ^ r.num.natAbs)⁻¹, []) := by
  unfold radical
  by_cases hone : root ^ 2 = 1
  · have hunit : root = 1 := by simpa using hone
    simp [hunit]
  · rw [if_neg hone, hr, exactRoot?_sq]
    simp only [ratPow_eq]

/-- The square root of the square of a rational is rational. -/
theorem pow_half_sq {q : Rat} (hq : 0 ≤ q) : Term.pow (.rational (q * q)) (.rational (1 / 2)) = .rational q := by
  have hparts : (1 / 2 : Rat).num = 1 ∧ (1 / 2 : Rat).den = 2 ∧ (-(1 / 2) : Rat).num = -1 ∧ (-(1 / 2) : Rat).den = 2 := by
    decide +kernel
  obtain ⟨hnumHalf, hdenHalf, hnumOpposite, hdenOpposite⟩ := hparts
  have hwhole : (1 / 2 : Rat).den ≠ 1 := by rw [hdenHalf]; decide
  have hhalf : (1 / 2 : Rat) ≠ 1 := by norm_num
  rw [Term.pow, if_neg hwhole, Term.powRational, if_neg hhalf]
  by_cases hzero : q = 0
  · simp [hzero, Term.zero]
  · have hsquare : ¬ q * q < 0 := not_lt.mpr (mul_self_nonneg q)
    have hnum : (q * q).num.natAbs = q.num.natAbs ^ 2 := by rw [Rat.mul_self_num, Int.natAbs_mul, sq]
    have hden : (q * q).den = q.den ^ 2 := by rw [Rat.mul_self_den, sq]
    have hvalue : (q.num.natAbs : Rat) * (q.den : Rat)⁻¹ = q := by
      have habs : ((q.num.natAbs : Int) : Rat) = q.num :=
        congrArg _ (Int.natAbs_of_nonneg (Rat.num_nonneg.mpr hq))
      rw [← Int.cast_natCast q.num.natAbs, habs, ← div_eq_mul_inv, Rat.num_div_den]
    have hroot : Term.rationalPower (q * q) (1 / 2) = (q, []) := by
      rw [Term.rationalPower, if_neg hwhole, if_neg hsquare, hnum, hden, radical_sq _ _ hdenHalf,
        radical_sq _ _ hdenOpposite, hnumHalf, hnumOpposite]
      simpa only [zero_le_one, if_true, Int.toNat_one, pow_one, one_mul, Int.reduceNeg, Left.nonneg_neg_iff,
        Int.reduceLE, if_false, Int.natAbs_neg, Int.natAbs_one, List.append_nil, List.map_nil, Prod.mk.injEq,
        and_true] using hvalue
    have hproduct : q * q ≠ 0 := mul_ne_zero hzero hzero
    simp only [hproduct, if_false, hroot, Term.ofMonomial, hzero]

end Reckoner.Algebra

namespace Reckoner.Expression

open Reckoner.Algebra

/-! ### Exact values -/

/-- The exact value of a power of rationals: the exponent is a whole number, or one half of a square is taken. -/
def exactPower? (p r : Rat) : Option Rat :=
  if r = 1 / 2 then (if Rat.sqrt p * Rat.sqrt p = p then some (Rat.sqrt p) else none)
  else ArithmeticOperator.power.result? p r

namespace Sketch

mutual

/-- The exact value of a sketch, if every part of it is a rational number. -/
def rational? : Sketch → Option Rat
  | .value (.number (.rational q)) => some q
  | .sum items => (rationals? items).map List.sum
  | .product items => (rationals? items).map List.prod
  | .power base exponent => (rational? base).bind fun p => (rational? exponent).bind fun r => exactPower? p r
  | _ => none

def rationals? : List Sketch → Option (List Rat)
  | [] => some []
  | s :: rest => (rational? s).bind fun q => (rationals? rest).map (q :: ·)

end

mutual

/-- The powers in a sketch, each after those inside it. -/
def powerParts : Sketch → List (Sketch × Sketch)
  | .value _ => []
  | .sum items => powerPartsOf items
  | .product items => powerPartsOf items
  | .power base exponent => powerParts base ++ powerParts exponent ++ [(base, exponent)]
  | .apply _ arguments => powerPartsOf arguments
  | .comparison _ left right => powerParts left ++ powerParts right
  | .conjunction items => powerPartsOf items
  | .bundle items => powerPartsOf items
  | .set items => powerPartsOf items
  | .dictionary keys values => powerPartsOf keys ++ powerPartsOf values

def powerPartsOf : List Sketch → List (Sketch × Sketch)
  | [] => []
  | s :: rest => powerParts s ++ powerPartsOf rest

end

variable {settings : Settings}

/-- Whether no power is large. -/
def HasSmallPowers (settings : Settings) (powers : List (Term × Term)) : Prop :=
  ∀ p ∈ powers, extentOf settings false p.1 p.2 = .small

theorem pow_of_exactPower? {p r q : Rat} (h : exactPower? p r = some q) :
    Term.pow (.rational p) (.rational r) = .rational q := by
  unfold exactPower? at h
  split_ifs at h with hhalf hroot
  · obtain rfl : Rat.sqrt p = q := by simpa using h
    have hpow := pow_half_sq (Rat.sqrt_nonneg p)
    rwa [hroot, ← hhalf] at hpow
  · rw [ArithmeticOperator.result?] at h
    split_ifs at h with hwhole
    obtain rfl : p ^ r.num = q := by simpa using h
    rw [Term.pow_rational_of_isInt hwhole.1 hwhole.2, integerPower_eq_zpow]

theorem foldl_add_rationals (first : Rat) (qs : List Rat) :
    (qs.map Term.rational).foldl Term.add (.rational first) = .rational (first + qs.sum) := by
  induction qs generalizing first with
  | nil => simp
  | cons q rest ih =>
    have hadd : Term.add (.rational first) (.rational q) = .rational (first + q) := rfl
    rw [List.map_cons, List.foldl_cons, hadd, ih, List.sum_cons, add_assoc]

theorem foldl_mul_rationals (first : Rat) (qs : List Rat) :
    (qs.map Term.rational).foldl Term.mul (.rational first) = .rational (first * qs.prod) := by
  induction qs generalizing first with
  | nil => simp
  | cons q rest ih => rw [List.map_cons, List.foldl_cons, Term.mul_rational, ih, List.prod_cons, mul_assoc]

mutual

/-- A sketch with an exact value settles to it, unless a power in it is large. -/
theorem settle_of_rational? {s : Sketch} {q : Rat} (hvalue : s.rational? = some q)
    (hsmall : HasSmallPowers settings (s.powers settings)) : s.settle settings = .ok (.number (.rational q)) := by
  match s with
  | .value v =>
    obtain ⟨rfl⟩ : v = .number (.rational q) := by
      unfold rational? at hvalue
      split at hvalue <;> simp_all
    rw [settle]
  | .sum items =>
    rw [rational?] at hvalue
    obtain ⟨qs, hqs, rfl⟩ := Option.map_eq_some_iff.mp hvalue
    rw [powers] at hsmall
    rw [settle, settleNumbers_of_rationals? hqs hsmall, Except.map, Term.zero, foldl_add_rationals, zero_add]
  | .product items =>
    rw [rational?] at hvalue
    obtain ⟨qs, hqs, rfl⟩ := Option.map_eq_some_iff.mp hvalue
    rw [powers] at hsmall
    rw [settle, settleNumbers_of_rationals? hqs hsmall, Except.map, Term.one, foldl_mul_rationals, one_mul]
  | .power base exponent =>
    rw [rational?] at hvalue
    obtain ⟨p, hp, hvalue⟩ := Option.bind_eq_some_iff.mp hvalue
    obtain ⟨r, hr, hpower⟩ := Option.bind_eq_some_iff.mp hvalue
    rw [powers] at hsmall
    have hbase := settle_of_rational? hp fun pair hpair =>
      hsmall pair (List.mem_append_left _ (List.mem_append_left _ hpair))
    have hexponent := settle_of_rational? hr fun pair hpair =>
      hsmall pair (List.mem_append_left _ (List.mem_append_right _ hpair))
    have hextent : extentOf settings false (.rational p) (.rational r) = .small :=
      hsmall (.rational p, .rational r) (by simp [number?, hbase, hexponent])
    rw [settle, hbase, hexponent]
    simp only [boundedPower, hextent, pow_of_exactPower? hpower]
  | .apply f arguments => simp [rational?] at hvalue
  | .comparison sign left right => simp [rational?] at hvalue
  | .conjunction items => simp [rational?] at hvalue
  | .bundle items => simp [rational?] at hvalue
  | .set items => simp [rational?] at hvalue
  | .dictionary keys values => simp [rational?] at hvalue

theorem settleNumbers_of_rationals? {items : List Sketch} {qs : List Rat} (hvalues : rationals? items = some qs)
    (hsmall : HasSmallPowers settings (powersOf settings items)) :
    settleNumbers settings items = .ok (qs.map .rational) := by
  match items with
  | [] =>
    obtain rfl : [] = qs := by simpa [rationals?] using hvalues
    rfl
  | s :: rest =>
    rw [rationals?] at hvalues
    obtain ⟨q, hq, hvalues⟩ := Option.bind_eq_some_iff.mp hvalues
    obtain ⟨others, hothers, rfl⟩ := Option.map_eq_some_iff.mp hvalues
    rw [powersOf] at hsmall
    have hfirst := settle_of_rational? hq fun pair hpair => hsmall pair (List.mem_append_left _ hpair)
    have hrest := settleNumbers_of_rationals? hothers fun pair hpair => hsmall pair (List.mem_append_right _ hpair)
    rw [settleNumbers, hfirst, hrest]
    rfl

end

/-! ### Powers inside a sketch -/

/-- Powers that include a power, as far as its base and exponent settle to numbers, and all powers in them. -/
def Examines (settings : Settings) (powers : List (Term × Term)) (base exponent : Sketch) : Prop :=
  (∀ p ∈ base.powers settings ++ exponent.powers settings, p ∈ powers) ∧
    ∀ t u, base.number? settings = some t → exponent.number? settings = some u → (t, u) ∈ powers

variable {base exponent : Sketch}

theorem Examines.mono {powers others : List (Term × Term)} (h : Examines settings powers base exponent)
    (hsubset : powers ⊆ others) : Examines settings others base exponent :=
  ⟨fun p hp => hsubset (h.1 p hp), fun t u ht hu => hsubset (h.2 t u ht hu)⟩

mutual

/-- Every power in a sketch is examined. -/
theorem examines_of_mem_powerParts {s : Sketch} (hpart : (base, exponent) ∈ s.powerParts) :
    Examines settings (s.powers settings) base exponent := by
  match s with
  | .value v => simp [powerParts] at hpart
  | .sum items =>
    rw [powerParts] at hpart
    rw [powers]
    exact examines_of_mem_powerPartsOf hpart
  | .product items =>
    rw [powerParts] at hpart
    rw [powers]
    exact examines_of_mem_powerPartsOf hpart
  | .power outerBase outerExponent =>
    rw [powerParts, List.append_assoc, List.mem_append, List.mem_append, List.mem_singleton] at hpart
    rw [powers, List.append_assoc]
    rcases hpart with hpart | hpart | hpart
    · exact (examines_of_mem_powerParts hpart).mono (List.subset_append_left _ _)
    · exact (examines_of_mem_powerParts hpart).mono (List.subset_append_of_subset_right _ (List.subset_append_left _ _))
    · obtain ⟨rfl, rfl⟩ := Prod.mk.inj hpart
      rw [← List.append_assoc]
      refine ⟨fun p hp => List.mem_append_left _ hp, fun t u ht hu => ?_⟩
      simp [ht, hu]
  | .apply f arguments =>
    rw [powerParts] at hpart
    rw [powers]
    exact examines_of_mem_powerPartsOf hpart
  | .comparison sign left right =>
    rw [powerParts, List.mem_append] at hpart
    rw [powers]
    rcases hpart with hpart | hpart
    · exact (examines_of_mem_powerParts hpart).mono (List.subset_append_left _ _)
    · exact (examines_of_mem_powerParts hpart).mono (List.subset_append_right _ _)
  | .conjunction items =>
    rw [powerParts] at hpart
    rw [powers]
    exact examines_of_mem_powerPartsOf hpart
  | .bundle items =>
    rw [powerParts] at hpart
    rw [powers]
    exact examines_of_mem_powerPartsOf hpart
  | .set items =>
    rw [powerParts] at hpart
    rw [powers]
    exact examines_of_mem_powerPartsOf hpart
  | .dictionary keys values =>
    rw [powerParts, List.mem_append] at hpart
    rw [powers]
    rcases hpart with hpart | hpart
    · exact (examines_of_mem_powerPartsOf hpart).mono (List.subset_append_left _ _)
    · exact (examines_of_mem_powerPartsOf hpart).mono (List.subset_append_right _ _)

theorem examines_of_mem_powerPartsOf {items : List Sketch} (hpart : (base, exponent) ∈ powerPartsOf items) :
    Examines settings (powersOf settings items) base exponent := by
  match items with
  | [] => simp [powerPartsOf] at hpart
  | s :: rest =>
    rw [powerPartsOf, List.mem_append] at hpart
    rw [powersOf]
    rcases hpart with hpart | hpart
    · exact (examines_of_mem_powerParts hpart).mono (List.subset_append_left _ _)
    · exact (examines_of_mem_powerPartsOf hpart).mono (List.subset_append_right _ _)

end

end Sketch

end Reckoner.Expression
