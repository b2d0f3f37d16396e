import Mathlib.Data.Rat.Floor
import ExactFormula.Function.Builtin
import ExactFormula.Proofs.Decimal.Arithmetic

/-!
Whole parts and remainders. The floor of a decimal is the greatest whole number that is not above it, and the ceiling
the least one that is not below it; a remainder is what the quotient, cut toward zero, leaves of the dividend.
-/

namespace ExactFormula

namespace Decimal

variable {a b : Decimal}

theorem neg_ofInt_neg (k : ℤ) : -ofInt (-k) = ofInt k := by
  apply eq_of_units
  simp [ofInt]

/-! ## Remainders -/

/-- The whole part of a number toward zero. -/
def towardZero (x : ℚ) : ℤ := if 0 ≤ x then ⌊x⌋ else ⌈x⌉

theorem towardZero_neg (x : ℚ) : towardZero (-x) = -towardZero x := by
  unfold towardZero
  rcases lt_trichotomy x 0 with negative | rfl | positive
  · rw [if_pos (by linarith), if_neg (by linarith), Int.floor_neg]
  · simp
  · rw [if_neg (by linarith), if_pos (by linarith), Int.ceil_neg]

theorem towardZero_div (m n : ℤ) : towardZero (m / n) = m.tdiv n := by
  have natural (a b : ℕ) : towardZero (a / b) = (a : ℤ).tdiv b := by
    rw [towardZero, if_pos (by positivity), Rat.floor_natCast_div_natCast]
    rfl
  obtain ⟨a, rfl | rfl⟩ := Int.eq_nat_or_neg m <;> obtain ⟨b, rfl | rfl⟩ := Int.eq_nat_or_neg n
  · simpa using natural a b
  · simpa [div_neg, towardZero_neg] using natural a b
  · simpa [neg_div, towardZero_neg] using natural a b
  · simpa using natural a b

theorem rem_eq_ok (a : Decimal) (nonzero : b.value ≠ 0) : rem a b = .ok ⟨a.units.tmod b.units⟩ := by
  have : b.units ≠ 0 := value_eq_zero_iff.not.1 nonzero
  simp [rem, isZero, this]

theorem rem_eq_error (a : Decimal) (zero : b.value = 0) : rem a b = .error .divideByZero := by
  have : b.units = 0 := value_eq_zero_iff.1 zero
  simp [rem, isZero, this]

/-- A remainder is smaller than the divisor, and has the sign of the dividend if it has one. -/
theorem exists_rem (a : Decimal) (nonzero : b.value ≠ 0) : ∃ r, rem a b = .ok r ∧
    a.value = b.value * towardZero (a.value / b.value) + r.value ∧ |r.value| < |b.value| ∧
    (r.value = 0 ∨ 0 < r.value * a.value) := by
  refine ⟨_, rem_eq_ok a nonzero, ?_, ?_, ?_⟩
  · have split : (b.units : ℚ) * a.units.tdiv b.units + a.units.tmod b.units = a.units := by
      exact_mod_cast Int.mul_tdiv_add_tmod a.units b.units
    rw [value_div_value, towardZero_div]
    unfold value
    rw [← split]
    ring
  · have smaller : |a.units.tmod b.units| < |b.units| := by
      rw [Int.abs_eq_natAbs, Int.abs_eq_natAbs, Int.natAbs_tmod]
      exact_mod_cast Nat.mod_lt _ (Int.natAbs_pos.2 (value_eq_zero_iff.not.1 nonzero))
    unfold value
    rw [abs_div, abs_div]
    apply div_lt_div_of_pos_right _ (by positivity)
    exact_mod_cast smaller
  · by_cases divides : b.units ∣ a.units
    · exact .inl (value_eq_zero_iff.2 (Int.tmod_eq_zero_of_dvd divides))
    · have nonzero : a.units ≠ 0 := by
        intro zero
        simp [zero] at divides
      have alike : 0 < a.units.tmod b.units * a.units := by
        rw [← Int.sign_eq_one_iff_pos, Int.sign_mul, Int.sign_tmod, if_neg divides, ← Int.sign_mul,
          Int.sign_eq_one_iff_pos]
        exact mul_self_pos.2 nonzero
      right
      unfold value
      rw [div_mul_div_comm]
      apply div_pos _ (by positivity)
      exact_mod_cast alike

end Decimal

namespace Builtin

open Decimal

variable {v : Value} {n : Decimal}

/-! ## Whole parts -/

theorem truncate_eq (d : Decimal) :
    truncate d = .ofInt (d.units / whole + if 0 ≤ d.units ∨ whole ∣ d.units then 0 else 1) := by
  have step : d.units / whole + (if 0 ≤ d.units ∨ whole ∣ d.units then 0 else 1) = d.units.tdiv whole := by
    rw [Int.tdiv_eq_ediv]
    rfl
  have split := Int.mul_tdiv_add_tmod d.units whole
  rw [step, truncate, ofInt]
  congr 1
  linarith

theorem truncate_eq_iff (d : Decimal) : truncate d = d ↔ whole ∣ d.units := by
  rw [truncate, Int.dvd_iff_tmod_eq_zero]
  cases d
  simp

/-- The whole part toward zero is above the floor for negative decimals that are not whole, and for no others. -/
theorem floorOf_units (d : Decimal) : floorOf d = .ofInt (d.units / whole) := by
  have step (k : ℤ) : ofInt (k + 1) - one = ofInt k := by
    apply congrArg mk
    simp only [ofInt, one]
    ring
  unfold floorOf
  by_cases divides : whole ∣ d.units
  · have same : truncate d = d := (truncate_eq_iff d).2 divides
    simp [same, ofInt, Int.ediv_mul_cancel divides]
  have other : truncate d ≠ d := (truncate_eq_iff d).not.2 divides
  by_cases negative : d.units < 0
  · have condition : (d.isNegative && truncate d != d) = true := by simp [isNegative, negative, other]
    rw [if_pos condition, truncate_eq, if_neg (by simp [negative, divides]), step]
  · have condition : ¬(d.isNegative && truncate d != d) = true := by simp [isNegative, negative]
    rw [if_neg condition, truncate_eq, if_pos (Or.inl (not_lt.1 negative)), add_zero]

theorem floorOf_eq (d : Decimal) : floorOf d = .ofInt ⌊d.value⌋ := by
  have exact_units : d.value = d.units / (10 ^ scale : ℕ) := by
    simp [value]
  rw [floorOf_units, exact_units, Rat.floor_intCast_div_natCast]
  rfl

theorem truncate_neg (d : Decimal) : truncate (-d) = -truncate d := by
  apply eq_of_units
  simp only [truncate, units_neg, Int.neg_tmod]
  ring

/-- A decimal is moved up to its ceiling exactly if its negation is moved down to its floor. -/
theorem ceilOf_eq_neg (d : Decimal) : ceilOf d = -floorOf (-d) := by
  have moved : (!d.isNegative && truncate d != d) = ((-d).isNegative && truncate (-d) != -d) := by
    have same : truncate (-d) = -d ↔ truncate d = d := by
      rw [truncate_eq_iff, truncate_eq_iff, units_neg, Int.dvd_neg]
    by_cases divides : whole ∣ d.units
    · have fixed := (truncate_eq_iff d).2 divides
      simp [fixed, same.2 fixed]
    · have nonzero : d.units ≠ 0 := by
        intro zero
        simp [zero] at divides
      have other := (truncate_eq_iff d).not.2 divides
      have left : (truncate d != d) = true := bne_iff_ne.2 other
      have right : (truncate (-d) != -d) = true := bne_iff_ne.2 (same.not.2 other)
      rw [left, right, isNegative, isNegative, units_neg, Bool.eq_iff_iff]
      simp
      omega
  unfold ceilOf floorOf
  rw [moved, truncate_neg]
  split <;> apply eq_of_units <;> simp
  ring

theorem ceilOf_eq (d : Decimal) : ceilOf d = .ofInt ⌈d.value⌉ := by
  rw [ceilOf_eq_neg, floorOf_eq, value_neg, Int.floor_neg, neg_ofInt_neg]

/-! ## Floors and ceilings -/

theorem floor_eq (read : v.number? = some n) (args : List Value) (ctx : Context) :
    floor (v :: args) ctx = .ok (.number (floorOf n)) := by
  simp [floor, argument, Value.toNumber, read]

theorem ceil_eq (read : v.number? = some n) (args : List Value) (ctx : Context) :
    ceil (v :: args) ctx = .ok (.number (ceilOf n)) := by
  simp [ceil, argument, Value.toNumber, read]

/-- The floor is the greatest whole number that is not above a decimal, the ceiling the least one that is not below it.
They mirror each other, keep whole numbers and keep the order. A remainder is what is left of the dividend by the
quotient toward zero; it is smaller than the divisor and has the sign of the dividend. -/
theorem floor_ceil_rem (n : Decimal) :
    (∀ v args ctx, v.number? = some n →
      floor (v :: args) ctx = .ok (.number (floorOf n)) ∧ ceil (v :: args) ctx = .ok (.number (ceilOf n))) ∧
    (∃ k : ℤ, floorOf n = .ofInt k ∧ IsGreatest {i : ℤ | (i : ℚ) ≤ n.value} k) ∧
    (∃ k : ℤ, ceilOf n = .ofInt k ∧ IsLeast {i : ℤ | n.value ≤ i} k) ∧
    ceilOf n = -floorOf (-n) ∧
    (∀ k : ℤ, n.value = k → floorOf n = n ∧ ceilOf n = n) ∧
    (∀ m : Decimal, n.value ≤ m.value →
      (floorOf n).value ≤ (floorOf m).value ∧ (ceilOf n).value ≤ (ceilOf m).value) ∧
    ∀ b : Decimal, (b.value ≠ 0 → ∃ r, rem n b = .ok r ∧
        n.value = b.value * towardZero (n.value / b.value) + r.value ∧ |r.value| < |b.value| ∧
        (r.value = 0 ∨ 0 < r.value * n.value)) ∧
      (b.value = 0 → rem n b = .error .divideByZero) := by
  refine ⟨fun v args ctx read => ⟨floor_eq read args ctx, ceil_eq read args ctx⟩,
    ⟨_, floorOf_eq n, Int.floor_le n.value, fun i below => Int.le_floor.2 below⟩,
    ⟨_, ceilOf_eq n, Int.le_ceil n.value, fun i above => Int.ceil_le.2 above⟩, ceilOf_eq_neg n,
    fun k whole => ?_, fun m le => ?_, fun b => ⟨exists_rem n, rem_eq_error n⟩⟩
  · have same : ofInt k = n := value_injective (by rw [value_ofInt, whole])
    rw [floorOf_eq, ceilOf_eq, whole, Int.floor_intCast, Int.ceil_intCast, same]
    exact ⟨rfl, rfl⟩
  · simp only [floorOf_eq, ceilOf_eq, value_ofInt, Int.cast_le]
    exact ⟨Int.floor_mono le, Int.ceil_mono le⟩

/-- `-2.1` -/
def belowTwo : Decimal := ⟨-210000000000000000000⟩

/-- A negative fraction, read from a text: the floor is below it, the ceiling and the remainder on the side of zero. -/
theorem floor_ceil_rem_belowTwo : (Value.string "-2.1").number? = some belowTwo ∧
    floor [.string "-2.1"] .empty = .ok (.number (.ofInt (-3))) ∧
    ceil [.string "-2.1"] .empty = .ok (.number (.ofInt (-2))) ∧
    belowTwo.value ≤ (ofInt 1).value ∧ (floorOf belowTwo).value ≤ (floorOf (ofInt 1)).value ∧
    (ofInt 1).value = (1 : ℤ) ∧ ceilOf (ofInt 1) = ofInt 1 ∧ (ofInt 1).value ≠ 0 ∧
    (∃ r, rem belowTwo (ofInt 1) = .ok r ∧ |r.value| < |(ofInt 1).value|) ∧
    zero.value = 0 ∧ rem belowTwo zero = .error .divideByZero := by
  have read : (Value.string "-2.1").number? = some belowTwo := by rfl
  have order : belowTwo.value ≤ (ofInt 1).value := by norm_num [value, belowTwo, ofInt, scale, whole]
  have nonzero : (ofInt 1).value ≠ 0 := by
    rw [value_ofInt]
    norm_num
  have none : zero.value = 0 := value_eq_zero_iff.2 rfl
  obtain ⟨calls, -, -, -, -, monotone, remainder⟩ := floor_ceil_rem belowTwo
  obtain ⟨-, -, -, -, whole, -⟩ := floor_ceil_rem (ofInt 1)
  obtain ⟨floored, ceiled⟩ := calls _ [] .empty read
  obtain ⟨r, ok, -, smaller, -⟩ := (remainder (ofInt 1)).1 nonzero
  have low : floorOf belowTwo = ofInt (-3) := by decide
  have high : ceilOf belowTwo = ofInt (-2) := by decide
  rw [low] at floored
  rw [high] at ceiled
  exact ⟨read, floored, ceiled, order, (monotone (ofInt 1) order).1, value_ofInt 1, (whole 1 (value_ofInt 1)).2,
    nonzero, ⟨r, ok, smaller⟩, none, (remainder zero).2 none⟩

end Builtin

end ExactFormula
