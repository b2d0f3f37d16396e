import Mathlib.Data.Nat.Size
import ExactFormula.Decimal.Power
import ExactFormula.Proofs.Decimal.Arithmetic

/-!
Powers with a whole exponent. Within the limits of the exponent and of the size of the power they are rounded once: to
the decimal closest to the exact power, or closest to its reciprocal where the exponent is negative.
-/

namespace ExactFormula.Decimal

variable {a b : Decimal} {n : ℤ}

/-! ## Whole exponents -/

theorem isInteger_ofInt (n : ℤ) : (ofInt n).isInteger = true := by
  rw [isInteger, ofInt, Int.mul_tmod_left, beq_self_eq_true]

theorem eq_ofInt_of_value (whole : b.value = n) : b = ofInt n :=
  value_injective (whole.trans (value_ofInt n).symm)

theorem exists_ofInt (h : b.isInteger = true) : ∃ n : ℤ, b = ofInt n := by
  have exact_ : b.units.tmod Decimal.whole = 0 := beq_iff_eq.1 h
  refine ⟨b.units.tdiv Decimal.whole, ?_⟩
  cases b
  exact congrArg mk (Int.tdiv_mul_cancel (Int.dvd_of_tmod_eq_zero exact_)).symm

theorem toInt64?_ofInt (n : ℤ) :
    (ofInt n).toInt64? = if -2 ^ 63 ≤ n ∧ n < 2 ^ 63 then some (Int64.ofInt n) else none := by
  have quotient : (ofInt n).units.tdiv Decimal.whole = n := Int.mul_tdiv_cancel n (by decide)
  have least : Int64.minValue.toInt = -2 ^ 63 := rfl
  have greatest : Int64.maxValue.toInt = 2 ^ 63 - 1 := rfl
  simp only [toInt64?, quotient, isInteger_ofInt, least, greatest, Bool.true_and, Bool.and_eq_true, decide_eq_true_eq]
  congr 1
  rw [eq_iff_iff]
  omega

theorem toInt64?_ne_least (other : n ≠ -2 ^ 63) : (ofInt n).toInt64? ≠ some Int64.minValue := by
  rw [toInt64?_ofInt]
  split
  case isTrue inRange =>
    intro least
    have same := Int64.toInt_ofInt_of_le inRange.1 inRange.2
    rw [Option.some.inj least] at same
    exact other same.symm
  case isFalse => nofun

/-- The absolute value is exact, save for the least number. -/
theorem toInt_abs {m : Int64} (other : m ≠ Int64.minValue) : m.abs.toInt = m.toInt.natAbs := by
  have least : Int64.minValue.toBitVec = BitVec.intMin 64 := by decide
  have apart : m.toBitVec ≠ BitVec.intMin 64 := fun same => other (Int64.toBitVec_inj.1 (same.trans least.symm))
  exact BitVec.toInt_abs_eq_natAbs_of_ne_intMin apart

/-! ## Limits -/

theorem bitLength_eq_size (k : ℕ) : bitLength k = k.size := by
  rw [bitLength]
  split
  case isTrue zero => rw [zero, Nat.size_zero]
  case isFalse nonzero =>
    exact le_antisymm (Nat.lt_size.2 (Nat.log2_self_le nonzero)) (Nat.size_le.2 Nat.lt_log2_self)

/-- The exponent and the exact power are small enough. -/
structure Feasible (a : Decimal) (n : ℤ) : Prop where
  exponent : n.natAbs ≤ 10000
  bits : a.units.natAbs.size * n.natAbs ≤ 2 ^ 22

instance (a : Decimal) (n : ℤ) : Decidable (Feasible a n) :=
  decidable_of_iff (n.natAbs ≤ 10000 ∧ a.units.natAbs.size * n.natAbs ≤ 2 ^ 22)
    ⟨fun h => ⟨h.1, h.2⟩, fun h => ⟨h.exponent, h.bits⟩⟩

theorem powerExponent?_of_toInt64? {m : Int64} (other : m ≠ Int64.minValue) (read : b.toInt64? = some m) :
    powerExponent? a b = if Feasible a m.toInt then some m else none := by
  have limit : m.abs ≤ maxPowerExponent ↔ m.toInt.natAbs ≤ 10000 := by
    rw [Int64.le_iff_toInt_le, toInt_abs other]
    change (m.toInt.natAbs : ℤ) ≤ 10000 ↔ _
    omega
  have bits : maxPowerBits = 2 ^ 22 := rfl
  rw [powerExponent?, read, Option.filter_some]
  congr 1
  rw [eq_iff_iff, Bool.and_eq_true, decide_eq_true_eq, decide_eq_true_eq, limit, bitLength_eq_size, bits]
  exact ⟨fun h => ⟨h.1, h.2⟩, fun h => ⟨h.exponent, h.bits⟩⟩

theorem powerExponent?_ofInt (a : Decimal) (other : n ≠ -2 ^ 63) :
    powerExponent? a (ofInt n) = if Feasible a n then some (Int64.ofInt n) else none := by
  by_cases inRange : -2 ^ 63 ≤ n ∧ n < 2 ^ 63
  · have same : (Int64.ofInt n).toInt = n := Int64.toInt_ofInt_of_le inRange.1 inRange.2
    have read : (ofInt n).toInt64? = some (Int64.ofInt n) := by rw [toInt64?_ofInt, if_pos inRange]
    have apart : Int64.ofInt n ≠ Int64.minValue := fun least => toInt64?_ne_least other (by rw [read, least])
    rw [powerExponent?_of_toInt64? apart read, same]
  · have infeasible : ¬Feasible a n := fun h => by
      have small := h.exponent
      omega
    rw [powerExponent?, toInt64?_ofInt, if_neg inRange, if_neg infeasible, Option.filter_none]

/-! ## Powers -/

/-- The power with a whole exponent, rounded once. -/
def wholePower (a : Decimal) (n : ℤ) : Except DecimalError Decimal :=
  if n = 0 then .ok one
  else if 0 < n then
    .ok ⟨RoundingMode.halfEven.divide (a.units ^ n.natAbs) (10 ^ (scale * (n.natAbs - 1)))⟩
  else if a.isZero then .error .divideByZero
  else .ok ⟨RoundingMode.halfEven.divide (10 ^ (scale * (n.natAbs + 1))) (a.units ^ n.natAbs)⟩

theorem Feasible.toInt_ofInt (h : Feasible a n) :
    (Int64.ofInt n).toInt = n ∧ (Int64.ofInt n = 0 ↔ n = 0) ∧ (0 < Int64.ofInt n ↔ 0 < n) := by
  have small := h.exponent
  have same : (Int64.ofInt n).toInt = n := Int64.toInt_ofInt_of_le (by omega) (by omega)
  refine ⟨same, ?_, ?_⟩
  · rw [← Int64.toInt_inj, same]
    rfl
  · rw [Int64.lt_iff_toInt_lt, same]
    rfl

theorem pow_ofInt (a : Decimal) (other : n ≠ -2 ^ 63) : pow a (ofInt n) =
    if Feasible a n then wholePower a n else .error (.exponentOutOfRange (ofInt n).toText) := by
  rw [pow, isInteger_ofInt, powerExponent?_ofInt a other]
  by_cases feasible : Feasible a n
  · obtain ⟨same, zero, positive⟩ := feasible.toInt_ofInt
    have power (k : ℕ) : a.units.pow k = a.units ^ k := rfl
    simp only [feasible, ↓reduceIte, same, zero, positive, cast_tens, power, Bool.not_true, Bool.false_eq_true,
      wholePower]
  · simp only [feasible, ↓reduceIte, Bool.not_true, Bool.false_eq_true]

/-- The scale of all factors but one is divided off. -/
theorem closest_power (a : Decimal) {m : ℕ} (positive : 0 < m) :
    Closest .halfEven (a.value ^ m) ⟨RoundingMode.halfEven.divide (a.units ^ m) (10 ^ (scale * (m - 1)))⟩ := by
  obtain ⟨k, rfl⟩ : ∃ k, m = k + 1 := Nat.exists_eq_add_of_le' positive
  have exact_units : a.value ^ (k + 1) * 10 ^ scale =
      ((a.units ^ (k + 1) : ℤ) : ℚ) / ((10 ^ (scale * k) : ℤ) : ℚ) := by
    rw [value, div_pow, ← pow_mul, Nat.mul_add_one]
    push_cast
    field_simp
    ring
  refine closest_of_nearest ?_
  rw [exact_units]
  exact RoundingMode.nearest_divide .halfEven _ (by positivity)

/-- The scale of all factors and of the result is multiplied on. -/
theorem closest_reciprocal (nonzero : a.value ≠ 0) (m : ℕ) :
    Closest .halfEven (1 / a.value ^ m) ⟨RoundingMode.halfEven.divide (10 ^ (scale * (m + 1))) (a.units ^ m)⟩ := by
  have nonzero : a.units ≠ 0 := value_eq_zero_iff.not.1 nonzero
  have exact_units : 1 / a.value ^ m * 10 ^ scale =
      ((10 ^ (scale * (m + 1)) : ℤ) : ℚ) / ((a.units ^ m : ℤ) : ℚ) := by
    have nonzero : (a.units : ℚ) ≠ 0 := by exact_mod_cast nonzero
    rw [value, div_pow, ← pow_mul, Nat.mul_add_one, pow_add]
    push_cast
    field_simp
  refine closest_of_nearest ?_
  rw [exact_units]
  exact RoundingMode.nearest_divide .halfEven _ (pow_ne_zero m nonzero)

theorem wholePower_positive (positive : 0 < n) :
    ∃ p, wholePower a n = .ok p ∧ Closest .halfEven (a.value ^ n.natAbs) p := by
  refine ⟨_, ?_, closest_power a (by omega)⟩
  rw [wholePower, if_neg positive.ne', if_pos positive]

theorem wholePower_zeroBase (negative : n < 0) (zero : a.value = 0) : wholePower a n = .error .divideByZero := by
  have isZero : a.isZero = true := beq_iff_eq.2 (value_eq_zero_iff.1 zero)
  rw [wholePower, if_neg negative.ne, if_neg negative.not_gt, if_pos isZero]

theorem wholePower_negative (negative : n < 0) (nonzero : a.value ≠ 0) :
    ∃ p, wholePower a n = .ok p ∧ Closest .halfEven (1 / a.value ^ n.natAbs) p := by
  have other : ¬a.isZero = true := fun isZero => nonzero (value_eq_zero_iff.2 (beq_iff_eq.1 isZero))
  refine ⟨_, ?_, closest_reciprocal nonzero n.natAbs⟩
  rw [wholePower, if_neg negative.ne, if_neg negative.not_gt, if_neg other]

/-- Within the limits a power is exact but for one rounding, half to even, and so is the reciprocal of a power; zero
has no reciprocal. Beyond the limits the exponent is out of range. -/
theorem pow_closest (whole : b.value = n) :
    (Feasible a n →
      (n = 0 → pow a b = .ok one) ∧
      (0 < n → ∃ p, pow a b = .ok p ∧ Closest .halfEven (a.value ^ n.natAbs) p) ∧
      (n < 0 → a.value = 0 → pow a b = .error .divideByZero) ∧
      (n < 0 → a.value ≠ 0 → ∃ p, pow a b = .ok p ∧ Closest .halfEven (1 / a.value ^ n.natAbs) p)) ∧
      (¬Feasible a n → n ≠ -2 ^ 63 → pow a b = .error (.exponentOutOfRange b.toText)) := by
  cases eq_ofInt_of_value whole
  constructor
  · intro feasible
    have other : n ≠ -2 ^ 63 := fun least => by
      have small := feasible.exponent
      omega
    rw [pow_ofInt a other, if_pos feasible]
    exact ⟨fun zero => by rw [wholePower, if_pos zero], wholePower_positive, wholePower_zeroBase, wholePower_negative⟩
  · intro infeasible other
    rw [pow_ofInt a other, if_neg infeasible]

/-- `-0.0000005`, whose third power lies in the middle between two decimals. -/
def middling : Decimal := ⟨-50000000000000⟩

/-- A tie of negative decimals goes to the even one, its reciprocal is a decimal, zero has none, and an exponent below
the limit is out of range. -/
theorem pow_closest_middling : (ofInt 3).value = (3 : ℤ) ∧ (ofInt (-3)).value = (-3 : ℤ) ∧
    Feasible middling 3 ∧ Feasible middling (-3) ∧ Feasible zero (-3) ∧ middling.value ≠ 0 ∧
    (∃ p, pow middling (ofInt 3) = .ok p ∧ p.units = -12 ∧ Closest .halfEven (middling.value ^ 3) p) ∧
    (∃ p, pow middling (ofInt (-3)) = .ok p ∧ Closest .halfEven (1 / middling.value ^ 3) p) ∧
    pow zero (ofInt (-3)) = .error .divideByZero ∧
    (ofInt (-10001)).value = (-10001 : ℤ) ∧ ¬Feasible (ofInt 2) (-10001) ∧
    pow (ofInt 2) (ofInt (-10001)) = .error (.exponentOutOfRange "-10001") := by
  have feasible : Feasible middling 3 ∧ Feasible middling (-3) ∧ Feasible zero (-3) := by decide
  have infeasible : ¬Feasible (ofInt 2) (-10001) := by decide
  have nonzero : middling.value ≠ 0 := value_eq_zero_iff.not.2 (by decide)
  obtain ⟨powers, -⟩ := pow_closest (a := middling) (value_ofInt 3)
  obtain ⟨reciprocals, -⟩ := pow_closest (a := middling) (value_ofInt (-3))
  obtain ⟨zeros, -⟩ := pow_closest (a := zero) (value_ofInt (-3))
  obtain ⟨-, beyond⟩ := pow_closest (a := ofInt 2) (value_ofInt (-10001))
  obtain ⟨p, power, closest⟩ := (powers feasible.1).2.1 (by decide)
  have units : pow middling (ofInt 3) = .ok ⟨-12⟩ := by rfl
  have same : p = ⟨-12⟩ := Except.ok.inj (power.symm.trans units)
  exact ⟨value_ofInt 3, value_ofInt (-3), feasible.1, feasible.2.1, feasible.2.2, nonzero,
    ⟨p, power, by rw [same], closest⟩, (reciprocals feasible.2.1).2.2.2 (by decide) nonzero,
    (zeros feasible.2.2).2.2.1 (by decide) (value_eq_zero_iff.2 rfl), value_ofInt (-10001), infeasible,
    beyond infeasible (by decide)⟩

end ExactFormula.Decimal
