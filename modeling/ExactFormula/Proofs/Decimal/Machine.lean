import ExactFormula.Proofs.Decimal.Power

/-!
Powers on machine integers that are checked: an operation whose result is not the exact one is a fault. A power meets
no fault but the one of the least exponent, whose absolute value no 64-bit integer holds; everything behind the limits
of the exponent is in range.
-/

namespace ExactFormula.Decimal.Machine

/-- Why a computation breaks off: an operation does not give its exact result, or there is none. A conversion that
drops bits is a fault like any other. -/
inductive Fault
  | absoluteValue
  | conversion
  | difference
  | sum
  | product
  | zeroDivisor
  deriving DecidableEq, Repr

section

variable {α : Type}

@[simp] theorem ok_bind {β : Type} (x : α) (f : α → Except Fault β) : (Except.ok x >>= f) = f x := rfl

@[simp] theorem pure_eq_ok (x : α) : (pure x : Except Fault α) = .ok x := rfl

/-- The result of an operation, if its value is the exact one. -/
def checked (fault : Fault) (value : α → ℤ) (exact_ : ℤ) (result : α) : Except Fault α :=
  if value result = exact_ then .ok result else .error fault

theorem checked_eq_ok {fault : Fault} {value : α → ℤ} {exact_ : ℤ} {result : α} (h : value result = exact_) :
    checked fault value exact_ result = .ok result := if_pos h

end

def abs (n : Int64) : Except Fault Int64 := checked .absoluteValue Int64.toInt n.toInt.natAbs n.abs

/-- The magnitude always fits where no bit is taken by the sign. -/
def magnitude (n : Int64) : UInt64 := UInt64.ofNat n.toInt.natAbs

def valueOf (w : UInt32) : ℤ := w.toNat

def narrow (n : UInt64) : Except Fault UInt32 := checked .conversion valueOf n.toNat n.toUInt32

def narrowSigned (n : Int64) : Except Fault UInt32 := checked .conversion valueOf n.toInt n.toUInt64.toUInt32

def add (x y : UInt32) : Except Fault UInt32 := checked .sum valueOf (valueOf x + valueOf y) (x + y)

def sub (x y : UInt32) : Except Fault UInt32 := checked .difference valueOf (valueOf x - valueOf y) (x - y)

def mul (x y : UInt32) : Except Fault UInt32 := checked .product valueOf (valueOf x * valueOf y) (x * y)

/-- A product that stays at the largest number where it is beyond it. -/
def saturatingMul (x y : ℕ) : ℕ := Nat.min (x * y) (2 ^ 64 - 1)

def divide (n d : ℤ) : Except Fault ℤ :=
  if d = 0 then .error .zeroDivisor else .ok (RoundingMode.halfEven.divide n d)

def exponent? (a b : Decimal) : Except Fault (Option Int64) :=
  match b.toInt64? with
  | none => .ok none
  | some n => do
    let distance ← abs n
    -- The second limit cannot fault, so it does no harm to ask for it where the first one fails.
    let bits := saturatingMul (bitLength a.units.natAbs) (magnitude n).toNat
    return if distance ≤ maxPowerExponent ∧ bits ≤ maxPowerBits then some n else none

def power (a : Decimal) (n : Int64) : Except Fault Decimal := do
  let m ← narrowSigned n
  let places ← mul (UInt32.ofNat scale) (← sub m 1)
  return ⟨← divide (a.units ^ m.toNat) (10 ^ places.toNat)⟩

def reciprocal (a : Decimal) (n : Int64) : Except Fault Decimal := do
  let m ← narrow (magnitude n)
  let places ← mul (UInt32.ofNat scale) (← add m 1)
  return ⟨← divide (10 ^ places.toNat) (a.units ^ m.toNat)⟩

/-- The power as machine integers give it, or the fault that it meets. -/
def pow (a b : Decimal) : Except Fault (Except DecimalError Decimal) :=
  if !b.isInteger then .ok (fractionalPower a b)
  else do
    match ← exponent? a b with
    | none => return .error (.exponentOutOfRange b.toText)
    | some n =>
      if n = 0 then return .ok one
      else if 0 < n then return .ok (← power a n)
      else if a.isZero then return .error .divideByZero
      else return .ok (← reciprocal a n)

/-! ## Operations in range -/

theorem abs_eq_ok {n : Int64} (other : n ≠ Int64.minValue) : abs n = .ok n.abs := checked_eq_ok (toInt_abs other)

theorem toNat_magnitude (n : Int64) : (magnitude n).toNat = n.toInt.natAbs := by
  have low := n.le_toInt
  have high := n.toInt_lt
  exact UInt64.toNat_ofNat_of_lt' (by change _ < 2 ^ 64; omega)

theorem narrow_eq_ok {n : UInt64} (small : n.toNat < 2 ^ 32) : ∃ w, narrow n = .ok w ∧ w.toNat = n.toNat := by
  have kept : n.toUInt32.toNat = n.toNat := by rw [UInt64.toNat_toUInt32, Nat.mod_eq_of_lt small]
  exact ⟨_, checked_eq_ok (congrArg Nat.cast kept), kept⟩

theorem narrowSigned_eq_ok {n : Int64} (nonneg : 0 ≤ n.toInt) (small : n.toInt < 2 ^ 32) :
    ∃ w, narrowSigned n = .ok w ∧ w.toNat = n.toInt.natAbs := by
  have word : n.toUInt64.toNat = n.toInt.natAbs := by
    rw [Int64.toNat_toUInt64_of_le (Int64.le_iff_toInt_le.2 nonneg), ← Int64.toNat_toInt]
    omega
  have kept : n.toUInt64.toUInt32.toNat = n.toInt.natAbs := by
    rw [UInt64.toNat_toUInt32, word, Nat.mod_eq_of_lt (by omega)]
  exact ⟨_, checked_eq_ok ((congrArg Nat.cast kept).trans (Int.natAbs_of_nonneg nonneg)), kept⟩

variable {x y : UInt32}

theorem add_eq_ok (small : x.toNat + y.toNat < 2 ^ 32) : ∃ w, add x y = .ok w ∧ w.toNat = x.toNat + y.toNat := by
  have sum : (x + y).toNat = x.toNat + y.toNat := by rw [UInt32.toNat_add, Nat.mod_eq_of_lt small]
  exact ⟨_, checked_eq_ok ((congrArg Nat.cast sum).trans (Nat.cast_add _ _)), sum⟩

theorem sub_eq_ok (le : y.toNat ≤ x.toNat) : ∃ w, sub x y = .ok w ∧ w.toNat = x.toNat - y.toNat := by
  have difference : (x - y).toNat = x.toNat - y.toNat := UInt32.toNat_sub_of_le x y (UInt32.le_iff_toNat_le.2 le)
  exact ⟨_, checked_eq_ok ((congrArg Nat.cast difference).trans (Nat.cast_sub le)), difference⟩

theorem mul_eq_ok (small : x.toNat * y.toNat < 2 ^ 32) : ∃ w, mul x y = .ok w ∧ w.toNat = x.toNat * y.toNat := by
  have product : (x * y).toNat = x.toNat * y.toNat := by rw [UInt32.toNat_mul, Nat.mod_eq_of_lt small]
  exact ⟨_, checked_eq_ok ((congrArg Nat.cast product).trans (Nat.cast_mul _ _)), product⟩

/-- So many digits can be counted. -/
theorem mul_scale_eq_ok (small : y.toNat ≤ 10001) :
    ∃ w, mul (UInt32.ofNat scale) y = .ok w ∧ w.toNat = scale * y.toNat :=
  mul_eq_ok (x := UInt32.ofNat scale) (by change 20 * y.toNat < _; omega)

theorem divide_eq_ok (n : ℤ) {d : ℤ} (nonzero : d ≠ 0) : divide n d = .ok (RoundingMode.halfEven.divide n d) :=
  if_neg nonzero

/-! ## Powers in range -/

variable {a b : Decimal}

theorem saturatingMul_le_iff (k m : ℕ) : saturatingMul k m ≤ maxPowerBits ↔ k * m ≤ maxPowerBits := by
  have largest : ¬2 ^ 64 - 1 ≤ maxPowerBits := by decide
  exact min_le_iff.trans (or_iff_left largest)

theorem exponent?_eq_ok (other : b.toInt64? ≠ some Int64.minValue) :
    exponent? a b = .ok (powerExponent? a b) := by
  rw [exponent?, powerExponent?]
  cases read : b.toInt64? with
  | none => rfl
  | some n =>
    rw [read] at other
    have apart : n ≠ Int64.minValue := fun least => other (congrArg some least)
    simp only [abs_eq_ok apart, ok_bind, pure_eq_ok, saturatingMul_le_iff, toNat_magnitude, Option.filter_some,
      Bool.and_eq_true, decide_eq_true_eq]

theorem power_eq_ok (a : Decimal) {n : Int64} (positive : 0 < n.toInt) (small : n.toInt.natAbs ≤ 10000) :
    power a n = .ok ⟨RoundingMode.halfEven.divide (a.units ^ n.toInt.natAbs)
      (10 ^ (scale * (n.toInt.natAbs - 1)))⟩ := by
  obtain ⟨m, narrowed, exponent⟩ := narrowSigned_eq_ok (n := n) (by omega) (by omega)
  obtain ⟨k, lessened, factors⟩ := sub_eq_ok (x := m) (y := 1) (by rw [exponent]; change 1 ≤ _; omega)
  have factors : k.toNat = n.toInt.natAbs - 1 := factors.trans (congrArg (· - 1) exponent)
  obtain ⟨places, multiplied, zeros⟩ := mul_scale_eq_ok (y := k) (by omega)
  rw [factors] at zeros
  have divided := divide_eq_ok (a.units ^ n.toInt.natAbs) (d := 10 ^ (scale * (n.toInt.natAbs - 1))) (by positivity)
  simp only [power, narrowed, lessened, multiplied, ok_bind, pure_eq_ok, exponent, zeros, divided]

theorem reciprocal_eq_ok {n : Int64} (nonzero : a.units ≠ 0) (small : n.toInt.natAbs ≤ 10000) :
    reciprocal a n = .ok ⟨RoundingMode.halfEven.divide (10 ^ (scale * (n.toInt.natAbs + 1)))
      (a.units ^ n.toInt.natAbs)⟩ := by
  obtain ⟨m, narrowed, exponent⟩ := narrow_eq_ok (n := magnitude n) (by rw [toNat_magnitude]; omega)
  rw [toNat_magnitude] at exponent
  obtain ⟨k, increased, factors⟩ := add_eq_ok (x := m) (y := 1) (by rw [exponent]; change _ + 1 < _; omega)
  have factors : k.toNat = n.toInt.natAbs + 1 := factors.trans (congrArg (· + 1) exponent)
  obtain ⟨places, multiplied, zeros⟩ := mul_scale_eq_ok (y := k) (by omega)
  rw [factors] at zeros
  have divided := divide_eq_ok (10 ^ (scale * (n.toInt.natAbs + 1))) (pow_ne_zero n.toInt.natAbs nonzero)
  simp only [reciprocal, narrowed, increased, multiplied, ok_bind, pure_eq_ok, exponent, zeros, divided]

theorem pow_eq_ok (a : Decimal) {n : ℤ} (other : n ≠ -2 ^ 63) :
    pow a (ofInt n) = .ok (Decimal.pow a (ofInt n)) := by
  rw [pow, isInteger_ofInt, exponent?_eq_ok (toInt64?_ne_least other), powerExponent?_ofInt a other,
    pow_ofInt a other]
  by_cases feasible : Feasible a n
  · obtain ⟨same, zero, positive⟩ := feasible.toInt_ofInt
    simp only [feasible, ↓reduceIte, Bool.not_true, Bool.false_eq_true, ok_bind, pure_eq_ok, zero, positive,
      wholePower]
    have small : (Int64.ofInt n).toInt.natAbs ≤ 10000 := by rw [same]; exact feasible.exponent
    split
    · rfl
    split
    case isTrue above =>
      have powered := power_eq_ok a (n := Int64.ofInt n) (by rwa [same]) small
      rw [powered, same]
      rfl
    split
    · rfl
    case isFalse nonzero =>
      have nonzero : a.units ≠ 0 := fun zero => nonzero (beq_iff_eq.2 zero)
      rw [reciprocal_eq_ok nonzero small, same]
      rfl
  · simp only [feasible, ↓reduceIte, Bool.not_true, Bool.false_eq_true, ok_bind, pure_eq_ok]

theorem pow_least (a : Decimal) : pow a (ofInt (-2 ^ 63)) = .error .absoluteValue := by
  have read : (ofInt (-2 ^ 63)).toInt64? = some Int64.minValue := by rw [toInt64?_ofInt]; rfl
  have fault : exponent? a (ofInt (-2 ^ 63)) = .error .absoluteValue := by
    rw [exponent?, read]
    rfl
  rw [pow, isInteger_ofInt, fault]
  rfl

/-- A power meets no fault and is the exact computation's, unless its exponent is the least 64-bit integer: then the
absolute value of the exponent overflows. -/
theorem pow_faults_iff (a b : Decimal) :
    (∀ fault, pow a b = .error fault ↔ fault = .absoluteValue ∧ b.value = -2 ^ 63) ∧
      ∀ result, pow a b = .ok result ↔ result = Decimal.pow a b ∧ b.value ≠ -2 ^ 63 := by
  by_cases h : b.value = -2 ^ 63
  · have least : b = ofInt (-2 ^ 63) := eq_ofInt_of_value (h.trans (by norm_num))
    have fault : pow a b = .error .absoluteValue := by rw [least, pow_least]
    rw [fault]
    simp [h, eq_comm]
  · have faultless : pow a b = .ok (Decimal.pow a b) := by
      cases whole : b.isInteger with
      | false =>
        rw [pow, Decimal.pow, whole]
        rfl
      | true =>
        obtain ⟨n, rfl⟩ := exists_ofInt whole
        refine pow_eq_ok a fun same => h ?_
        rw [same, value_ofInt]
        norm_num
    rw [faultless]
    simp [h, eq_comm]

/-- The absolute value that wraps around passes the limits, so that zero is divided by where the exponent is out of
range. -/
theorem pow_least_zero : pow zero (ofInt (-2 ^ 63)) = .error .absoluteValue ∧
    Decimal.pow zero (ofInt (-2 ^ 63)) = .error .divideByZero := by
  exact ⟨pow_least zero, by rfl⟩

end ExactFormula.Decimal.Machine
