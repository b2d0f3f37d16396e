import ExactFormula.Decimal.Basic
import ExactFormula.Proofs.Decimal.Rounding

/-!
Products and quotients of decimals. Both are the decimal closest to the exact result, and the exact result itself
where it is a decimal.
-/

namespace ExactFormula.Decimal

/-- The rational number that a decimal is. -/
def value (a : Decimal) : ℚ := a.units / 10 ^ scale

/-- Of two decimals that are equally close, the one that a mode takes: the one with an even count of units, or the one
farther from zero. -/
def Takes (a b : Decimal) : RoundingMode → Prop
  | .halfEven => a.units % 2 = 0
  | .halfUp => |b.value| < |a.value|

/-- No decimal is closer to `x`, and of two that are closest it is the one that the mode takes. -/
structure Closest (mode : RoundingMode) (x : ℚ) (a : Decimal) : Prop where
  near : ∀ b : Decimal, |x - a.value| ≤ |x - b.value|
  tied : ∀ b : Decimal, b ≠ a → |x - b.value| = |x - a.value| → a.Takes b mode

/-- At most so many digits stand behind the point. -/
def HasPlaces (places : ℕ) (x : ℚ) : Prop := ∃ k : ℤ, x * 10 ^ places = k

variable {mode : RoundingMode} {x : ℚ} {a b : Decimal}

/-! ## Values -/

theorem value_mul_scale (a : Decimal) : a.value * 10 ^ scale = a.units := by
  rw [value, div_mul_cancel₀ _ (by positivity)]

theorem eq_of_units (h : a.units = b.units) : a = b := by
  cases a
  exact congrArg mk h

theorem value_injective (h : a.value = b.value) : a = b := by
  have units : (a.units : ℚ) = b.units := by rw [← value_mul_scale, ← value_mul_scale, h]
  exact eq_of_units (by exact_mod_cast units)

theorem value_eq_zero_iff : a.value = 0 ↔ a.units = 0 := by
  simp [value]

theorem value_le_iff (a b : Decimal) : a.value ≤ b.value ↔ a.units ≤ b.units := by
  unfold value
  rw [div_le_div_iff_of_pos_right (by positivity)]
  exact_mod_cast Iff.rfl

theorem value_add (a b : Decimal) : (a + b).value = a.value + b.value := by
  simp [value, add_div]

theorem value_neg (a : Decimal) : (-a).value = -a.value := by
  simp [value, neg_div]

theorem value_div_value (a b : Decimal) : a.value / b.value = a.units / b.units := by
  unfold value
  field_simp

theorem cast_tens (k : ℕ) : ((Nat.pow 10 k : ℕ) : ℤ) = 10 ^ k := Nat.cast_pow 10 k

theorem whole_cast : ((whole : ℤ) : ℚ) = 10 ^ scale := by
  norm_num [whole, scale]

theorem value_ofInt (i : ℤ) : (ofInt i).value = i := by
  rw [value, ofInt, Int.cast_mul, whole_cast, mul_div_cancel_right₀ _ (by positivity)]

theorem ofInt_inj (i j : ℤ) : ofInt i = ofInt j ↔ i = j := by
  constructor
  · intro same
    have values := congrArg value same
    rw [value_ofInt, value_ofInt] at values
    exact_mod_cast values
  · rintro rfl
    rfl

/-- A number with as many places as decimals have is one. -/
theorem HasPlaces.exists_value (h : HasPlaces scale x) : ∃ a : Decimal, a.value = x := by
  obtain ⟨k, hk⟩ := h
  exact ⟨⟨k⟩, by rw [value, ← hk, mul_div_cancel_right₀ _ (by positivity)]⟩

/-! ## Closest decimals -/

section

variable {y : ℚ} {u v : ℤ}

theorem one_le_distances (other : v ≠ u) (y : ℚ) : 1 ≤ |y - u| + |y - v| := by
  have apart : (1 : ℚ) ≤ |(u : ℚ) - v| := by exact_mod_cast Int.one_le_abs (sub_ne_zero.2 other.symm)
  calc 1 ≤ |(u : ℚ) - v| := apart
    _ ≤ |u - y| + |y - v| := abs_sub_le _ _ _
    _ = |y - u| + |y - v| := by rw [abs_sub_comm (u : ℚ)]

theorem near_of_nearest (h : RoundingMode.Nearest mode y u) (v : ℤ) : |y - u| ≤ |y - v| := by
  by_cases other : v = u
  · rw [other]
  · linarith [h.near, one_le_distances other y]

/-- Another whole number is as close only where both are half a step away. -/
theorem half_of_tie (h : RoundingMode.Nearest mode y u) (other : v ≠ u) (tie : |y - v| = |y - u|) :
    |y - u| = 1 / 2 := by
  linarith [h.near, one_le_distances other y]

/-- Of two that are equally close, the one that is not nearest is on the side of zero. -/
theorem away_of_nearest (h : RoundingMode.Nearest .halfUp y u) (other : v ≠ u) (tie : |y - v| = |y - u|) :
    |(v : ℚ)| < |(u : ℚ)| := by
  have half := half_of_tie h other tie
  have outward : |y| < |(u : ℚ)| := h.tied half
  have middle : y - v = -(y - u) := by
    refine (abs_eq_abs.1 tie).resolve_left fun same => other ?_
    have : (v : ℚ) = u := by linarith
    exact_mod_cast this
  rcases (abs_eq (by norm_num)).1 half with up | down
  · -- `y` is above `u`, which is below zero then.
    have next : v = u + 1 := by
      have : (v : ℚ) = u + 1 := by linarith
      exact_mod_cast this
    have negative : u < 0 := by
      by_contra positive
      have : (0 : ℚ) ≤ u := by exact_mod_cast not_lt.1 positive
      rw [abs_of_nonneg this, abs_of_nonneg (by linarith)] at outward
      linarith
    have closer : |v| < |u| := by
      rw [abs_of_nonpos (by omega), abs_of_neg negative]
      omega
    exact_mod_cast closer
  · have next : u = v + 1 := by
      have : (u : ℚ) = v + 1 := by linarith
      exact_mod_cast this
    have positive : 0 < u := by
      by_contra negative
      have : (u : ℚ) ≤ 0 := by exact_mod_cast not_lt.1 negative
      rw [abs_of_nonpos this, abs_of_nonpos (by linarith)] at outward
      linarith
    have closer : |v| < |u| := by
      rw [abs_of_nonneg (by omega), abs_of_pos positive]
      omega
    exact_mod_cast closer

end

/-! ## Closest multiples -/

/-- Of two multiples that are equally close, the one that a mode takes: the one whose last kept digit is even, or the
one farther from zero. -/
def Favours (places : ℕ) (y z : ℚ) : RoundingMode → Prop
  | .halfEven => ∃ k : ℤ, y * 10 ^ places = 2 * k
  | .halfUp => |z| < |y|

/-- No number with so many places is closer to `x` than `y`, and of two that are closest it is the one that the mode
takes. -/
structure RoundsTo (mode : RoundingMode) (places : ℕ) (x y : ℚ) : Prop where
  kept : HasPlaces places y
  near : ∀ z, HasPlaces places z → |x - y| ≤ |x - z|
  tied : ∀ z, HasPlaces places z → z ≠ y → |x - z| = |x - y| → Favours places y z mode

theorem distance_eq (places : ℕ) (x y : ℚ) : |x - y| = |x * 10 ^ places - y * 10 ^ places| / 10 ^ places := by
  have positive : (0 : ℚ) < 10 ^ places := by positivity
  rw [eq_div_iff positive.ne', ← sub_mul, abs_mul, abs_of_pos positive]

/-- A whole number that is nearest to a count of steps gives the closest multiple of a step. -/
theorem roundsTo_of_nearest {places : ℕ} {y : ℚ} {u : ℤ} (count : y * 10 ^ places = u)
    (h : RoundingMode.Nearest mode (x * 10 ^ places) u) : RoundsTo mode places x y where
  kept := ⟨u, count⟩
  near z hz := by
    obtain ⟨v, hv⟩ := hz
    rw [distance_eq places x y, distance_eq places x z, count, hv]
    exact div_le_div_of_nonneg_right (near_of_nearest h v) (by positivity)
  tied z hz other tie := by
    obtain ⟨v, hv⟩ := hz
    have positive : (0 : ℚ) < 10 ^ places := by positivity
    have apart : v ≠ u := fun same => other (mul_right_cancel₀ positive.ne' (by rw [hv, count, same]))
    rw [distance_eq places x y, distance_eq places x z, count, hv, div_left_inj' positive.ne'] at tie
    cases mode with
    | halfEven =>
      have even : u % 2 = 0 := h.tied (half_of_tie h apart tie)
      obtain ⟨k, rfl⟩ := Int.dvd_of_emod_eq_zero even
      exact ⟨k, by rw [count, Int.cast_mul, Int.cast_ofNat]⟩
    | halfUp =>
      have farther := away_of_nearest h apart tie
      rw [← count, ← hv, abs_mul, abs_mul, mul_lt_mul_iff_left₀ (abs_pos.2 positive.ne')] at farther
      exact farther

theorem hasPlaces_value (a : Decimal) : HasPlaces scale a.value := ⟨a.units, value_mul_scale a⟩

/-- A whole number that is nearest to the units of `x` is the count of units of the closest decimal. -/
theorem closest_of_nearest (h : RoundingMode.Nearest mode (x * 10 ^ scale) a.units) : Closest mode x a := by
  have rounded := roundsTo_of_nearest (value_mul_scale a) h
  refine ⟨fun b => rounded.near b.value (hasPlaces_value b), fun b other tie => ?_⟩
  have favoured := rounded.tied b.value (hasPlaces_value b) (fun same => other (value_injective same)) tie
  cases mode with
  | halfEven =>
    obtain ⟨k, even⟩ := favoured
    rw [value_mul_scale] at even
    have even : a.units = 2 * k := by exact_mod_cast even
    change a.units % 2 = 0
    omega
  | halfUp => exact favoured

/-- The decimal closest to a decimal is that decimal. -/
theorem Closest.eq_of_value (h : Closest mode b.value a) : a = b := by
  have near := h.near b
  rw [sub_self, abs_zero] at near
  exact (value_injective (sub_eq_zero.1 (abs_nonpos_iff.1 near))).symm

/-- A decimal that is not above a number is not above the decimal closest to it. -/
theorem Closest.le_value (h : Closest mode x a) (le : b.value ≤ x) : b.value ≤ a.value := by
  by_contra lt
  have near := h.near b
  rw [abs_of_nonneg (by linarith), abs_of_nonneg (by linarith)] at near
  linarith

theorem Closest.value_le (h : Closest mode x a) (le : x ≤ b.value) : a.value ≤ b.value := by
  by_contra lt
  have near := h.near b
  rw [abs_of_nonpos (by linarith), abs_of_nonpos (by linarith)] at near
  linarith

/-! ## Products and quotients -/

theorem closest_mulWith (mode : RoundingMode) (a b : Decimal) :
    Closest mode (a.value * b.value) (mulWith mode a b) := by
  have exact_units : a.value * b.value * 10 ^ scale = ((a.units * b.units : ℤ) : ℚ) / (whole : ℤ) := by
    rw [whole_cast, eq_div_iff (by positivity), Int.cast_mul, ← value_mul_scale a, ← value_mul_scale b]
    ring
  refine closest_of_nearest ?_
  rw [exact_units]
  exact RoundingMode.nearest_divide mode _ (by decide)

theorem divWith_eq_ok (mode : RoundingMode) (a : Decimal) (nonzero : b.value ≠ 0) :
    divWith mode a b = .ok ⟨mode.divide (a.units * whole) b.units⟩ := by
  have : b.isZero = false := by
    rw [isZero, beq_eq_false_iff_ne]
    exact value_eq_zero_iff.not.1 nonzero
  rw [divWith, this]
  rfl

theorem closest_divWith (mode : RoundingMode) (a : Decimal) (nonzero : b.value ≠ 0) :
    ∃ q, divWith mode a b = .ok q ∧ Closest mode (a.value / b.value) q := by
  refine ⟨_, divWith_eq_ok mode a nonzero, closest_of_nearest ?_⟩
  have exact_units : a.value / b.value * 10 ^ scale = ((a.units * whole : ℤ) : ℚ) / b.units := by
    rw [Int.cast_mul, whole_cast, ← value_mul_scale a, ← value_mul_scale b]
    field_simp
  rw [exact_units]
  exact RoundingMode.nearest_divide mode _ (value_eq_zero_iff.not.1 nonzero)

theorem divWith_eq_error_iff (mode : RoundingMode) (a b : Decimal) (e : DecimalError) :
    divWith mode a b = .error e ↔ e = .divideByZero ∧ b.value = 0 := by
  by_cases zero : b.value = 0
  · have : b.isZero = true := by
      rw [isZero, beq_iff_eq]
      exact value_eq_zero_iff.1 zero
    rw [divWith, if_pos this, Except.error.injEq]
    exact ⟨fun same => ⟨same.symm, zero⟩, fun h => h.1.symm⟩
  · rw [divWith_eq_ok mode a zero]
    exact ⟨nofun, fun h => absurd h.2 zero⟩

theorem mulWith_neg_left (mode : RoundingMode) (a b : Decimal) : mulWith mode (-a) b = -mulWith mode a b := by
  rw [mulWith, units_neg, neg_mul, RoundingMode.divide_neg_left _ _ (by decide)]
  rfl

theorem mulWith_comm (mode : RoundingMode) (a b : Decimal) : mulWith mode a b = mulWith mode b a := by
  rw [mulWith, mul_comm, mulWith]

theorem divWith_neg_left (mode : RoundingMode) (a b : Decimal) :
    divWith mode (-a) b = (divWith mode a b).map (-·) := by
  rw [divWith, divWith]
  split
  · rfl
  case isFalse nonzero =>
    rw [units_neg, neg_mul, RoundingMode.divide_neg_left _ _ (by simpa [isZero] using nonzero)]
    rfl

theorem divWith_neg_right (mode : RoundingMode) (a b : Decimal) :
    divWith mode a (-b) = (divWith mode a b).map (-·) := by
  have same : (-b).isZero = b.isZero := by simp [isZero]
  rw [divWith, divWith, same]
  split
  · rfl
  case isFalse nonzero =>
    rw [units_neg, RoundingMode.divide_neg_right _ _ (by simpa [isZero] using nonzero)]
    rfl

theorem value_mulWith (mode : RoundingMode) (exact_ : HasPlaces scale (a.value * b.value)) :
    (mulWith mode a b).value = a.value * b.value := by
  obtain ⟨c, same⟩ := exact_.exists_value
  have closest := closest_mulWith mode a b
  rw [← same] at closest ⊢
  rw [closest.eq_of_value]

theorem divWith_of_value (mode : RoundingMode) (nonzero : b.value ≠ 0) {c : Decimal}
    (same : a.value / b.value = c.value) : divWith mode a b = .ok c := by
  obtain ⟨q, ok, closest⟩ := closest_divWith mode a nonzero
  rw [same] at closest
  rw [ok, closest.eq_of_value]

/-- Products and quotients are rounded once, to the closest decimal. Only the divisor zero has no quotient. Both
operations are odd in each argument and exact where the exact result is a decimal; a factor comes back from an exact
product. -/
theorem mulWith_divWith_closest (mode : RoundingMode) (a b : Decimal) :
    Closest mode (a.value * b.value) (mulWith mode a b) ∧
      (b.value ≠ 0 → ∃ q, divWith mode a b = .ok q ∧ Closest mode (a.value / b.value) q) ∧
      (∀ e, divWith mode a b = .error e ↔ e = .divideByZero ∧ b.value = 0) ∧
      (mulWith mode (-a) b = -mulWith mode a b ∧ mulWith mode a (-b) = -mulWith mode a b ∧
        divWith mode (-a) b = (divWith mode a b).map (-·) ∧ divWith mode a (-b) = (divWith mode a b).map (-·)) ∧
      mulWith mode a b = mulWith mode b a ∧
      (HasPlaces scale (a.value * b.value) → (mulWith mode a b).value = a.value * b.value) ∧
      (b.value ≠ 0 → HasPlaces scale (a.value / b.value) →
        ∃ q, divWith mode a b = .ok q ∧ q.value = a.value / b.value) ∧
      (b.value ≠ 0 → HasPlaces scale (a.value * b.value) → ∀ mode', divWith mode' (mulWith mode a b) b = .ok a) := by
  refine ⟨closest_mulWith mode a b, closest_divWith mode a, divWith_eq_error_iff mode a b,
    ⟨mulWith_neg_left mode a b, ?_, divWith_neg_left mode a b, divWith_neg_right mode a b⟩, mulWith_comm mode a b,
    value_mulWith mode, fun nonzero exact_ => ?_, fun nonzero exact_ mode' => divWith_of_value mode' nonzero ?_⟩
  · rw [mulWith_comm, mulWith_neg_left, mulWith_comm]
  · obtain ⟨q, same⟩ := exact_.exists_value
    exact ⟨q, divWith_of_value mode nonzero same.symm, same⟩
  · rw [value_mulWith mode exact_, mul_div_cancel_right₀ _ nonzero]

/-- A quotient that is exact, and a factor that comes back from a product. -/
theorem mulWith_divWith_closest_eighths : (ofInt 8).value ≠ 0 ∧
    HasPlaces scale ((ofInt (-3)).value / (ofInt 8).value) ∧ HasPlaces scale ((ofInt (-3)).value * (ofInt 8).value) ∧
      (∃ q, divWith .halfUp (ofInt (-3)) (ofInt 8) = .ok q ∧ q.value = (ofInt (-3)).value / (ofInt 8).value) ∧
      divWith .halfEven (mulWith .halfUp (ofInt (-3)) (ofInt 8)) (ofInt 8) = .ok (ofInt (-3)) := by
  have nonzero : (ofInt 8).value ≠ 0 := by
    rw [value_ofInt]
    norm_num
  have quotient : HasPlaces scale ((ofInt (-3)).value / (ofInt 8).value) := by
    refine ⟨-37500000000000000000, ?_⟩
    rw [value_ofInt, value_ofInt]
    norm_num [scale]
  have product : HasPlaces scale ((ofInt (-3)).value * (ofInt 8).value) := by
    refine ⟨-2400000000000000000000, ?_⟩
    rw [value_ofInt, value_ofInt]
    norm_num [scale]
  obtain ⟨-, -, -, -, -, -, divided, back⟩ := mulWith_divWith_closest .halfUp (ofInt (-3)) (ofInt 8)
  exact ⟨nonzero, quotient, product, divided nonzero quotient, back nonzero product .halfEven⟩

example : (mulWith .halfEven ⟨1⟩ ⟨-50000000000000000000⟩, mulWith .halfUp ⟨1⟩ ⟨-50000000000000000000⟩) =
    (⟨0⟩, ⟨-1⟩) := by
  decide

end ExactFormula.Decimal
