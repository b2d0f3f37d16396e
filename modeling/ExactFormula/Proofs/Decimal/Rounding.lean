import Mathlib.Algebra.Order.Field.Basic
import Mathlib.Data.Rat.Cast.Order
import Mathlib.Tactic.FieldSimp
import Mathlib.Tactic.Linarith
import Mathlib.Tactic.Ring
import ExactFormula.Decimal.Rounding

/-!
Rounded division gives the whole number nearest to the exact quotient. At most one whole number is nearest
once ties are settled, so a rounded quotient depends on the value of the fraction alone.
-/

namespace ExactFormula.RoundingMode

/-- How a mode settles the tie between the two whole numbers next to `x`. -/
def Settles (x : ℚ) (u : ℤ) : RoundingMode → Prop
  | halfEven => u % 2 = 0
  | halfUp => |x| < |(u : ℚ)|

/-- The whole number that is nearest to `x` under a mode. -/
structure Nearest (mode : RoundingMode) (x : ℚ) (u : ℤ) : Prop where
  near : |x - u| ≤ 1 / 2
  tied : |x - u| = 1 / 2 → mode.Settles x u

namespace Nearest

variable {mode : RoundingMode} {x : ℚ} {u v : ℤ}

theorem neg (h : Nearest mode x u) : Nearest mode (-x) (-u) := by
  have flipped : |-x - ((-u : ℤ) : ℚ)| = |x - u| := by
    rw [Int.cast_neg, neg_sub_neg, abs_sub_comm]
  refine ⟨flipped ▸ h.near, fun tie => ?_⟩
  have settled := h.tied (flipped ▸ tie)
  cases mode with
  | halfEven =>
    change -u % 2 = 0
    change u % 2 = 0 at settled
    omega
  | halfUp =>
    change |-x| < |((-u : ℤ) : ℚ)|
    rw [Int.cast_neg, abs_neg, abs_neg]
    exact settled

/-- Two neighbours that are both nearest lie half a step to either side. -/
theorem le (hu : Nearest mode x u) (hv : Nearest mode x v) : u ≤ v := by
  by_contra later
  have step : v + 1 ≤ u := by omega
  have apart : (v : ℚ) + 1 ≤ u := by exact_mod_cast step
  have below := abs_le.1 hv.near
  have above := abs_le.1 hu.near
  have low : x - v = 1 / 2 := by linarith
  have high : x - u = -(1 / 2) := by linarith
  have next : u = v + 1 := by
    have : (u : ℚ) = v + 1 := by linarith
    exact_mod_cast this
  have tiedLow := hv.tied (by rw [low]; norm_num)
  have tiedHigh := hu.tied (by rw [high]; norm_num)
  cases mode with
  | halfEven =>
    change v % 2 = 0 at tiedLow
    change u % 2 = 0 at tiedHigh
    omega
  | halfUp =>
    change |x| < |(v : ℚ)| at tiedLow
    change |x| < |(u : ℚ)| at tiedHigh
    -- The neighbour on the side of zero is no farther from zero than `x`.
    rcases le_or_gt 0 v with positive | negative
    · have : (0 : ℚ) ≤ v := by exact_mod_cast positive
      rw [abs_of_nonneg this, abs_of_nonneg (by linarith)] at tiedLow
      linarith
    · have : (u : ℚ) ≤ 0 := by exact_mod_cast (by omega : u ≤ 0)
      rw [abs_of_nonpos this, abs_of_nonpos (by linarith)] at tiedHigh
      linarith

theorem unique (hu : Nearest mode x u) (hv : Nearest mode x v) : u = v := le_antisymm (hu.le hv) (hv.le hu)

theorem whole (mode : RoundingMode) (u : ℤ) : Nearest mode (u : ℚ) u where
  near := by simp
  tied := fun tie => by simp at tie

/-- The whole number below, up to the middle. -/
theorem below {q : ℕ} (least : (q : ℚ) ≤ x) (half : x - q ≤ 1 / 2)
    (tied : x - q = 1 / 2 → mode = halfEven ∧ q % 2 = 0) : Nearest mode x q := by
  have distance : |x - (q : ℤ)| = x - q := abs_of_nonneg (by push_cast; linarith)
  refine ⟨by rwa [distance], fun tie => ?_⟩
  obtain ⟨rfl, even⟩ := tied (distance ▸ tie)
  change (q : ℤ) % 2 = 0
  omega

/-- The whole number above, from the middle on. -/
theorem above {q : ℕ} (half : 1 / 2 ≤ x - q) (next : x ≤ q + 1)
    (tied : x - q = 1 / 2 → mode = halfUp ∨ q % 2 ≠ 0) : Nearest mode x (q + 1 : ℕ) := by
  have distance : |x - ((q + 1 : ℕ) : ℤ)| = q + 1 - x := by
    rw [abs_sub_comm]
    push_cast
    exact abs_of_nonneg (by linarith)
  refine ⟨by rw [distance]; linarith, fun tie => ?_⟩
  rw [distance] at tie
  have positive : (0 : ℚ) ≤ q := by positivity
  have outward : |x| < |(((q + 1 : ℕ) : ℤ) : ℚ)| := by
    push_cast
    rw [abs_of_nonneg (by linarith), abs_of_nonneg (by linarith)]
    linarith
  have settled := tied (by linarith)
  cases mode with
  | halfUp => exact outward
  | halfEven =>
    have odd := settled.resolve_left nofun
    change ((q + 1 : ℕ) : ℤ) % 2 = 0
    omega

end Nearest

/-! ## Rounded division -/

variable {mode : RoundingMode} {n d : ℤ}

/-- Whether the truncated quotient is moved one step away from zero. -/
def Away (mode : RoundingMode) (n d : ℤ) : Prop :=
  d.natAbs < 2 * (n.tmod d).natAbs ∨
    2 * (n.tmod d).natAbs = d.natAbs ∧ (mode = halfUp ∨ n.tdiv d % 2 ≠ 0)

theorem divide_kept (h : ¬mode.Away n d) : mode.divide n d = n.tdiv d := by
  rw [Away, not_or, not_and_or, not_or] at h
  obtain ⟨least, untied⟩ := h
  simp only [divide]
  rcases Nat.lt_trichotomy (2 * (n.tmod d).natAbs) d.natAbs with less | same | more
  · rw [Nat.compare_eq_lt.2 less]
    simp
  · obtain ⟨isEven, even⟩ := untied.resolve_left (fun other => other same)
    rw [Nat.compare_eq_eq.2 same]
    cases mode with
    | halfEven => simp_all
    | halfUp => exact absurd rfl isEven
  · exact absurd more least

theorem divide_away (nonzero : d ≠ 0) (h : mode.Away n d) : mode.divide n d = n.tdiv d + n.sign * d.sign := by
  have moved : n.tmod d ≠ 0 := by
    rcases h with more | ⟨same, -⟩ <;> omega
  have step : (if (n < 0) = (d < 0) then n.tdiv d + 1 else n.tdiv d - 1) = n.tdiv d + n.sign * d.sign := by
    have : n ≠ 0 := by
      rintro rfl
      simp at moved
    rcases lt_or_gt_of_ne this with hn | hn <;> rcases lt_or_gt_of_ne nonzero with hd | hd <;>
      simp [hn, hd, Int.sign_eq_one_of_pos, Int.sign_eq_neg_one_of_neg, not_lt_of_gt] <;> omega
  simp only [divide, step]
  rcases h with more | ⟨same, settled⟩
  · rw [Nat.compare_eq_gt.2 more]
    simp [moved]
  · rw [Nat.compare_eq_eq.2 same]
    rcases settled with rfl | odd
    · simp [moved]
    · simp [moved, odd]

theorem away_neg_left : mode.Away (-n) d ↔ mode.Away n d := by
  have parity : -n.tdiv d % 2 = 0 ↔ n.tdiv d % 2 = 0 := by omega
  simp only [Away, Int.neg_tmod, Int.neg_tdiv, Int.natAbs_neg, ne_eq, parity]

theorem away_neg_right : mode.Away n (-d) ↔ mode.Away n d := by
  have parity : -n.tdiv d % 2 = 0 ↔ n.tdiv d % 2 = 0 := by omega
  simp only [Away, Int.tmod_neg, Int.tdiv_neg, Int.natAbs_neg, ne_eq, parity]

theorem divide_neg_left (mode : RoundingMode) (n : ℤ) (nonzero : d ≠ 0) :
    mode.divide (-n) d = -mode.divide n d := by
  by_cases away : mode.Away n d
  · rw [divide_away nonzero away, divide_away nonzero (away_neg_left.2 away), Int.neg_tdiv, Int.sign_neg]
    ring
  · rw [divide_kept away, divide_kept (away_neg_left.not.2 away), Int.neg_tdiv]

theorem divide_neg_right (mode : RoundingMode) (n : ℤ) (nonzero : d ≠ 0) :
    mode.divide n (-d) = -mode.divide n d := by
  by_cases away : mode.Away n d
  · rw [divide_away nonzero away, divide_away (neg_ne_zero.2 nonzero) (away_neg_right.2 away), Int.tdiv_neg,
      Int.sign_neg]
    ring
  · rw [divide_kept away, divide_kept (away_neg_right.not.2 away), Int.tdiv_neg]

/-- Between natural numbers the rounded quotient is the whole part or the number after it. -/
theorem nearest_divide_nat (mode : RoundingMode) (a : ℕ) {b : ℕ} (positive : 0 < b) :
    Nearest mode (a / b : ℚ) (mode.divide a b) := by
  have scaled : (0 : ℚ) < b := by exact_mod_cast positive
  have remainder : (a / b : ℚ) - (a / b : ℕ) = (a % b : ℕ) / b := by
    have split : (a : ℚ) = b * (a / b : ℕ) + (a % b : ℕ) := by exact_mod_cast (Nat.div_add_mod a b).symm
    field_simp
    linarith
  have proper : ((a % b : ℕ) / b : ℚ) < 1 := by
    rw [div_lt_one scaled]
    exact_mod_cast Nat.mod_lt a positive
  have least : (0 : ℚ) ≤ (a % b : ℕ) / b := by positivity
  have middle : ((a % b : ℕ) / b : ℚ) = 1 / 2 ↔ 2 * (a % b) = b := by
    rw [div_eq_div_iff scaled.ne' two_ne_zero, one_mul, mul_comm]
    exact_mod_cast Iff.rfl
  have moved : mode.Away a b ↔ b < 2 * (a % b) ∨ 2 * (a % b) = b ∧ (mode = halfUp ∨ a / b % 2 ≠ 0) := by
    change b < 2 * (a % b) ∨ 2 * (a % b) = b ∧ (mode = halfUp ∨ ((a / b : ℕ) : ℤ) % 2 ≠ 0) ↔ _
    have : ((a / b : ℕ) : ℤ) % 2 ≠ 0 ↔ a / b % 2 ≠ 0 := by omega
    rw [this]
  by_cases away : mode.Away a b
  · have nonzero : a ≠ 0 := by
      rintro rfl
      rw [moved, Nat.zero_mod] at away
      omega
    have next : mode.divide a b = ((a / b + 1 : ℕ) : ℤ) := by
      rw [divide_away (by omega) away, Int.sign_natCast_of_ne_zero nonzero,
        Int.sign_natCast_of_ne_zero positive.ne']
      rfl
    rw [next]
    refine .above ?_ (by linarith) fun tie => ?_
    · rw [remainder, div_le_div_iff₀ two_pos scaled, one_mul, mul_comm]
      have : b ≤ 2 * (a % b) := by
        rw [moved] at away
        omega
      exact_mod_cast this
    · have := middle.1 (remainder ▸ tie)
      exact ((moved.1 away).resolve_left (by omega)).2
  · have kept : mode.divide a b = ((a / b : ℕ) : ℤ) := divide_kept away
    rw [moved, not_or, not_and_or, not_or] at away
    rw [kept]
    refine .below (by linarith) ?_ fun tie => ?_
    · rw [remainder, div_le_div_iff₀ scaled two_pos, one_mul, mul_comm]
      exact_mod_cast Nat.not_lt.1 away.1
    · have := middle.1 (remainder ▸ tie)
      obtain ⟨isEven, even⟩ := away.2.resolve_left (by omega)
      cases mode with
      | halfEven => exact ⟨rfl, not_not.1 even⟩
      | halfUp => exact absurd rfl isEven

/-- The rounded quotient is nearest to the exact one. -/
theorem nearest_divide (mode : RoundingMode) (n : ℤ) (nonzero : d ≠ 0) :
    Nearest mode (n / d : ℚ) (mode.divide n d) := by
  obtain ⟨a, rfl | rfl⟩ := Int.eq_nat_or_neg n <;> obtain ⟨b, rfl | rfl⟩ := Int.eq_nat_or_neg d
  · simpa using nearest_divide_nat mode a (by omega : 0 < b)
  · rw [divide_neg_right mode _ (by omega)]
    simpa [div_neg] using (nearest_divide_nat mode a (by omega : 0 < b)).neg
  · rw [divide_neg_left mode _ nonzero]
    simpa [neg_div] using (nearest_divide_nat mode a (by omega : 0 < b)).neg
  · rw [divide_neg_left mode _ nonzero, divide_neg_right mode _ (by omega)]
    simpa using nearest_divide_nat mode a (by omega : 0 < b)

end ExactFormula.RoundingMode
