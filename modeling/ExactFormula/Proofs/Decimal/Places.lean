import ExactFormula.Proofs.Decimal.Arithmetic

/-!
Rounding to a number of places. A rounded decimal is the closest number with so many places, and all else about rounding
follows from that: it keeps the order and the sign, and it changes nothing that has no more places already.
-/

namespace ExactFormula.Decimal

variable {mode : RoundingMode} {places : ℕ} {x y u v : ℚ}

/-! ## Closest multiples -/

theorem HasPlaces.mono {finer : ℕ} (h : HasPlaces places x) (le : places ≤ finer) : HasPlaces finer x := by
  obtain ⟨k, hk⟩ := h
  refine ⟨k * 10 ^ (finer - places), ?_⟩
  rw [← Nat.add_sub_cancel' le, pow_add, ← mul_assoc, hk, Nat.add_sub_cancel_left]
  push_cast
  rfl

/-- Of two numbers the larger one is closer only from the middle on. -/
theorem middle_le (lt : v < u) (near : |x - u| ≤ |x - v|) : (u + v) / 2 ≤ x := by
  by_contra below
  have outer : |x - u| = u - x := by
    rw [abs_sub_comm]
    exact abs_of_nonneg (by linarith)
  have inner : |x - v| < u - x := abs_lt.2 ⟨by linarith, by linarith⟩
  linarith

theorem le_middle (lt : v < u) (near : |x - v| ≤ |x - u|) : x ≤ (u + v) / 2 := by
  have flipped (w : ℚ) : |-x - -w| = |x - w| := by rw [neg_sub_neg, abs_sub_comm]
  have middle := middle_le (neg_lt_neg lt) (x := -x) (by rwa [flipped, flipped])
  linarith

namespace RoundsTo

theorem refl (kept : HasPlaces places x) : RoundsTo mode places x x where
  kept := kept
  near z _ := by
    rw [sub_self, abs_zero]
    exact abs_nonneg _
  tied z _ other tie := by
    rw [sub_self, abs_zero, abs_eq_zero, sub_eq_zero] at tie
    exact absurd tie.symm other

theorem eq_of_hasPlaces (h : RoundsTo mode places x u) (kept : HasPlaces places x) : u = x := by
  have near := h.near x kept
  rw [sub_self, abs_zero] at near
  exact (sub_eq_zero.1 (abs_nonpos_iff.1 near)).symm

/-- Two that are equally close lie to either side of the middle, which is not a multiple itself. -/
theorem unique (hu : RoundsTo mode places x u) (hv : RoundsTo mode places x v) : u = v := by
  by_contra other
  have tie : |x - u| = |x - v| := le_antisymm (hu.near v hv.kept) (hv.near u hu.kept)
  have first := hu.tied v hv.kept (Ne.symm other) tie.symm
  have second := hv.tied u hu.kept other tie
  cases mode with
  | halfUp => exact lt_asymm first second
  | halfEven =>
    obtain ⟨k, hk⟩ := first
    obtain ⟨l, hl⟩ := second
    have middle : x - u = -(x - v) := (abs_eq_abs.1 tie).resolve_left fun same => other (by linarith)
    have whole : HasPlaces places x := by
      refine ⟨k + l, ?_⟩
      have sum : 2 * (x * 10 ^ places) = u * 10 ^ places + v * 10 ^ places := by
        rw [← add_mul, ← mul_assoc]
        congr 1
        linarith
      push_cast
      linarith
    exact other ((hu.eq_of_hasPlaces whole).trans (hv.eq_of_hasPlaces whole).symm)

theorem mono (hu : RoundsTo mode places x u) (hv : RoundsTo mode places y v) (le : x ≤ y) : u ≤ v := by
  rcases le.eq_or_lt with rfl | lt
  · exact (hu.unique hv).le
  · by_contra later
    have below := middle_le (not_le.1 later) (hu.near v hv.kept)
    have above := le_middle (not_le.1 later) (hv.near u hu.kept)
    linarith

end RoundsTo

/-! ## Rounding -/

theorem roundTo_of_scale_le (mode : RoundingMode) (le : scale ≤ places) (a : Decimal) : roundTo mode places a = a :=
  if_pos le

theorem roundsTo_roundTo (mode : RoundingMode) (places : ℕ) (a : Decimal) :
    RoundsTo mode places a.value (roundTo mode places a).value := by
  by_cases le : scale ≤ places
  · rw [roundTo_of_scale_le mode le]
    exact .refl ((hasPlaces_value a).mono le)
  · obtain ⟨coarse, split⟩ : ∃ coarse, scale = coarse + places := Nat.exists_eq_add_of_le' (not_le.1 le).le
    have rounded : roundTo mode places a = ⟨mode.divide a.units (10 ^ coarse) * 10 ^ coarse⟩ := by
      rw [roundTo, if_neg le, split, Nat.add_sub_cancel, cast_tens]
    have count (b : Decimal) : b.value * 10 ^ places = b.units / (10 ^ coarse : ℤ) := by
      rw [value, split, pow_add]
      push_cast
      field_simp
    rw [rounded]
    refine roundsTo_of_nearest (u := mode.divide a.units (10 ^ coarse)) ?_ ?_
    · rw [count]
      push_cast
      field_simp
    · rw [count]
      exact_mod_cast RoundingMode.nearest_divide mode a.units (d := 10 ^ coarse) (by positivity)

theorem roundTo_neg (mode : RoundingMode) (places : ℕ) (a : Decimal) :
    roundTo mode places (-a) = -roundTo mode places a := by
  rw [roundTo, roundTo]
  split
  · rfl
  · rw [units_neg, cast_tens, RoundingMode.divide_neg_left _ _ (by positivity), neg_mul]
    rfl

theorem roundTo_of_hasPlaces (mode : RoundingMode) {a : Decimal} (kept : HasPlaces places a.value) :
    roundTo mode places a = a :=
  value_injective ((roundsTo_roundTo mode places a).eq_of_hasPlaces kept)

/-- Rounding gives the closest number with so many places, and a decimal that has no more places is its own. It is
idempotent, odd and monotone, and a later rounding to as many or more places changes nothing. -/
theorem roundTo_closest (mode : RoundingMode) (places : ℕ) (a : Decimal) :
    (∀ y : ℚ, RoundsTo mode places a.value y ↔ y = (roundTo mode places a).value) ∧
      (scale ≤ places → roundTo mode places a = a) ∧
      roundTo mode places (roundTo mode places a) = roundTo mode places a ∧
      roundTo mode places (-a) = -roundTo mode places a ∧
      (∀ b : Decimal, a.value ≤ b.value → (roundTo mode places a).value ≤ (roundTo mode places b).value) ∧
      (HasPlaces places a.value → roundTo mode places a = a) ∧
      ∀ mode' finer, places ≤ finer → roundTo mode' finer (roundTo mode places a) = roundTo mode places a := by
  have rounds := roundsTo_roundTo mode places a
  refine ⟨fun y => ⟨fun h => h.unique rounds, ?_⟩, fun le => roundTo_of_scale_le mode le a,
    roundTo_of_hasPlaces mode rounds.kept, roundTo_neg mode places a,
    fun b le => rounds.mono (roundsTo_roundTo mode places b) le, roundTo_of_hasPlaces mode,
    fun mode' finer le => roundTo_of_hasPlaces mode' (rounds.kept.mono le)⟩
  rintro rfl
  exact rounds

/-- `0.005` -/
def halfCent : Decimal := ⟨500000000000000000⟩

/-- Ties to two places on either side of zero, and three places that are kept. -/
theorem roundTo_closest_halfCent : (-halfCent).value ≤ halfCent.value ∧ HasPlaces 3 halfCent.value ∧
    roundTo .halfUp 2 halfCent = ⟨1000000000000000000⟩ ∧ roundTo .halfEven 2 halfCent = zero ∧
    (roundTo .halfUp 2 (-halfCent)).value ≤ (roundTo .halfUp 2 halfCent).value ∧
    roundTo .halfEven 3 halfCent = halfCent ∧ roundTo .halfEven scale halfCent = halfCent ∧
    roundTo .halfEven 7 (roundTo .halfUp 2 (-halfCent)) = roundTo .halfUp 2 (-halfCent) := by
  have order : (-halfCent).value ≤ halfCent.value := by norm_num [value, halfCent, scale]
  have kept : HasPlaces 3 halfCent.value := ⟨5, by norm_num [value, halfCent, scale]⟩
  obtain ⟨-, -, -, -, monotone, -, later⟩ := roundTo_closest .halfUp 2 (-halfCent)
  obtain ⟨-, -, -, -, -, fixed, -⟩ := roundTo_closest .halfEven 3 halfCent
  obtain ⟨-, unrounded, -⟩ := roundTo_closest .halfEven scale halfCent
  exact ⟨order, kept, by decide, by decide, monotone halfCent order, fixed kept, unrounded le_rfl,
    later .halfEven 7 (by decide)⟩

end ExactFormula.Decimal
