import ExactFormula.Proofs.Decimal.Outcome
import ExactFormula.Proofs.Decimal.Power

/-!
Conversions between decimals and whole numbers. A mantissa with places behind the point is converted to the decimal that
is read from its plain text, and a decimal is converted to a machine integer exactly if it is that integer.
-/

namespace ExactFormula.Decimal

open Json (Digits)

/-! ## Plain texts -/

/-- Digits with zeros in front of them, so many in all. -/
def paddedDigits (places n : ℕ) : List Char := (Nat.toDigits 10 n).leftpad places '0'

/-- The text of `m * 10⁻ᵏ` without an exponent: behind the point there are exactly `k` digits. -/
def plainChars (m : ℤ) (places : ℕ) : List Char :=
  (if m < 0 then ['-'] else []) ++ (Nat.toDigits 10 (m.natAbs / 10 ^ places) ++
    if places = 0 then [] else '.' :: paddedDigits places (m.natAbs % 10 ^ places))

theorem digits_toDigits (n : ℕ) : Digits (Nat.toDigits 10 n) :=
  fun _ mem => Nat.isDigit_of_mem_toDigits (by decide) (by decide) mem

theorem digits_paddedDigits (places n : ℕ) : Digits (paddedDigits places n) := by
  intro c mem
  rcases List.mem_append.1 mem with zero | digit
  · rw [List.eq_of_mem_replicate zero]
    rfl
  · exact digits_toDigits n c digit

theorem length_paddedDigits {places n : ℕ} (positive : 0 < places) (fits : n < 10 ^ places) :
    (paddedDigits places n).length = places := by
  rw [paddedDigits, List.length_leftpad]
  exact max_eq_left ((Nat.length_toDigits_le_iff (by decide) positive).2 fits)

theorem digitValue_toDigits (n : ℕ) : digitValue (Nat.toDigits 10 n) = n := Nat.ofDigitChars_ten_toDigits

theorem digitValue_paddedDigits (places n : ℕ) : digitValue (paddedDigits places n) = n := by
  rw [paddedDigits, List.leftpad, digitValue_append, digitValue_zeros, mul_zero, zero_add, digitValue_toDigits]

theorem ungapped_digits {ds : List Char} (h : Digits ds) : ungapped ds = ds := by
  apply List.filter_eq_self.2
  intro c mem
  rw [bne_iff_ne]
  rintro rfl
  exact h.gapless mem

section

variable (m : ℤ) (places : ℕ)

def plainFraction : Option (List Char) :=
  if places = 0 then none else some (paddedDigits places (m.natAbs % 10 ^ places))

theorem digits_plainFraction : Digits ((plainFraction m places).getD []) := by
  unfold plainFraction
  split
  · exact List.forall_mem_nil _
  · exact digits_paddedDigits _ _

theorem length_plainFraction : ((plainFraction m places).getD []).length = places := by
  unfold plainFraction
  split
  case isTrue zero => exact zero.symm
  case isFalse nonzero =>
    exact length_paddedDigits (Nat.pos_of_ne_zero nonzero) (Nat.mod_lt _ (by positivity))

theorem digitValue_plainFraction : digitValue ((plainFraction m places).getD []) = m.natAbs % 10 ^ places := by
  unfold plainFraction
  split
  case isTrue zero => simp [zero, Nat.mod_one]
  case isFalse => exact digitValue_paddedDigits _ _

theorem digits_plain : Digits (Nat.toDigits 10 (m.natAbs / 10 ^ places) ++ (plainFraction m places).getD []) :=
  List.forall_mem_append.2 ⟨digits_toDigits _, digits_plainFraction m places⟩

/-- The plain text as a numeral. -/
def plainNumeral : Numeral where
  sign := if m < 0 then .minus else .none
  whole := Nat.toDigits 10 (m.natAbs / 10 ^ places)
  fraction := plainFraction m places
  power := none
  gapped := Json.digitOrGap (digits_plain m places)
  shown := by
    obtain ⟨c, cs, split⟩ := List.exists_cons_of_ne_nil (Nat.toDigits_ne_nil (n := m.natAbs / 10 ^ places) (b := 10))
    have mem : c ∈ Nat.toDigits 10 (m.natAbs / 10 ^ places) := by simp [split]
    exact ⟨c, List.mem_append_left _ mem, digits_toDigits _ c mem⟩
  starts := by
    intro gap
    exact (digits_toDigits _).gapless (List.mem_of_mem_head? gap)

theorem chars_plainNumeral : (plainNumeral m places).chars = plainChars m places := by
  have sign : (if m < 0 then Sign.minus else Sign.none).chars = if m < 0 then ['-'] else [] := by
    split <;> rfl
  simp only [Numeral.chars, Numeral.mantissa, plainNumeral, sign, plainChars, plainFraction]
  by_cases zero : places = 0 <;> simp [zero]

theorem places_plainNumeral : (plainNumeral m places).places = places := by
  rw [Numeral.places, plainNumeral, ungapped_digits (digits_plainFraction m places), length_plainFraction]

theorem value_plainNumeral : (plainNumeral m places).value = m / 10 ^ places := by
  have digits : (plainNumeral m places).significand = m.natAbs := by
    rw [Numeral.significand, plainNumeral, ungapped_digits (digits_plain m places), digitValue_append,
      digitValue_toDigits, digitValue_plainFraction, length_plainFraction, Nat.div_add_mod]
  have signed : (plainNumeral m places).sign.factor * (m.natAbs : ℤ) = m := by
    rw [Sign.factor_eq, plainNumeral]
    by_cases negative : m < 0 <;> simp only [negative, ↓reduceIte, reduceCtorEq] <;> omega
  have power : (plainNumeral m places).power = none := rfl
  rw [Numeral.value, digits, places_plainNumeral, power, ← Int.cast_natCast m.natAbs, ← Int.cast_mul, signed]
  simp [zpow_neg, div_eq_mul_inv]

end

/-! ## Mantissas -/

/-- The converted mantissa is nearest to the exact number of units, ties to even. -/
theorem nearest_ofMantissa (m : ℤ) (places : ℕ) :
    RoundingMode.Nearest .halfEven (m / 10 ^ places * 10 ^ scale) (ofMantissa m places).units := by
  unfold ofMantissa
  split
  case isTrue fits =>
    obtain ⟨rest, split⟩ := Nat.exists_eq_add_of_le fits
    have exact_units : (m / 10 ^ places * 10 ^ scale : ℚ) = ((m * Nat.pow 10 (scale - places) : ℤ) : ℚ) := by
      rw [split, Nat.add_sub_cancel_left, cast_tens, pow_add]
      push_cast
      field_simp
    rw [exact_units]
    exact .whole _ _
  case isFalse exceeds =>
    obtain ⟨rest, split⟩ := Nat.exists_eq_add_of_le (not_le.1 exceeds).le
    have exact_units : (m / 10 ^ places * 10 ^ scale : ℚ) = m / ((Nat.pow 10 (places - scale) : ℕ) : ℤ) := by
      rw [split, Nat.add_sub_cancel_left, cast_tens, pow_add]
      push_cast
      field_simp
    rw [exact_units, cast_tens]
    exact RoundingMode.nearest_divide _ m (by positivity)

/-- The plain text is read as the converted mantissa, for any count of places that fits a machine word. -/
theorem parse_plainChars (m : ℤ) (places : UInt32) :
    parse (String.ofList (plainChars m places.toNat)) = .ok (ofMantissa m places.toNat) := by
  generalize word : places.toNat = k
  have small : k < 2 ^ 32 := word ▸ places.toNat_lt
  have solid := solid_of_isNumeral (plainNumeral m k).isNumeral_chars
  have spelled : Text.trim (String.ofList (plainChars m k)).toList = (plainNumeral m k).chars := by
    rw [String.toList_ofList, ← chars_plainNumeral, solid.trimmed]
  have inRange : ∀ p ∈ (plainNumeral m k).power, p.InRange := nofun
  have least : -4294967295 ≤ (plainNumeral m k).shift := by
    rw [Numeral.shift, places_plainNumeral]
    simp only [plainNumeral, Option.map_none, Option.getD_none]
    omega
  have read := (readUnits_eq_some_iff (plainNumeral m k) _).2 ⟨inRange, least, rfl⟩
  have nearest := readUnits_nearest _ read
  rw [value_plainNumeral] at nearest
  rw [parse, parseChars_numeral spelled, read, nearest.unique (nearest_ofMantissa m k)]

example : (plainChars (-15) 21, ofMantissa (-15) 21) = ("-0.000000000000000000015".toList, ⟨-2⟩) := by rfl

theorem parse_toString (i : ℤ) : parse (toString i) = .ok (ofInt i) := by
  have text : toString i = String.ofList (plainChars i (0 : UInt32).toNat) := by
    rw [Int.toString_eq_repr, Int.repr_eq_if]
    have zero : (0 : UInt32).toNat = 0 := rfl
    by_cases negative : i < 0
    · have magnitude : (-i).toNat = i.natAbs := by omega
      rw [if_neg (not_le.2 negative), magnitude, ← String.toList_inj]
      simp [plainChars, negative, zero]
    · have magnitude : i.toNat = i.natAbs := by omega
      rw [if_pos (not_lt.1 negative), magnitude, ← String.toList_inj]
      simp [plainChars, negative, zero]
  rw [text, parse_plainChars]
  rfl

/-! ## Machine integers -/

theorem toInt64?_eq_some_iff (x : Decimal) (i : ℤ) :
    x.toInt64?.map Int64.toInt = some i ↔ x = ofInt i ∧ -2 ^ 63 ≤ i ∧ i < 2 ^ 63 := by
  cases whole : x.isInteger with
  | false =>
    have other : x ≠ ofInt i := by
      rintro rfl
      rw [isInteger_ofInt] at whole
      cases whole
    simp [toInt64?, whole, other]
  | true =>
    obtain ⟨n, rfl⟩ := exists_ofInt whole
    rw [toInt64?_ofInt, ofInt_inj]
    by_cases inRange : -2 ^ 63 ≤ n ∧ n < 2 ^ 63
    · rw [if_pos inRange, Option.map_some, Int64.toInt_ofInt_of_le inRange.1 inRange.2, Option.some.injEq]
      constructor
      · rintro rfl
        exact ⟨rfl, inRange⟩
      · exact And.left
    · rw [if_neg inRange, Option.map_none]
      constructor
      · intro found
        cases found
      · rintro ⟨rfl, between⟩
        exact absurd between inRange

/-- A mantissa with its places is converted to the decimal that its plain text is read as, which is closest to it, and
a machine integer to the decimal that its digits are read as. A decimal is converted to a machine integer exactly if it
is one. -/
theorem conversions_agree :
    (∀ (m : ℤ) (places : UInt32),
      parse (String.ofList (plainChars m places.toNat)) = .ok (ofMantissa m places.toNat) ∧
        Closest .halfEven (m / 10 ^ places.toNat) (ofMantissa m places.toNat)) ∧
      (∀ i : Int64, parse (toString i) = .ok (ofInt i.toInt)) ∧
      (∀ n : UInt64, parse (toString n) = .ok (ofInt n.toNat)) ∧
      ∀ (x : Decimal) (i : ℤ), x.toInt64?.map Int64.toInt = some i ↔ x = ofInt i ∧ -2 ^ 63 ≤ i ∧ i < 2 ^ 63 :=
  ⟨fun m places => ⟨parse_plainChars m places, closest_of_nearest (nearest_ofMantissa m places.toNat)⟩,
    fun i => parse_toString i.toInt, fun n => parse_toString n.toNat, toInt64?_eq_some_iff⟩

end ExactFormula.Decimal
