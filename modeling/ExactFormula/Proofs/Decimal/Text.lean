import Mathlib.Data.List.TakeWhile
import ExactFormula.Proofs.Decimal.Digits

/-!
The written form of a decimal is a number of JSON, and reading it gives the decimal back.
-/

namespace ExactFormula.Decimal

open Json (Digits)

/-- Digits behind a point, if there are any. -/
def pointed (ds : List Char) : List Char := if ds.isEmpty then [] else '.' :: ds

theorem chars_eq (a : Decimal) : a.chars = (if a.isNegative then ['-'] else []) ++
    (wholeDigits (a.units.natAbs / Nat.pow 10 scale) ++
      pointed (trimZeros (fixedDigits scale (a.units.natAbs % Nat.pow 10 scale)))) := by
  rw [chars, pointed, List.append_assoc]

theorem digits_trimZeros {ds : List Char} (h : Digits ds) : Digits (trimZeros ds) := by
  obtain ⟨k, split⟩ := exists_trailingZeros ds
  rw [split] at h
  exact fun c mem => h c (List.mem_append_left _ mem)

theorem pointed_fraction {ds : List Char} (h : Digits ds) : Json.Fraction (pointed ds) := by
  cases ds with
  | nil => exact .none
  | cons d ds => exact .some h (List.cons_ne_nil _ _)

theorem isNumber_chars (a : Decimal) : Json.IsNumber a.chars := by
  refine ⟨_, _, _, [], (chars_eq a).trans (by rw [List.append_nil]), ?_, wholeDigits_whole _,
    pointed_fraction (digits_trimZeros (digits_fixedDigits _ _)), .none⟩
  split
  · exact .inr rfl
  · exact .inl rfl

/-! ## Reading -/

theorem digit_facts {c : Char} (h : c.isDigit = true) : isExponentMark c = false ∧ c ≠ '.' := by
  constructor
  · cases mark : isExponentMark c with
    | false => rfl
    | true =>
      simp only [isExponentMark, Bool.or_eq_true, beq_iff_eq] at mark
      rcases mark with rfl | rfl <;> cases h
  · rintro rfl
    cases h

theorem takeWhile_whole {whole : List Char} (h : Digits whole) (ds : List Char) :
    (whole ++ pointed ds).takeWhile (· != '.') = whole ∧
      ((whole ++ pointed ds).dropWhile (· != '.')).drop 1 = ds := by
  have inside : ∀ c ∈ whole, (c != '.') = true := fun c mem => bne_iff_ne.2 (digit_facts (h c mem)).2
  rw [List.takeWhile_append_of_pos inside, List.dropWhile_append_of_pos inside]
  cases ds with
  | nil => simp [pointed]
  | cons d ds => simp [pointed]

theorem unmarked {whole ds : List Char} (hw : Digits whole) (hd : Digits ds) :
    ∀ c ∈ whole ++ pointed ds, (!isExponentMark c) = true := by
  have digits {ds : List Char} (h : Digits ds) : ∀ c ∈ ds, (!isExponentMark c) = true := fun c mem => by
    rw [(digit_facts (h c mem)).1]
    rfl
  refine List.forall_mem_append.2 ⟨digits hw, ?_⟩
  cases ds with
  | nil => nofun
  | cons d ds => exact List.forall_mem_cons.2 ⟨rfl, digits hd⟩

/-- The units of a number without an exponent, as far as its sign goes. -/
theorem readUnits_eq {sign whole ds : List Char} (signed : sign = [] ∨ sign = ['-']) (isWhole : Json.Whole whole)
    (hd : Digits ds) (short : ds.length ≤ scale) : readUnits (sign ++ (whole ++ pointed ds)) =
      some (if sign = ['-'] then -((digitValue (whole ++ ds) * 10 ^ (scale - ds.length) : Nat) : Int)
        else ((digitValue (whole ++ ds) * 10 ^ (scale - ds.length) : Nat) : Int)) := by
  have hw := isWhole.digits
  obtain ⟨c, cs, rfl, digit⟩ := isWhole.head
  have body : dropSign (sign ++ (c :: cs ++ pointed ds)) = c :: cs ++ pointed ds := by
    rcases signed with rfl | rfl
    · exact Json.dropSign_digit digit _
    · rfl
  have mantissa : (c :: cs ++ pointed ds).takeWhile (!isExponentMark ·) = c :: cs ++ pointed ds :=
    List.takeWhile_eq_self_iff.2 (unmarked hw hd)
  have exponent : (c :: cs ++ pointed ds).dropWhile (!isExponentMark ·) = [] :=
    List.dropWhile_eq_nil_iff.2 (unmarked hw hd)
  obtain ⟨wholePart, fractionPart⟩ := takeWhile_whole hw ds
  have shift : (scale : Int) - ds.length + 0 = ((scale - ds.length : Nat) : Int) := by omega
  have minus : (sign ++ (c :: cs ++ pointed ds)).head? = some '-' ↔ sign = ['-'] := by
    rcases signed with rfl | rfl
    · have other : c ≠ '-' := by
        rintro rfl
        cases digit
      simp [other]
    · simp
  simp only [readUnits, body, mantissa, exponent, wholePart, fractionPart, Option.bind_eq_bind, Option.bind_some, shift,
    minus]
  have inRange : ¬((scale - ds.length : Nat) : Int) < -4294967295 := by omega
  have nonneg : (0 : Int) ≤ ((scale - ds.length : Nat) : Int) := by omega
  rw [if_neg inRange]
  simp only [nonneg, ↓reduceIte, Int.toNat_natCast, Int.natCast_mul]
  rfl

/-- Digits of the fraction without its last zeros, put behind those of the whole number. -/
theorem digitValue_split (n : Nat) :
    digitValue (wholeDigits (n / 10 ^ scale) ++ trimZeros (fixedDigits scale (n % 10 ^ scale))) *
      10 ^ (scale - (trimZeros (fixedDigits scale (n % 10 ^ scale))).length) = n := by
  obtain ⟨short, value⟩ := digitValue_trimZeros (fixedDigits scale (n % 10 ^ scale))
  rw [length_fixedDigits] at short value
  rw [digitValue_fixedDigits, Nat.mod_mod] at value
  rw [digitValue_append, digitValue_wholeDigits, Nat.add_mul, value, Nat.mul_right_comm, ← Nat.pow_add,
    Nat.add_sub_cancel' short, Nat.div_add_mod]

theorem readUnits_chars (a : Decimal) : readUnits a.chars = some a.units := by
  have digits := digits_trimZeros (digits_fixedDigits scale (a.units.natAbs % 10 ^ scale))
  have short := (digitValue_trimZeros (fixedDigits scale (a.units.natAbs % 10 ^ scale))).1
  rw [length_fixedDigits] at short
  have signed : (if a.isNegative then ['-'] else []) = [] ∨ (if a.isNegative then ['-'] else []) = ['-'] := by
    split <;> simp
  have whole : Nat.pow 10 scale = 10 ^ scale := rfl
  rw [chars_eq, whole, readUnits_eq signed (wholeDigits_whole _) digits short, digitValue_split, isNegative]
  by_cases negative : a.units < 0
  · simp only [negative, decide_true, ↓reduceIte]
    congr 1
    omega
  · simp only [negative, decide_false, Bool.false_eq_true, ↓reduceIte, reduceCtorEq]
    congr 1
    omega

theorem parseChars_chars (a : Decimal) : parseChars a.chars = .ok a := by
  have number := isNumber_chars a
  have solid := solid_of_isNumeral number.isNumeral
  have shown : a.chars.isEmpty = false := by
    rw [List.isEmpty_eq_false_iff]
    exact solid.shown
  simp [parseChars, solid.trimmed, shown, number.isNumeral, number.filter_gaps, readUnits_chars]

end ExactFormula.Decimal
