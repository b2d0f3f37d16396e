import Mathlib.Algebra.Order.Field.Power
import ExactFormula.Proofs.Decimal.Rounding
import ExactFormula.Proofs.Decimal.Text

/-!
The rational numbers that numerals denote. A numeral is kept as it is written, its gaps included, and has its
value apart from every scanner; reading it rounds that value once, half to even.
-/

namespace ExactFormula.Decimal

open Json (Digits)

inductive Sign
  | none
  | plus
  | minus
  deriving DecidableEq

def Sign.chars : Sign → List Char
  | none => []
  | plus => ['+']
  | minus => ['-']

def Sign.factor : Sign → ℤ
  | minus => -1
  | _ => 1

def Gapped (cs : List Char) : Prop := ∀ c ∈ cs, isDigitOrGap c = true

def ungapped (cs : List Char) : List Char := cs.filter (· != '_')

/-- A written power of ten. -/
structure Power where
  mark : Char
  sign : Sign
  digits : List Char
  isMark : isExponentMark mark = true
  gapped : Gapped digits
  shown : ∃ c ∈ digits, c.isDigit = true

def Power.chars (p : Power) : List Char := p.mark :: (p.sign.chars ++ p.digits)

def Power.value (p : Power) : ℤ := p.sign.factor * digitValue (ungapped p.digits)

/-- A power of ten that is read: leading zeros of the exponent count among its nine digits. -/
structure Power.InRange (p : Power) : Prop where
  short : (ungapped p.digits).length ≤ 9
  small : digitValue (ungapped p.digits) ≤ maxExponent

structure Numeral where
  sign : Sign
  whole : List Char
  fraction : Option (List Char)
  power : Option Power
  gapped : Gapped (whole ++ fraction.getD [])
  shown : ∃ c ∈ whole ++ fraction.getD [], c.isDigit = true
  starts : whole.head? ≠ some '_'

namespace Numeral

def mantissa (n : Numeral) : List Char := n.whole ++ (n.fraction.map ('.' :: ·)).getD []

def chars (n : Numeral) : List Char := n.sign.chars ++ (n.mantissa ++ (n.power.map Power.chars).getD [])

/-- Digits behind the point. -/
def places (n : Numeral) : ℕ := (ungapped (n.fraction.getD [])).length

def significand (n : Numeral) : ℕ := digitValue (ungapped (n.whole ++ n.fraction.getD []))

def value (n : Numeral) : ℚ :=
  n.sign.factor * n.significand * (10 : ℚ) ^ ((n.power.map Power.value).getD 0 - n.places)

end Numeral

/-- The text is a numeral of that value, with blanks around it. -/
def Denotes (text : String) (x : ℚ) : Prop := ∃ n : Numeral, Text.trim text.toList = n.chars ∧ n.value = x

/-! ## Every accepted text is a numeral -/

theorem exists_sign (cs : List Char) : ∃ sign : Sign, cs = sign.chars ++ dropSign cs := by
  rcases dropSign_cases cs with same | ⟨c, split, rfl | rfl⟩
  · exact ⟨.none, same.symm⟩
  · exact ⟨.plus, split⟩
  · exact ⟨.minus, split⟩

theorem exists_power {cs : List Char} {mark : Char} (isMark : isExponentMark mark = true) (h : isExponent cs = true) :
    ∃ p : Power, p.chars = mark :: cs := by
  obtain ⟨sign, split⟩ := exists_sign cs
  rw [isExponent, Bool.and_eq_true, List.all_eq_true, List.any_eq_true] at h
  exact ⟨⟨mark, sign, dropSign cs, isMark, h.1, h.2⟩, congrArg (mark :: ·) split.symm⟩

/-- What finishes a numeral, as digits before a point, digits behind one and a power of ten. -/
theorem exists_parts {cs : List Char} {digit point : Bool} (h : finishesNumeral digit point cs = true) :
    ∃ (whole : List Char) (fraction : Option (List Char)) (power : Option Power),
      cs = whole ++ ((fraction.map ('.' :: ·)).getD [] ++ (power.map Power.chars).getD []) ∧
      Gapped (whole ++ fraction.getD []) ∧
      (digit = true ∨ ∃ c ∈ whole ++ fraction.getD [], c.isDigit = true) ∧
      (point = true → fraction = none) := by
  induction cs generalizing digit point with
  | nil => exact ⟨[], none, none, rfl, List.forall_mem_nil _, .inl h, fun _ => rfl⟩
  | cons c cs ih =>
    rw [finishesNumeral] at h
    split at h
    case isTrue isDigit =>
      obtain ⟨whole, fraction, power, rfl, gapped, -, once⟩ := ih h
      exact ⟨c :: whole, fraction, power, rfl, List.forall_mem_cons.2 ⟨by simp [isDigitOrGap, isDigit], gapped⟩,
        .inr ⟨c, by simp, isDigit⟩, once⟩
    split at h
    case isTrue isGap =>
      obtain ⟨whole, fraction, power, rfl, gapped, shown, once⟩ := ih h
      exact ⟨c :: whole, fraction, power, rfl, List.forall_mem_cons.2 ⟨by simp [isDigitOrGap, isGap], gapped⟩,
        shown.imp_right (Exists.imp fun _ => And.imp_left (List.mem_cons_of_mem _)), once⟩
    split at h
    case isTrue isPoint =>
      simp only [Bool.and_eq_true, beq_iff_eq, Bool.not_eq_true'] at isPoint
      obtain ⟨rfl, first⟩ := isPoint
      obtain ⟨whole, fraction, power, rfl, gapped, shown, once⟩ := ih h
      cases once rfl
      rw [Option.getD_none, List.append_nil] at gapped shown
      exact ⟨[], some whole, power, rfl, gapped, shown, by simp [first]⟩
    case isFalse =>
      simp only [Bool.and_eq_true] at h
      obtain ⟨p, chars⟩ := exists_power h.1.1 h.2
      exact ⟨[], none, some p, chars.symm, List.forall_mem_nil _, .inl h.1.2, fun _ => rfl⟩

theorem exists_numeral {cs : List Char} (h : isNumeral cs = true) : ∃ n : Numeral, n.chars = cs := by
  obtain ⟨sign, split⟩ := exists_sign cs
  rw [isNumeral] at h
  split at h
  · cases h
  case h_2 c rest body =>
    rw [Bool.and_eq_true] at h
    obtain ⟨starts, finishes⟩ := h
    obtain ⟨whole, fraction, power, parts, gapped, shown, -⟩ := exists_parts finishes
    have starts : whole.head? ≠ some '_' := fun gap => by
      cases whole with
      | nil => cases gap
      | cons d whole =>
        cases gap
        cases parts
        cases starts
    have chars : sign.chars ++ (whole ++ ((fraction.map ('.' :: ·)).getD [] ++ (power.map Power.chars).getD [])) =
        cs := by
      rw [← parts, ← body, ← split]
    exact ⟨⟨sign, whole, fraction, power, gapped, shown.resolve_left Bool.false_ne_true, starts⟩,
      (congrArg (sign.chars ++ ·) (List.append_assoc ..)).trans chars⟩

theorem exists_denoted {text : String} {a : Decimal} (h : parse text = .ok a) : ∃ x, Denotes text x := by
  rw [parse, parseChars] at h
  split at h
  · cases h
  split at h
  · cases h
  case isFalse numeral =>
    obtain ⟨n, chars⟩ := exists_numeral (by simpa using numeral)
    exact ⟨n.value, n, chars.symm, rfl⟩

/-! ## Reading -/

theorem ungapped_append (xs ys : List Char) : ungapped (xs ++ ys) = ungapped xs ++ ungapped ys :=
  List.filter_append ..

theorem Gapped.digits {cs : List Char} (h : Gapped cs) : Digits (ungapped cs) := by
  intro c mem
  obtain ⟨mem, shown⟩ := List.mem_filter.1 mem
  have char := h c mem
  rw [isDigitOrGap, Bool.or_eq_true] at char
  exact char.resolve_right (by simpa using shown)

theorem ungapped_sign (sign : Sign) : ungapped sign.chars = sign.chars := by
  cases sign <;> rfl

/-- The sign of a text that goes on with another character. -/
theorem signed {c : Char} (plus : c ≠ '+') (minus : c ≠ '-') (sign : Sign) (cs : List Char) :
    dropSign (sign.chars ++ c :: cs) = c :: cs ∧ ((sign.chars ++ c :: cs).head? = some '-' ↔ sign = .minus) := by
  cases sign with
  | none => exact ⟨dropSign_cons plus minus cs, by simp [Sign.chars, minus]⟩
  | plus => exact ⟨rfl, by simp [Sign.chars]⟩
  | minus => exact ⟨rfl, by simp [Sign.chars]⟩

theorem Sign.factor_eq (sign : Sign) (x : ℤ) : sign.factor * x = if sign = .minus then -x else x := by
  cases sign <;> simp [factor]

theorem ungapped_cons {cs : List Char} (gapped : Gapped cs) (shown : ∃ c ∈ cs, c.isDigit = true) :
    ∃ d ds, ungapped cs = d :: ds ∧ d.isDigit = true := by
  obtain ⟨c, mem, isDigit⟩ := shown
  have kept : c ∈ ungapped cs := List.mem_filter.2 ⟨mem, by
    rw [bne_iff_ne]
    rintro rfl
    cases isDigit⟩
  obtain ⟨d, ds, split⟩ := List.exists_cons_of_ne_nil (List.ne_nil_of_mem kept)
  exact ⟨d, ds, split, gapped.digits d (split ▸ List.mem_cons_self)⟩

theorem readExponent_eq_some_iff (p : Power) (e : ℤ) :
    readExponent (p.sign.chars ++ ungapped p.digits) = some e ↔ p.InRange ∧ e = p.value := by
  obtain ⟨d, ds, split, isDigit⟩ := ungapped_cons p.gapped p.shown
  obtain ⟨body, minus⟩ := signed (c := d) (by rintro rfl; cases isDigit) (by rintro rfl; cases isDigit) p.sign ds
  rw [← split] at body minus
  have inRange : p.InRange ↔
      ¬(9 < (ungapped p.digits).length ∨ maxExponent < digitValue (ungapped p.digits)) := by
    rw [not_or, not_lt, not_lt]
    exact ⟨fun h => ⟨h.short, h.small⟩, fun h => ⟨h.1, h.2⟩⟩
  simp only [readExponent, body, minus, inRange, Power.value, Sign.factor_eq, Bool.or_eq_true, decide_eq_true_eq]
  split
  case isTrue far => simp only [reduceCtorEq, far, not_true_eq_false, false_and]
  case isFalse near =>
    rw [← apply_ite some, Option.some.injEq]
    exact ⟨fun same => ⟨near, same.symm⟩, fun h => h.2.symm⟩

theorem ungapped_power (p : Power) : ungapped p.chars = p.mark :: (p.sign.chars ++ ungapped p.digits) := by
  have mark : p.mark ≠ '_' := by
    intro gap
    have isMark := p.isMark
    rw [gap] at isMark
    cases isMark
  rw [Power.chars, ungapped, List.filter_cons_of_pos (by simpa using mark)]
  exact congrArg (p.mark :: ·) ((ungapped_append _ _).trans (congrArg (· ++ _) (ungapped_sign p.sign)))

theorem takeWhile_point {whole : List Char} (h : Digits whole) (fraction : Option (List Char)) :
    (whole ++ ungapped ((fraction.map ('.' :: ·)).getD [])).takeWhile (· != '.') = whole ∧
      ((whole ++ ungapped ((fraction.map ('.' :: ·)).getD [])).dropWhile (· != '.')).drop 1 =
        ungapped (fraction.getD []) := by
  have inside : ∀ c ∈ whole, (c != '.') = true := fun c mem => bne_iff_ne.2 (digit_facts (h c mem)).2
  rw [List.takeWhile_append_of_pos inside, List.dropWhile_append_of_pos inside]
  cases fraction <;> simp [ungapped]

theorem takeWhile_mark {mantissa : List Char} (unmarked : ∀ c ∈ mantissa, isExponentMark c = false)
    (power : Option Power) :
    (mantissa ++ ungapped ((power.map Power.chars).getD [])).takeWhile (!isExponentMark ·) = mantissa ∧
      (mantissa ++ ungapped ((power.map Power.chars).getD [])).dropWhile (!isExponentMark ·) =
        ungapped ((power.map Power.chars).getD []) := by
  have inside : ∀ c ∈ mantissa, (!isExponentMark c) = true := fun c mem => by rw [unmarked c mem]; rfl
  rw [List.takeWhile_append_of_pos inside, List.dropWhile_append_of_pos inside]
  cases power with
  | none => simp [ungapped]
  | some p => simp [ungapped_power, p.isMark]

namespace Numeral

theorem ungapped_mantissa (n : Numeral) : ungapped n.mantissa =
    ungapped n.whole ++ ungapped ((n.fraction.map ('.' :: ·)).getD []) := ungapped_append ..

/-- Digits and at most one point, and at least one of them. -/
theorem mantissa_chars (n : Numeral) : (∀ c ∈ ungapped n.mantissa, c.isDigit = true ∨ c = '.') ∧
    ungapped n.mantissa ≠ [] := by
  have digits := Gapped.digits n.gapped
  obtain ⟨d, ds, split, -⟩ := ungapped_cons n.gapped n.shown
  rw [ungapped_append] at digits split
  rw [ungapped_mantissa]
  cases fraction : n.fraction with
  | none =>
    rw [fraction] at digits split
    exact ⟨fun c mem => .inl (digits c mem), split ▸ List.cons_ne_nil d ds⟩
  | some ds =>
    rw [fraction] at digits
    obtain ⟨hw, hf⟩ := List.forall_mem_append.1 digits
    refine ⟨List.forall_mem_append.2 ⟨fun c mem => .inl (hw c mem), ?_⟩, by simp [ungapped]⟩
    exact List.forall_mem_cons.2 ⟨.inr rfl, fun c mem => .inl (hf c mem)⟩

theorem mantissa_unmarked (n : Numeral) : ∀ c ∈ ungapped n.mantissa, isExponentMark c = false := by
  intro c mem
  rcases n.mantissa_chars.1 c mem with isDigit | rfl
  · exact (digit_facts isDigit).1
  · rfl

end Numeral

/-- A whole number moved so many digits to the left, rounded where it goes to the right. -/
def shifted (significand : ℕ) (shift : ℤ) : ℤ :=
  if 0 ≤ shift then significand * Nat.pow 10 shift.toNat
  else RoundingMode.halfEven.divide significand (Nat.pow 10 (-shift).toNat)

theorem nearest_shifted (significand : ℕ) (shift : ℤ) :
    RoundingMode.Nearest .halfEven (significand * (10 : ℚ) ^ shift) (shifted significand shift) := by
  rw [shifted]
  split
  case isTrue nonneg =>
    obtain ⟨k, rfl⟩ := Int.eq_ofNat_of_zero_le nonneg
    have units : (significand * (10 : ℚ) ^ (k : ℤ)) = ((significand * Nat.pow 10 k : ℤ) : ℚ) := by
      push_cast
      simp
    rw [units]
    exact .whole _ _
  case isFalse negative =>
    obtain ⟨k, rfl⟩ : ∃ k : ℕ, shift = -k := ⟨(-shift).toNat, by omega⟩
    have divisor : ((10 ^ k : ℕ) : ℤ) ≠ 0 := by positivity
    have nearest := RoundingMode.nearest_divide .halfEven significand divisor
    simpa [zpow_neg, div_eq_mul_inv] using nearest

theorem shifted_eq_some_iff {sign : Sign} {significand : ℕ} {shift least u : ℤ} :
    (if shift < least then none else some (if sign = .minus then -shifted significand shift
      else shifted significand shift)) = some u ↔ least ≤ shift ∧ u = sign.factor * shifted significand shift := by
  rw [Sign.factor_eq]
  split
  case isTrue low => simp only [reduceCtorEq, not_le.2 low, false_and]
  case isFalse high =>
    rw [Option.some.injEq]
    exact ⟨fun same => ⟨not_lt.1 high, same.symm⟩, fun h => h.2.symm⟩

/-- How far the significand is moved to the left in the count of units. -/
def Numeral.shift (n : Numeral) : ℤ := scale - n.places + (n.power.map Power.value).getD 0

/-- The units of a numeral are its significand, moved by its places and its power of ten. -/
theorem readUnits_eq_some_iff (n : Numeral) (u : ℤ) : readUnits (ungapped n.chars) = some u ↔
    (∀ p ∈ n.power, p.InRange) ∧ -4294967295 ≤ n.shift ∧ u = n.sign.factor * shifted n.significand n.shift := by
  have wholeDigits : Digits (ungapped n.whole) := by
    have digits := Gapped.digits n.gapped
    rw [ungapped_append] at digits
    exact (List.forall_mem_append.1 digits).1
  obtain ⟨c, cs, start⟩ := List.exists_cons_of_ne_nil n.mantissa_chars.2
  have char := n.mantissa_chars.1 c (start ▸ List.mem_cons_self)
  obtain ⟨body, minus⟩ := signed (c := c) (by rintro rfl; simp at char) (by rintro rfl; simp at char) n.sign
    (cs ++ ungapped ((n.power.map Power.chars).getD []))
  rw [← List.cons_append, ← start] at body minus
  obtain ⟨mantissa, tail⟩ := takeWhile_mark n.mantissa_unmarked n.power
  obtain ⟨whole, fraction⟩ := takeWhile_point wholeDigits n.fraction
  rw [← n.ungapped_mantissa] at whole fraction
  have digits : ungapped n.whole ++ ungapped (n.fraction.getD []) = ungapped (n.whole ++ n.fraction.getD []) :=
    (ungapped_append _ _).symm
  rw [Numeral.chars, ungapped_append, ungapped_append, ungapped_sign]
  simp only [readUnits, body, mantissa, tail, whole, fraction, minus, digits, Numeral.shift]
  cases n.power with
  | none =>
    have unpowered : ∀ p ∈ (none : Option Power), p.InRange := fun p mem => absurd mem (Option.not_mem_none p)
    exact shifted_eq_some_iff.trans (and_iff_right unpowered).symm
  | some p =>
    simp only [Option.map_some, Option.getD_some, ungapped_power, Option.mem_some_iff, forall_eq']
    refine Option.bind_eq_some_iff.trans ?_
    simp only [readExponent_eq_some_iff, and_assoc]
    constructor
    · rintro ⟨e, inRange, rfl, read⟩
      exact ⟨inRange, shifted_eq_some_iff.1 read⟩
    · rintro ⟨inRange, read⟩
      exact ⟨p.value, inRange, rfl, shifted_eq_some_iff.2 read⟩

/-- Reading rounds the value once. -/
theorem readUnits_nearest (n : Numeral) {u : ℤ} (h : readUnits (ungapped n.chars) = some u) :
    RoundingMode.Nearest .halfEven (n.value * 10 ^ scale) u := by
  have moved : (10 : ℚ) ^ ((n.power.map Power.value).getD 0 - n.places) * 10 ^ scale = 10 ^ n.shift := by
    rw [← zpow_natCast, ← zpow_add₀ (by norm_num), Numeral.shift]
    congr 1
    ring
  obtain ⟨-, -, rfl⟩ := (readUnits_eq_some_iff n u).1 h
  have units := nearest_shifted n.significand n.shift
  rw [Numeral.value, mul_assoc, moved, mul_assoc]
  rcases n.sign with _ | _ | _
  · simpa [Sign.factor] using units
  · simpa [Sign.factor] using units
  · simpa [Sign.factor] using units.neg

theorem parse_nearest {text : String} {x : ℚ} {a : Decimal} (denoted : Denotes text x) (h : parse text = .ok a) :
    RoundingMode.Nearest .halfEven (x * 10 ^ scale) a.units := by
  obtain ⟨n, chars, rfl⟩ := denoted
  rw [parse, parseChars, chars] at h
  split at h
  · cases h
  split at h
  · cases h
  split at h
  case h_1 units read =>
    cases h
    exact readUnits_nearest n read
  · cases h

end ExactFormula.Decimal
