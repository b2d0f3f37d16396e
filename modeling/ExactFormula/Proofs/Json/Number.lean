import ExactFormula.Proofs.Decimal.Numeral
import ExactFormula.Relaxed.Document

/-!
The numbers of JSON text. Each is a numeral without gaps and without a plus sign in front.
-/

namespace ExactFormula.Json

def Digits (ds : List Char) : Prop := ∀ c ∈ ds, c.isDigit = true

/-- Whole numbers have no leading zeros. -/
inductive Whole : List Char → Prop
  | zero : Whole ['0']
  | more {d : Char} {ds : List Char} (first : d.isDigit = true) (nonzero : d ≠ '0') (rest : Digits ds) : Whole (d :: ds)

inductive Fraction : List Char → Prop
  | none : Fraction []
  | some {ds : List Char} (digits : Digits ds) (nonempty : ds ≠ []) : Fraction ('.' :: ds)

inductive Exponent : List Char → Prop
  | none : Exponent []
  | some {mark : Char} {sign ds : List Char} (isMark : mark = 'e' ∨ mark = 'E')
    (isSign : sign = [] ∨ sign = ['+'] ∨ sign = ['-']) (digits : Digits ds) (nonempty : ds ≠ []) :
    Exponent (mark :: (sign ++ ds))

/-- The grammar of numbers. -/
structure IsNumber (cs : List Char) : Prop where
  parts : ∃ minus whole fraction exponent, cs = minus ++ (whole ++ (fraction ++ exponent)) ∧
    (minus = [] ∨ minus = ['-']) ∧ Whole whole ∧ Fraction fraction ∧ Exponent exponent

variable {cs ds rest : List Char}

theorem Whole.digits (h : Whole cs) : Digits cs := by
  cases h with
  | zero => simp [Digits]
  | more first nonzero rest => exact List.forall_mem_cons.2 ⟨first, rest⟩

theorem Whole.head (h : Whole cs) : ∃ c rest, cs = c :: rest ∧ c.isDigit = true := by
  cases h with
  | zero => exact ⟨'0', [], rfl, rfl⟩
  | more first nonzero rest => exact ⟨_, _, rfl, first⟩

/-! ## Numbers as numerals -/

theorem digitOrGap (h : Digits ds) : ∀ c ∈ ds, Decimal.isDigitOrGap c = true := fun c mem => by
  rw [Decimal.isDigitOrGap, h c mem, Bool.true_or]

theorem finishesNumeral_append (h : Digits ds) (digit point : Bool) :
    Decimal.finishesNumeral digit point (ds ++ rest) =
      Decimal.finishesNumeral (digit || !ds.isEmpty) point rest := by
  rw [Decimal.finishesNumeral_gapped (digitOrGap h)]
  cases ds with
  | nil => rfl
  | cons c ds => simp [h c List.mem_cons_self]

theorem dropSign_digit {c : Char} (h : c.isDigit = true) (cs : List Char) : Decimal.dropSign (c :: cs) = c :: cs := by
  refine Decimal.dropSign_cons ?_ ?_ cs <;> rintro rfl <;> cases h

theorem isExponent_digits (h : Digits ds) (nonempty : ds ≠ []) : Decimal.isExponent ds = true := by
  obtain ⟨d, ds, rfl⟩ := List.exists_cons_of_ne_nil nonempty
  have digit := h d List.mem_cons_self
  rw [Decimal.isExponent, dropSign_digit digit, Bool.and_eq_true, List.all_eq_true, List.any_eq_true]
  exact ⟨digitOrGap h, d, List.mem_cons_self, digit⟩

theorem Exponent.finishes (h : Exponent cs) (point : Bool) : Decimal.finishesNumeral true point cs = true := by
  cases h with
  | none => rfl
  | @some mark sign ds isMark isSign digits nonempty =>
    have exponent : Decimal.isExponent (sign ++ ds) = true := by
      have bare := isExponent_digits digits nonempty
      obtain ⟨d, ds, rfl⟩ := List.exists_cons_of_ne_nil nonempty
      rw [Decimal.isExponent, dropSign_digit (digits d List.mem_cons_self)] at bare
      rcases isSign with rfl | rfl | rfl
      · exact isExponent_digits digits nonempty
      · exact bare
      · exact bare
    rcases isMark with rfl | rfl <;> simp [Decimal.finishesNumeral, Decimal.isExponentMark, exponent]

theorem Fraction.finishes (h : Fraction cs) (exponent : Exponent rest) :
    Decimal.finishesNumeral true false (cs ++ rest) = true := by
  cases h with
  | none => exact exponent.finishes false
  | some digits nonempty =>
    rw [List.cons_append, Decimal.finishesNumeral]
    simp [finishesNumeral_append digits, exponent.finishes]

theorem IsNumber.isNumeral (h : IsNumber cs) : Decimal.isNumeral cs = true := by
  obtain ⟨minus, whole, fraction, exponent, rfl, sign, isWhole, isFraction, isExponent⟩ := h.parts
  obtain ⟨c, ds, rfl, digit⟩ := isWhole.head
  have unsigned : Decimal.dropSign (minus ++ (c :: ds ++ (fraction ++ exponent))) =
      c :: ds ++ (fraction ++ exponent) := by
    rcases sign with rfl | rfl
    · exact dropSign_digit digit _
    · rfl
  have finished : Decimal.finishesNumeral false false (c :: ds ++ (fraction ++ exponent)) = true :=
    (finishesNumeral_append isWhole.digits false false).trans (isFraction.finishes isExponent)
  rw [Decimal.isNumeral, unsigned]
  exact Bool.and_eq_true_iff.2 ⟨by rw [digit, Bool.true_or], finished⟩

/-! ## Plain numbers -/

theorem Digits.gapless (h : Digits ds) : '_' ∉ ds := fun mem => absurd (h '_' mem) (by decide)

theorem IsNumber.gapless (h : IsNumber cs) : '_' ∉ cs := by
  obtain ⟨minus, whole, fraction, exponent, rfl, sign, isWhole, isFraction, isExponent⟩ := h.parts
  have minus : '_' ∉ minus := by
    rcases sign with rfl | rfl <;> decide
  have fraction : '_' ∉ fraction := by
    cases isFraction with
    | none => exact List.not_mem_nil
    | some digits nonempty => simp [digits.gapless]
  have exponent : '_' ∉ exponent := by
    cases isExponent with
    | none => exact List.not_mem_nil
    | some isMark isSign digits nonempty =>
      rcases isMark with rfl | rfl <;> rcases isSign with rfl | rfl | rfl <;> simp [digits.gapless]
  simp [minus, isWhole.digits.gapless, fraction, exponent]

theorem IsNumber.unsigned (h : IsNumber cs) : cs.head? ≠ some '+' := by
  obtain ⟨minus, whole, fraction, exponent, rfl, sign, isWhole, -, -⟩ := h.parts
  obtain ⟨c, ds, rfl, digit⟩ := isWhole.head
  rcases sign with rfl | rfl
  · rintro ⟨⟩
    cases digit
  · exact fun plus => absurd plus (by simp)

theorem IsNumber.filter_gaps (h : IsNumber cs) : cs.filter (· != '_') = cs := by
  rw [List.filter_eq_self]
  intro c mem
  rw [bne_iff_ne]
  rintro rfl
  exact h.gapless mem

theorem IsNumber.plainNumeral_eq (h : IsNumber cs) : Relaxed.plainNumeral cs = cs := by
  rw [Relaxed.plainNumeral, if_neg (by simpa using h.unsigned), h.filter_gaps]

end ExactFormula.Json
