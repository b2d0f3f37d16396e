import ExactFormula.Decimal.Numeral
import ExactFormula.Proofs.Text.Trimming
import ExactFormula.Text.DecimalDigit
import ExactFormula.Text.Quoted

/-!
The characters of a numeral: digits, gaps, signs, points and exponent marks.
-/

namespace ExactFormula.Decimal

/-- Whether a numeral may hold the character. -/
def isNumeralChar (c : Char) : Bool :=
  isDigitOrGap c || isExponentMark c || c == '+' || c == '-' || c == '.'

variable {cs : List Char}

theorem dropSign_cases (cs : List Char) :
    dropSign cs = cs ∨ ∃ sign, cs = sign :: dropSign cs ∧ (sign = '+' ∨ sign = '-') := by
  unfold dropSign
  split
  · exact .inr ⟨'+', rfl, .inl rfl⟩
  · exact .inr ⟨'-', rfl, .inr rfl⟩
  · exact .inl rfl

/-- An optional sign changes nothing about the characters behind it. -/
theorem numeralChars_of_dropSign (h : ∀ c ∈ dropSign cs, isNumeralChar c = true) :
    ∀ c ∈ cs, isNumeralChar c = true := by
  rcases dropSign_cases cs with same | ⟨sign, split, isSign⟩
  · rwa [same] at h
  · rw [split]
    refine List.forall_mem_cons.2 ⟨?_, h⟩
    rcases isSign with rfl | rfl <;> rfl

theorem numeralChars_of_isExponent (h : isExponent cs = true) : ∀ c ∈ cs, isNumeralChar c = true := by
  rw [isExponent, Bool.and_eq_true, List.all_eq_true] at h
  refine numeralChars_of_dropSign fun c mem => ?_
  rw [isNumeralChar, h.1 c mem]
  rfl

theorem numeralChars_of_finishesNumeral {digit point : Bool} (h : finishesNumeral digit point cs = true) :
    ∀ c ∈ cs, isNumeralChar c = true := by
  induction cs generalizing digit point with
  | nil => nofun
  | cons c cs ih =>
    rw [finishesNumeral] at h
    refine List.forall_mem_cons.2 ?_
    split at h
    case isTrue isDigit => exact ⟨by simp [isNumeralChar, isDigitOrGap, isDigit], ih h⟩
    split at h
    case isTrue isGap => exact ⟨by simp [isNumeralChar, isDigitOrGap, isGap], ih h⟩
    split at h
    case isTrue isPoint =>
      rw [Bool.and_eq_true] at isPoint
      exact ⟨by simp [isNumeralChar, isPoint.1], ih h⟩
    case isFalse =>
      simp only [Bool.and_eq_true] at h
      exact ⟨by simp [isNumeralChar, h.1.1], numeralChars_of_isExponent h.2⟩

theorem numeralChars_of_isNumeral (h : isNumeral cs = true) : ∀ c ∈ cs, isNumeralChar c = true := by
  refine numeralChars_of_dropSign ?_
  unfold isNumeral at h
  split at h
  · cases h
  case h_2 c rest split =>
    rw [split]
    exact numeralChars_of_finishesNumeral (Bool.and_eq_true _ _ |>.mp h).2

/-- Digits with gaps between them: afterwards a digit has been shown if there is one among them. -/
theorem finishesNumeral_gapped {ds : List Char} (h : ∀ c ∈ ds, isDigitOrGap c = true) (digit point : Bool)
    (rest : List Char) :
    finishesNumeral digit point (ds ++ rest) = finishesNumeral (digit || ds.any Char.isDigit) point rest := by
  induction ds generalizing digit with
  | nil => simp
  | cons c ds ih =>
    obtain ⟨char, h⟩ := List.forall_mem_cons.1 h
    rw [List.cons_append, finishesNumeral, ih h, ih h]
    by_cases isDigit : c.isDigit = true
    · simp [isDigit]
    · have isGap : c = '_' := by simpa [isDigitOrGap, isDigit] using char
      simp [isGap]

theorem isNumeralChar_cases {c : Char} (h : isNumeralChar c = true) :
    (0x30 ≤ c.toNat ∧ c.toNat ≤ 0x39) ∨ c = '_' ∨ c = 'e' ∨ c = 'E' ∨ c = '+' ∨ c = '-' ∨ c = '.' := by
  simp only [isNumeralChar, isDigitOrGap, isExponentMark, Bool.or_eq_true, beq_iff_eq, or_assoc] at h
  exact h.imp_left Text.toNat_of_isDigit

theorem plain_of_isNumeralChar {c : Char} (h : isNumeralChar c = true) : Text.Plain c := by
  refine Text.plain_of_toNat ?_
  rcases isNumeralChar_cases h with digit | rfl | rfl | rfl | rfl | rfl | rfl
  · omega
  all_goals decide

theorem solid_of_isNumeral (h : isNumeral cs = true) : Text.Solid cs := by
  refine Text.solid_of_shown (fun c mem => ?_) ?_
  · rcases isNumeralChar_cases (numeralChars_of_isNumeral h c mem) with digit | rfl | rfl | rfl | rfl | rfl | rfl
    · simp [Text.isBlank]
      omega
    all_goals decide
  · rintro rfl
    cases h

end ExactFormula.Decimal
