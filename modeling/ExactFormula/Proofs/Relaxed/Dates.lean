import ExactFormula.Decimal.Numeral
import ExactFormula.Relaxed.Document

/-!
The shape of dates: digits and marks, where each mark but the one for UTC stands in front of a digit. No date
is a decimal, and none holds a character that JSON escapes.
-/

namespace ExactFormula.Relaxed

def Digits (cs : List Char) : Prop := ∀ c ∈ cs, Text.isDecimalDigit c = true

/-- A date may end with this character. -/
def DateEnd (c : Char) : Prop := Text.isDecimalDigit c = true ∨ c = 'Z' ∨ c = 'z'

/-- Digits and the marks of dates, those with which no date ends in front of a digit. -/
def DateLike : List Char → Prop
  | [] => True
  | c :: cs => (Text.isDecimalDigit c = true ∨ isDateChar c = true) ∧
      (DateEnd c ∨ ∃ d rest, cs = d :: rest ∧ Text.isDecimalDigit d = true) ∧ DateLike cs

variable {cs rest : List Char} {least most : Nat}

theorem dropDigits_eq_some (h : dropDigits least most cs = some rest) :
    ∃ digits, cs = digits ++ rest ∧ Digits digits ∧ least ≤ digits.length := by
  simp only [dropDigits] at h
  split at h
  · cases h
  · obtain ⟨behind, split⟩ := (List.takeWhile_prefix Text.isDecimalDigit).trans (List.take_prefix most cs)
    cases h
    refine ⟨(cs.take most).takeWhile Text.isDecimalDigit, ?_, fun c mem => ?_, by omega⟩
    · rw [List.prefix_iff_eq_append.1 ⟨behind, split⟩]
    · exact List.all_eq_true.1 List.all_takeWhile c mem

theorem dropDatePart_eq_some (h : dropDatePart cs = some rest) :
    ∃ mark digits, cs = mark :: (digits ++ rest) ∧ mark ∈ ['-', '/', '.'] ∧ Digits digits ∧ 1 ≤ digits.length := by
  unfold dropDatePart at h
  split at h
  case h_1 c cs =>
    split at h
    case isTrue marks =>
      obtain ⟨digits, rfl, shape⟩ := dropDigits_eq_some h
      exact ⟨c, digits, rfl, by simpa [or_assoc] using marks, shape⟩
    case isFalse => cases h
  case h_2 => cases h

namespace DateLike

theorem digits {digits : List Char} (h : Digits digits) (hr : DateLike rest) : DateLike (digits ++ rest) := by
  induction digits with
  | nil => exact hr
  | cons c digits ih =>
    obtain ⟨digit, h⟩ := List.forall_mem_cons.1 h
    exact ⟨.inl digit, .inl (.inl digit), ih h⟩

theorem dropDigits (h : dropDigits least most cs = some rest) (hr : DateLike rest) : DateLike cs := by
  obtain ⟨digits, rfl, all, -⟩ := dropDigits_eq_some h
  exact hr.digits all

theorem mark {c : Char} (mark : isDateChar c = true) (h : Relaxed.dropDigits least most cs = some rest)
    (some : 1 ≤ least) (hr : DateLike rest) : DateLike (c :: cs) := by
  obtain ⟨digits, split, all, length⟩ := dropDigits_eq_some h
  obtain ⟨d, digits, rfl⟩ := List.exists_cons_of_length_pos (Nat.le_trans some length)
  exact ⟨.inr mark, .inr ⟨d, digits ++ rest, split, all d List.mem_cons_self⟩, hr.dropDigits h⟩

theorem dropDatePart (h : dropDatePart cs = some rest) (hr : DateLike rest) : DateLike cs := by
  obtain ⟨mark, digits, rfl, marks, all, some⟩ := dropDatePart_eq_some h
  refine ⟨.inr ?_, .inr ?_, hr.digits all⟩
  · simp only [List.mem_cons, List.not_mem_nil, or_false] at marks
    rcases marks with rfl | rfl | rfl <;> rfl
  · obtain ⟨d, digits, rfl⟩ := List.exists_cons_of_length_pos some
    exact ⟨d, digits ++ rest, rfl, all d List.mem_cons_self⟩

end DateLike

theorem dateLike_of_isZone (h : isZone cs = true) : DateLike cs := by
  unfold isZone at h
  split at h
  case h_1 => trivial
  case h_2 c cs =>
    split at h
    case isTrue z =>
      rw [List.isEmpty_iff] at h
      subst h
      simp only [Bool.or_eq_true, beq_iff_eq] at z
      rcases z with rfl | rfl
      · exact ⟨.inr rfl, .inl (.inr (.inl rfl)), trivial⟩
      · exact ⟨.inr rfl, .inl (.inr (.inr rfl)), trivial⟩
    case isFalse =>
      split at h
      case isFalse => cases h
      case isTrue sign =>
        have mark : isDateChar c = true := by
          simp only [Bool.or_eq_true, beq_iff_eq] at sign
          rcases sign with rfl | rfl <;> rfl
        split at h
        case h_1 hours cs hour =>
          exact .mark mark hour (by decide) (.mark rfl (beq_iff_eq.1 h) (by decide) trivial)
        case h_2 hours cs other hour => exact .mark mark hour (by decide) (.dropDigits (beq_iff_eq.1 h) trivial)
        case h_3 => cases h

theorem dateLike_of_isSecondsAndZone (h : isSecondsAndZone cs = true) : DateLike cs := by
  unfold isSecondsAndZone at h
  split at h
  case h_1 cs =>
    split at h
    case h_1 seconds cs second =>
      obtain ⟨rest, fraction, zone⟩ := Option.any_eq_true _ _ |>.1 h
      exact .mark rfl second (by decide) (.mark rfl fraction (by decide) (dateLike_of_isZone zone))
    case h_2 second => exact .mark rfl second (by decide) (dateLike_of_isZone h)
    case h_3 => cases h
  case h_2 => exact dateLike_of_isZone h

theorem dateLike_of_isTimeOfDay (h : isTimeOfDay cs = true) : DateLike ('T' :: cs) := by
  unfold isTimeOfDay at h
  split at h
  case h_1 hours cs hour =>
    obtain ⟨rest, minute, zone⟩ := Option.any_eq_true _ _ |>.1 h
    exact .mark rfl hour (by decide) (.mark rfl minute (by decide) (dateLike_of_isSecondsAndZone zone))
  case h_2 => cases h

theorem isDate_cases (h : isDate cs = true) : ∃ month day rest,
    dropDigits 4 4 cs = some month ∧ dropDatePart month = some day ∧ dropDatePart day = some rest ∧
      DateLike rest := by
  unfold isDate at h
  have parts {rest : List Char} (h : ((dropDigits 4 4 cs).bind dropDatePart).bind dropDatePart = some rest) :
      ∃ month day, dropDigits 4 4 cs = some month ∧ dropDatePart month = some day ∧
        dropDatePart day = some rest := by
    obtain ⟨day, first, third⟩ := Option.bind_eq_some_iff.1 h
    obtain ⟨month, first, second⟩ := Option.bind_eq_some_iff.1 first
    exact ⟨month, day, first, second, third⟩
  split at h
  case h_1 whole =>
    obtain ⟨month, day, shape⟩ := parts whole
    exact ⟨month, day, [], shape.1, shape.2.1, shape.2.2, trivial⟩
  case h_2 cs' whole =>
    obtain ⟨month, day, shape⟩ := parts whole
    exact ⟨month, day, 'T' :: cs', shape.1, shape.2.1, shape.2.2, dateLike_of_isTimeOfDay h⟩
  case h_3 => cases h

theorem isDate_head {c : Char} (h : isDate (c :: cs) = true) : Text.isDecimalDigit c = true := by
  obtain ⟨month, _, _, years, -⟩ := isDate_cases h
  obtain ⟨digits, split, all, four⟩ := dropDigits_eq_some years
  obtain ⟨d, digits, rfl⟩ := List.exists_cons_of_length_pos (Nat.lt_of_lt_of_le (by decide) four)
  cases split
  exact all c List.mem_cons_self

theorem dateLike_of_isDate (h : isDate cs = true) : DateLike cs := by
  obtain ⟨month, day, rest, years, months, days, like⟩ := isDate_cases h
  exact .dropDigits years (.dropDatePart months (.dropDatePart days like))

theorem plain_of_dateLike {c : Char} (h : Text.isDecimalDigit c = true ∨ isDateChar c = true) : Text.Plain c := by
  refine Text.plain_of_toNat ?_
  rcases h with h | h
  · by_cases ascii : c.toNat < 0x80
    · have := Text.toNat_of_isDigit (Text.isDigit_of_isDecimalDigit ascii h)
      omega
    · omega
  · simp only [isDateChar, Bool.or_eq_true, beq_iff_eq, or_assoc] at h
    rcases h with h | rfl | rfl | rfl | rfl | rfl | rfl | rfl | rfl
    · have := Text.toNat_of_isDigit h
      omega
    all_goals decide

namespace DateLike

theorem mem (h : DateLike cs) : ∀ c ∈ cs, Text.isDecimalDigit c = true ∨ isDateChar c = true := by
  induction cs with
  | nil => nofun
  | cons c cs ih => exact List.forall_mem_cons.2 ⟨h.1, ih h.2.2⟩

theorem behind_slash {before : List Char} (h : DateLike (before ++ '/' :: cs)) :
    ∃ d rest, cs = d :: rest ∧ Text.isDecimalDigit d = true := by
  induction before with
  | nil =>
    rcases h.2.1 with (digit | utc | utc) | followed
    · cases digit
    · cases utc
    · cases utc
    · exact followed
  | cons c before ih => exact ih h.2.2

theorem dateEnd {c : Char} (h : DateLike (cs ++ [c])) : DateEnd c := by
  induction cs with
  | nil =>
    rcases h.2.1 with ends | ⟨d, rest, split, -⟩
    · exact ends
    · cases split
  | cons d cs ih => exact ih h.2.2

theorem flatMap_escape (h : DateLike cs) : cs.flatMap Text.escape = cs :=
  Text.flatMap_escape_plain fun c mem => plain_of_dateLike (h.mem c mem)

end DateLike

/-! ## Dates are no decimals -/

theorem finishesNumeral_digits {digits : List Char} (h : Digits digits) {digit point : Bool}
    (finished : Decimal.finishesNumeral digit point (digits ++ rest) = true) :
    ∃ digit', Decimal.finishesNumeral digit' point rest = true := by
  induction digits generalizing digit with
  | nil => exact ⟨digit, finished⟩
  | cons c digits ih =>
    obtain ⟨isDigit, h⟩ := List.forall_mem_cons.1 h
    rw [List.cons_append, Decimal.finishesNumeral] at finished
    split at finished
    · exact ih h finished
    split at finished
    · exact ih h finished
    split at finished
    case isTrue point =>
      simp only [Bool.and_eq_true, beq_iff_eq] at point
      rw [point.1] at isDigit
      cases isDigit
    case isFalse =>
      simp only [Decimal.isExponentMark, Bool.and_eq_true, Bool.or_eq_true, beq_iff_eq] at finished
      rcases finished.1.1 with rfl | rfl <;> cases isDigit

/-- Only a point goes on with a numeral, and only once. -/
theorem finishesNumeral_mark {mark : Char} (h : mark ∈ ['-', '/', '.']) {digit point : Bool}
    (finished : Decimal.finishesNumeral digit point (mark :: rest) = true) :
    point = false ∧ Decimal.finishesNumeral digit true rest = true := by
  simp only [List.mem_cons, List.not_mem_nil, or_false] at h
  rcases h with rfl | rfl | rfl <;> simp [Decimal.finishesNumeral, Decimal.isExponentMark] at finished
  exact finished

theorem isNumeral_of_isDate (h : isDate cs = true) : Decimal.isNumeral cs = false := by
  obtain ⟨month, day, rest, years, months, days, -⟩ := isDate_cases h
  obtain ⟨year, rfl, yearDigits, four⟩ := dropDigits_eq_some years
  obtain ⟨mark, first, rfl, marks, firstDigits, -⟩ := dropDatePart_eq_some months
  obtain ⟨mark', second, rfl, marks', -, -⟩ := dropDatePart_eq_some days
  obtain ⟨d, year, rfl⟩ := List.exists_cons_of_length_pos (Nat.lt_of_lt_of_le (by decide) four)
  have digit := yearDigits d List.mem_cons_self
  cases numeral : Decimal.isNumeral (d :: year ++ mark :: (first ++ mark' :: (second ++ rest))) with
  | false => rfl
  | true =>
    have finished : Decimal.finishesNumeral false false
        (d :: year ++ mark :: (first ++ mark' :: (second ++ rest))) = true := by
      have plus : d ≠ '+' := by
        rintro rfl
        cases digit
      have minus : d ≠ '-' := by
        rintro rfl
        cases digit
      rw [Decimal.isNumeral, List.cons_append, Decimal.dropSign_cons plus minus, Bool.and_eq_true] at numeral
      exact numeral.2
    obtain ⟨_, finished⟩ := finishesNumeral_digits yearDigits finished
    obtain ⟨-, finished⟩ := finishesNumeral_mark marks finished
    obtain ⟨_, finished⟩ := finishesNumeral_digits firstDigits finished
    exact absurd (finishesNumeral_mark marks' finished).1 (by decide)

end ExactFormula.Relaxed
