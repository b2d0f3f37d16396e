import ExactFormula.Proofs.Bytewise.Skipping

/-!
The recognition of decimal numerals by bytes.
-/

namespace ExactFormula.Bytewise

open Decimal (isDigitOrGap isExponent isExponentMark finishesNumeral)

variable {text cs : List Char} {c : Char} {p : Nat}

/-- Digits and gaps, and whether there is a digit among them. -/
def exponentDigits (text : List Char) (seen : Bool) (p : Nat) : Except Fault (Bool × Nat) :=
  loop text (fun seen k b =>
    if b.isDigit then .ok (.next true (k + 1))
    else if b != '_' then .ok (.done (seen, k))
    else .ok (.next seen (k + 1))) (fun seen k => .ok (seen, k)) seen p

/-- What a numeral has shown so far. -/
structure Shown where
  digit : Bool
  point : Bool
  exponent : Bool

def numeralTurn (text : List Char) (s : Shown) (j : Nat) (c : Char) : Except Fault (Turn Shown Bool) :=
  if c.isDigit then return .next { s with digit := true } (j + 1)
  else if c == '_' then return .next s (j + 1)
  else if c == '.' && !s.point && !s.exponent then return .next { s with point := true } (j + 1)
  else if isExponentMark c && !s.exponent && s.digit then do
    let signed := (byte? text (j + 1)).any fun d => d == '+' || d == '-'
    let (seen, k) ← exponentDigits text false (if signed then j + 1 + 1 else j + 1)
    if seen then return .next { s with exponent := true } k else return .done false
  else return .done false

/-- A numeral behind its sign. -/
def unsignedLiteral (text : List Char) (start : Nat) : Except Fault Bool := do
  let first ← byteAt text start
  if !first.isDigit && first != '.' then return false
  loop text (numeralTurn text) (fun s _ => .ok s.digit) ⟨false, false, false⟩ start

def isDecimalLiteral (text : List Char) : Except Fault Bool := do
  if size text = 0 then return false
  let sign ← byteAt text 0
  if sign == '+' || sign == '-' then
    if size text = 1 then return false
    unsignedLiteral text 1
  else unsignedLiteral text 0

theorem narrow_isDigitOrGap : Narrow isDigitOrGap := fun wide => by
  rw [isDigitOrGap, narrow_isDigit wide, beq_wide wide (by decide), Bool.or_self]

theorem narrow_isExponentMark : Narrow isExponentMark := fun wide => by
  rw [isExponentMark, beq_wide wide (by decide), beq_wide wide (by decide), Bool.or_self]

theorem narrow_sign : Narrow fun d => d == '+' || d == '-' := fun wide => by
  simp (disch := decide) only [beq_wide wide, Bool.or_self]

theorem At.exponentDigits_eq (h : At text p cs) (seen : Bool) : exponentDigits text seen p =
    .ok (seen || (cs.takeWhile isDigitOrGap).any Char.isDigit,
      Bytewise.ahead p cs (cs.takeWhile isDigitOrGap).length) := by
  induction cs generalizing p seen with
  | nil =>
    rw [exponentDigits, h.loop_nil, List.takeWhile_nil, List.any_nil, Bool.or_false]
    rfl
  | cons c cs ih =>
    obtain ⟨b, byte, first⟩ := h.exists_byte
    cases taken : isDigitOrGap c with
    | false =>
      have other : b.isDigit = false ∧ b ≠ '_' := by
        rw [← narrow_isDigitOrGap.same first] at taken
        simpa [isDigitOrGap] using taken
      have stops : exponentDigits text seen p = .ok (seen, p) := loop_done byte (by simp [other])
      rw [stops, List.takeWhile_cons, taken, if_neg Bool.false_ne_true, List.any_nil, Bool.or_false]
      rfl
    | true =>
      have ascii : Ascii c := narrow_isDigitOrGap.ascii taken
      have next : exponentDigits text seen p = exponentDigits text (seen || c.isDigit) (p + c.utf8Size) := by
        rw [ascii.utf8Size_eq]
        refine loop_next (h.byte?_ascii ascii) ?_ (Nat.lt_succ_self p)
        cases digit : c.isDigit with
        | true => rw [if_pos rfl, Bool.or_true]
        | false =>
          rw [isDigitOrGap, digit, Bool.false_or] at taken
          simp [beq_iff_eq.1 taken]
      rw [next, ih h.next, List.takeWhile_cons, if_pos taken, List.any_cons, List.length_cons, ahead_succ,
        Bool.or_assoc]

/-- Behind its exponent a numeral ends. -/
theorem At.numeralLoop_ended (h : At text p cs) (stopped : cs.takeWhile isDigitOrGap = []) (point : Bool) :
    loop text (numeralTurn text) (fun s _ => .ok s.digit) ⟨true, point, true⟩ p = .ok cs.isEmpty := by
  cases cs with
  | nil => exact h.loop_nil
  | cons c cs =>
    obtain ⟨b, byte, first⟩ := h.exists_byte
    have other : b.isDigit = false ∧ b ≠ '_' := by
      have stopped : isDigitOrGap c = false := by simpa [List.takeWhile_cons] using stopped
      rw [← narrow_isDigitOrGap.same first] at stopped
      simpa [isDigitOrGap] using stopped
    exact loop_done byte (by simp [numeralTurn, other])

theorem At.behind_sign (h : At text p cs) : At text
    (if (byte? text p).any fun d => d == '+' || d == '-' then p + 1 else p) (Decimal.dropSign cs) := by
  rw [h.any_byte? narrow_sign.uniform]
  cases cs with
  | nil => exact h
  | cons c cs =>
    by_cases plus : c = '+'
    · subst plus
      exact h.next
    by_cases minus : c = '-'
    · subst minus
      exact h.next
    have unsigned : ((c :: cs).head?.any fun d => d == '+' || d == '-') = false := by simp [plus, minus]
    rw [unsigned, Decimal.dropSign_cons plus minus]
    exact h

theorem isExponent_eq (cs : List Char) : isExponent cs = (((Decimal.dropSign cs).dropWhile isDigitOrGap).isEmpty &&
    ((Decimal.dropSign cs).takeWhile isDigitOrGap).any Char.isDigit) := by
  have whole := List.takeWhile_append_dropWhile (p := isDigitOrGap) (l := Decimal.dropSign cs)
  have all : (Decimal.dropSign cs).all isDigitOrGap = ((Decimal.dropSign cs).dropWhile isDigitOrGap).isEmpty := by
    rw [Bool.eq_iff_iff, List.all_eq_true, List.isEmpty_iff, List.dropWhile_eq_nil_iff]
  rw [isExponent, all]
  cases ended : ((Decimal.dropSign cs).dropWhile isDigitOrGap).isEmpty with
  | false => rw [Bool.false_and, Bool.false_and]
  | true =>
    rw [List.isEmpty_iff.1 ended, List.append_nil] at whole
    rw [whole]

theorem At.numeralLoop_eq (h : At text p cs) (digit point : Bool) :
    loop text (numeralTurn text) (fun s _ => .ok s.digit) ⟨digit, point, false⟩ p =
      .ok (finishesNumeral digit point cs) := by
  induction cs generalizing p digit point with
  | nil => exact h.loop_nil
  | cons c cs ih =>
    by_cases ascii : Ascii c
    · have byte := h.byte?_ascii ascii
      have next := h.next
      rw [ascii.utf8Size_eq] at next
      rw [finishesNumeral]
      cases isDigit : c.isDigit with
      | true =>
        rw [if_pos rfl, ← ih next]
        exact loop_next byte (by rw [numeralTurn, isDigit]; rfl) (Nat.lt_succ_self p)
      | false =>
      cases gap : c == '_' with
      | true =>
        rw [if_neg Bool.false_ne_true, if_pos rfl, ← ih next]
        exact loop_next byte (by rw [numeralTurn, isDigit, gap]; rfl) (Nat.lt_succ_self p)
      | false =>
      have turn : numeralTurn text ⟨digit, point, false⟩ p c =
          if c == '.' && !point then .ok (.next ⟨digit, true, false⟩ (p + 1))
          else if isExponentMark c && digit then do
            let signed := (byte? text (p + 1)).any fun d => d == '+' || d == '-'
            let (seen, k) ← exponentDigits text false (if signed then p + 1 + 1 else p + 1)
            if seen then return .next ⟨digit, point, true⟩ k else return .done false
          else .ok (.done false) := by
        simp only [numeralTurn, isDigit, gap, Bool.not_false, Bool.and_true, if_neg Bool.false_ne_true]
        rfl
      cases dot : c == '.' && !point with
      | true =>
        rw [if_neg Bool.false_ne_true, if_neg Bool.false_ne_true, if_pos rfl, ← ih next]
        exact loop_next byte (turn.trans (by rw [dot]; rfl)) (Nat.lt_succ_self p)
      | false =>
      cases mark : isExponentMark c && digit with
      | true =>
        obtain ⟨-, rfl⟩ := Bool.and_eq_true_iff.1 mark
        have digits := next.behind_sign
        have read := digits.exponentDigits_eq false
        have behind := digits.behind_takeWhile isDigitOrGap
        rw [dot, mark, if_neg Bool.false_ne_true, if_pos rfl] at turn
        dsimp only at turn
        rw [read, ok_bind, Bool.false_or] at turn
        rw [isExponent_eq]
        cases seen : ((Decimal.dropSign cs).takeWhile isDigitOrGap).any Char.isDigit with
        | true =>
          rw [seen] at turn
          refine (loop_next byte turn ?_).trans ((behind.numeralLoop_ended (takeWhile_dropWhile ..) point).trans ?_)
          · refine Nat.lt_of_lt_of_le ?_ (le_ahead ..)
            split <;> omega
          · rw [Bool.and_true]
            rfl
        | false =>
          rw [seen] at turn
          rw [Bool.and_false, Bool.and_false]
          exact loop_done byte turn
      | false => exact loop_done byte (turn.trans (by rw [dot, mark]; rfl))
    · obtain ⟨b, byte, wide⟩ := h.byte?_wide ascii c.utf8Size_pos
      have left : numeralTurn text ⟨digit, point, false⟩ p b = .ok (.done false) := by
        simp (disch := decide) [numeralTurn, narrow_isDigit wide, beq_wide wide, narrow_isExponentMark wide]
      have wrong : finishesNumeral digit point (c :: cs) = false := by
        simp (disch := decide) [finishesNumeral, narrow_isDigit ascii, beq_wide ascii, narrow_isExponentMark ascii]
      rw [wrong]
      exact loop_done byte left

theorem At.unsignedLiteral_eq (h : At text p (c :: cs)) :
    unsignedLiteral text p = .ok ((c.isDigit || c == '.') && finishesNumeral false false (c :: cs)) := by
  obtain ⟨b, byte, first⟩ := h.exists_byte
  have narrow : Narrow fun d => d.isDigit || d == '.' := fun wide => by
    simp (disch := decide) only [narrow_isDigit wide, beq_wide wide, Bool.or_self]
  have left : (!b.isDigit && b != '.') = !(c.isDigit || c == '.') := by
    rw [← narrow.same first, Bool.not_or, bne]
  rw [unsignedLiteral, byteAt_of_byte? byte, ok_bind, left]
  cases starts : c.isDigit || c == '.' with
  | false => rfl
  | true => exact h.numeralLoop_eq false false

theorem isDecimalLiteral_eq (text : List Char) : isDecimalLiteral text = .ok (Decimal.isNumeral text) := by
  cases text with
  | nil => rfl
  | cons c cs =>
    have start := At.start (c :: cs)
    obtain ⟨b, byte, -⟩ := start.exists_byte
    have behind := start.behind_sign
    rw [byte, Option.any_some] at behind
    rw [isDecimalLiteral, if_neg (Nat.ne_of_gt start.lt), byteAt_of_byte? byte, ok_bind, Decimal.isNumeral]
    generalize Decimal.dropSign (c :: cs) = unsigned at behind ⊢
    cases signed : b == '+' || b == '-' with
    | true =>
      rw [signed, if_pos rfl, Nat.zero_add] at behind
      cases unsigned with
      | nil =>
        rw [if_pos rfl, if_pos behind.size_of_nil]
        rfl
      | cons d ds =>
        rw [if_pos rfl, if_neg (Nat.ne_of_gt behind.lt)]
        exact behind.unsignedLiteral_eq
    | false =>
      rw [signed, if_neg Bool.false_ne_true] at behind
      cases unsigned with
      | nil => exact absurd behind.size_of_nil (Nat.ne_of_gt start.lt)
      | cons d ds => exact behind.unsignedLiteral_eq

end ExactFormula.Bytewise
