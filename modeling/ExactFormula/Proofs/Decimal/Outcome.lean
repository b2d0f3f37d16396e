import ExactFormula.Proofs.Decimal.Spelling

/-!
What a text comes to when it is read as a decimal: it is empty, it is no numeral, its exponent is out of range, or it
is a decimal. An exponent is out of range by its value, or because it is written with more than nine digits.
-/

namespace ExactFormula.Decimal

namespace Numeral

variable (n : Numeral)

/-! ## Numerals are what is accepted -/

theorem isExponent_chars (p : Power) : isExponent (p.sign.chars ++ p.digits) = true := by
  obtain ⟨c, mem, isDigit⟩ := p.shown
  obtain ⟨d, ds, split⟩ := List.exists_cons_of_ne_nil (List.ne_nil_of_mem mem)
  have char := unsigned_of_isDigitOrGap (p.gapped d (split ▸ List.mem_cons_self))
  have body := (signed char.1 char.2 p.sign ds).1
  rw [← split] at body
  rw [isExponent, body, Bool.and_eq_true, List.all_eq_true, List.any_eq_true]
  exact ⟨p.gapped, c, mem, isDigit⟩

theorem finishesNumeral_tail (point : Bool) : finishesNumeral true point n.tail = true := by
  rw [tail]
  cases n.power with
  | none => rfl
  | some p =>
    have marks : p.mark = 'e' ∨ p.mark = 'E' := by simpa [isExponentMark] using p.isMark
    rw [Option.map_some, Option.getD_some, Power.chars, finishesNumeral]
    rcases marks with mark | mark <;> simp [mark, isExponentMark, isExponent_chars]

theorem finishesNumeral_body : finishesNumeral false false (n.mantissa ++ n.tail) = true := by
  have gapped := n.gapped
  have shown := List.any_eq_true.2 n.shown
  rw [mantissa, List.append_assoc]
  cases fraction : n.fraction with
  | none =>
    rw [fraction, Option.getD_none, List.append_nil] at gapped shown
    rw [finishesNumeral_gapped gapped, shown]
    exact n.finishesNumeral_tail false
  | some ds =>
    rw [fraction, Option.getD_some] at gapped shown
    obtain ⟨before, behind⟩ := List.forall_mem_append.1 gapped
    rw [finishesNumeral_gapped before, Option.map_some, Option.getD_some, List.cons_append]
    have point : finishesNumeral (false || n.whole.any Char.isDigit) false ('.' :: (ds ++ n.tail)) =
        finishesNumeral (n.whole.any Char.isDigit) true (ds ++ n.tail) := rfl
    rw [point, finishesNumeral_gapped behind, ← List.any_append, shown]
    exact n.finishesNumeral_tail true

theorem isNumeral_chars : isNumeral n.chars = true := by
  obtain ⟨c, cs, body⟩ : ∃ c cs, n.mantissa ++ n.tail = c :: cs := by
    refine List.exists_cons_of_ne_nil fun empty => ?_
    have finished := n.finishesNumeral_body
    rw [empty] at finished
    cases finished
  have starts : c.isDigit = true ∨ c = '.' := by
    rw [mantissa, List.append_assoc] at body
    cases whole : n.whole with
    | cons d ds =>
      have char := n.gapped d (by simp [whole])
      have first : d ≠ '_' := fun gap => n.starts (by rw [whole, gap]; rfl)
      rw [whole] at body
      cases body
      exact .inl (by simpa [isDigitOrGap, first] using char)
    | nil =>
      cases fraction : n.fraction with
      | some ds =>
        rw [whole, fraction] at body
        cases body
        exact .inr rfl
      | none =>
        obtain ⟨c, mem, -⟩ := n.shown
        rw [whole, fraction] at mem
        cases mem
  have unsigned : dropSign n.chars = c :: cs := by
    have apart := n.unsigned_body
    rw [body] at apart
    obtain ⟨plus, minus⟩ := apart c rfl
    rw [chars, ← tail, body]
    exact (signed plus minus n.sign cs).1
  have finished := n.finishesNumeral_body
  rw [body] at finished
  rw [isNumeral, unsigned]
  exact Bool.and_eq_true_iff.2 ⟨by simpa using starts, finished⟩

end Numeral

theorem Numeral.dropSign_chars (n : Numeral) (unsigned : n.sign = .none) : dropSign n.chars = n.chars := by
  rcases dropSign_cases n.chars with same | ⟨c, split, isSign⟩
  · exact same
  · have body : (n.mantissa ++ n.tail).head? = some c := by
      rw [chars, unsigned] at split
      exact congrArg List.head? split
    obtain ⟨plus, minus⟩ := n.unsigned_body c body
    exact absurd isSign (not_or.2 ⟨plus, minus⟩)

theorem isNumeral_iff (cs : List Char) : isNumeral cs = true ↔ ∃ n : Numeral, cs = n.chars := by
  constructor
  · intro h
    obtain ⟨n, same⟩ := exists_numeral h
    exact ⟨n, same.symm⟩
  · rintro ⟨n, rfl⟩
    exact n.isNumeral_chars

/-! ## Exponents in range -/

/-- The digits of the written exponent, leading zeros included. -/
def Numeral.exponentDigits (n : Numeral) : ℕ := (n.power.map fun p => (ungapped p.digits).length).getD 0

theorem Power.natAbs_value (p : Power) : p.value.natAbs = digitValue (ungapped p.digits) := by
  rw [value, Int.natAbs_mul]
  cases p.sign <;> simp [Sign.factor]

theorem Numeral.inRange_iff (n : Numeral) :
    (∀ p ∈ n.power, p.InRange) ↔ n.exponent.natAbs ≤ maxExponent ∧ n.exponentDigits ≤ 9 := by
  rw [exponent, exponentDigits]
  cases n.power with
  | none => simp
  | some p =>
    simp only [Option.mem_some_iff, forall_eq', Option.map_some, Option.getD_some, Power.natAbs_value]
    exact ⟨fun h => ⟨h.small, h.short⟩, fun h => ⟨h.2, h.1⟩⟩

theorem Numeral.places_le (n : Numeral) : n.places ≤ n.chars.length := by
  have kept : n.places ≤ (n.fraction.getD []).length := List.length_filter_le _ _
  rw [chars, mantissa]
  cases fraction : n.fraction with
  | none =>
    rw [fraction] at kept
    exact kept.trans (Nat.zero_le _)
  | some ds =>
    rw [fraction, Option.getD_some] at kept
    simp only [Option.map_some, Option.getD_some, List.length_append, List.length_cons]
    omega

/-- A numeral that is not too long moves its significand by a number of digits that a machine can count. -/
theorem Numeral.least_le_shift {n : Numeral} (short : n.chars.length < 2 ^ 31)
    (inRange : n.exponent.natAbs ≤ maxExponent) : -4294967295 ≤ n.shift := by
  have places := n.places_le
  have exponent : (n.power.map Power.value).getD 0 = n.exponent := rfl
  rw [shift, exponent]
  rw [maxExponent] at inRange
  omega

/-! ## Reading -/

theorem parseChars_numeral {cs : List Char} {n : Numeral} (spelled : Text.trim cs = n.chars) :
    parseChars cs = match readUnits (ungapped n.chars) with
      | some units => .ok ⟨units⟩
      | none => .error (.exponentOutOfRange (String.ofList n.chars)) := by
  have numeral := n.isNumeral_chars
  have shown : n.chars.isEmpty = false := List.isEmpty_eq_false_iff.2 (solid_of_isNumeral numeral).shown
  rw [parseChars, spelled, shown, numeral]
  rfl

theorem readUnits_isSome_iff {n : Numeral} (short : n.chars.length < 2 ^ 31) :
    (∃ u, readUnits (ungapped n.chars) = some u) ↔ n.exponent.natAbs ≤ maxExponent ∧ n.exponentDigits ≤ 9 := by
  rw [← n.inRange_iff]
  constructor
  · rintro ⟨u, read⟩
    exact ((readUnits_eq_some_iff n u).1 read).1
  · intro inRange
    have least := Numeral.least_le_shift short (n.inRange_iff.1 inRange).1
    exact ⟨_, (readUnits_eq_some_iff n _).2 ⟨inRange, least, rfl⟩⟩

/-- The four things that a text can come to. -/
theorem parse_cases {text : String} (short : text.length < 2 ^ 31) :
    Text.trim text.toList = [] ∧ parse text = .error .empty ∨
      Text.trim text.toList ≠ [] ∧ isNumeral (Text.trim text.toList) = false ∧
        parse text = .error (.invalid (String.ofList (Text.trim text.toList))) ∨
      ∃ n : Numeral, Text.trim text.toList = n.chars ∧
        (¬(n.exponent.natAbs ≤ maxExponent ∧ n.exponentDigits ≤ 9) ∧
            parse text = .error (.exponentOutOfRange (String.ofList n.chars)) ∨
          (n.exponent.natAbs ≤ maxExponent ∧ n.exponentDigits ≤ 9) ∧ ∃ a, parse text = .ok a) := by
  have shorter : (Text.trim text.toList).length < 2 ^ 31 := by
    have trimmed := (Text.length_trimEnd_le _).trans (Text.length_trimStart_le text.toList)
    rw [String.length_toList] at trimmed
    exact trimmed.trans_lt short
  cases numeral : isNumeral (Text.trim text.toList) with
  | false =>
    rw [parse, parseChars, numeral]
    by_cases empty : Text.trim text.toList = []
    · exact .inl ⟨empty, by rw [empty]; rfl⟩
    · exact .inr (.inl ⟨empty, rfl, by rw [List.isEmpty_eq_false_iff.2 empty]; rfl⟩)
  | true =>
    obtain ⟨n, spelled⟩ := (isNumeral_iff _).1 numeral
    refine .inr (.inr ⟨n, spelled, ?_⟩)
    rw [spelled] at shorter
    rw [parse, parseChars_numeral spelled, ← readUnits_isSome_iff shorter]
    cases readUnits (ungapped n.chars) with
    | none => exact .inl ⟨by simp, rfl⟩
    | some u => exact .inr ⟨⟨u, rfl⟩, ⟨u⟩, rfl⟩

theorem exists_spelled_iff (n : Numeral) (P : Numeral → Prop) : (∃ m : Numeral, n.chars = m.chars ∧ P m) ↔ P n := by
  constructor
  · rintro ⟨m, same, h⟩
    rwa [Numeral.chars_injective same]
  · exact fun h => ⟨n, rfl, h⟩

/-- A text is refused as empty where nothing is left of it without the blanks around it, as invalid where that is no
numeral, and for its exponent where that is too large or written with more than nine digits. Every other numeral is
read. -/
theorem parse_outcome {text : String} (short : text.length < 2 ^ 31) :
    (parse text = .error .empty ↔ Text.trim text.toList = []) ∧
      (∀ shown, parse text = .error (.invalid shown) ↔ shown = String.ofList (Text.trim text.toList) ∧
        Text.trim text.toList ≠ [] ∧ isNumeral (Text.trim text.toList) = false) ∧
      (∀ shown, parse text = .error (.exponentOutOfRange shown) ↔ shown = String.ofList (Text.trim text.toList) ∧
        ∃ n : Numeral, Text.trim text.toList = n.chars ∧ (maxExponent < n.exponent.natAbs ∨ 9 < n.exponentDigits)) ∧
      ((∃ a, parse text = .ok a) ↔ ∃ n : Numeral, Text.trim text.toList = n.chars ∧
        n.exponent.natAbs ≤ maxExponent ∧ n.exponentDigits ≤ 9) := by
  have unspelled (cs : List Char) (h : isNumeral cs = false) (P : Numeral → Prop) :
      ¬∃ n : Numeral, cs = n.chars ∧ P n := by
    rintro ⟨n, rfl, -⟩
    rw [n.isNumeral_chars] at h
    cases h
  rcases parse_cases short with ⟨empty, read⟩ | ⟨nonempty, invalid, read⟩ | ⟨n, spelled, outcome⟩
  · rw [read, empty]
    simp only [unspelled [] rfl]
    simp
  · rw [read]
    simp only [unspelled _ invalid]
    simp [nonempty, invalid, eq_comm]
  · have numeral := n.isNumeral_chars
    have nonempty : n.chars ≠ [] := (solid_of_isNumeral numeral).shown
    rw [spelled, exists_spelled_iff, numeral]
    simp only [exists_spelled_iff]
    rcases outcome with ⟨far, read⟩ | ⟨inRange, a, read⟩
    · have beyond : maxExponent < n.exponent.natAbs ∨ 9 < n.exponentDigits := by omega
      rw [read]
      simp [nonempty, far, beyond, eq_comm]
    · have within : ¬(maxExponent < n.exponent.natAbs ∨ 9 < n.exponentDigits) := by omega
      rw [read]
      simp [nonempty, inRange, within]

theorem isExponentMark_e : isExponentMark 'e' = true := rfl

/-- `15e-000000007`, with gaps -/
def ninthDigit : Numeral where
  sign := .none
  whole := "1_5".toList
  fraction := none
  power := some ⟨'e', .minus, "00_000_0007".toList, isExponentMark_e, List.all_eq_true.1 (by rfl),
    List.any_eq_true.1 (by rfl)⟩
  gapped := List.all_eq_true.1 (by rfl)
  shown := List.any_eq_true.1 (by rfl)
  starts := by decide

/-- Nine digits of an exponent are read, gaps not counted. -/
theorem parse_outcome_ninth : " 1_5e-00_000_0007 ".length < 2 ^ 31 ∧
    Text.trim " 1_5e-00_000_0007 ".toList = ninthDigit.chars ∧ ninthDigit.exponent.natAbs ≤ maxExponent ∧
      ninthDigit.exponentDigits ≤ 9 ∧ ∃ a, parse " 1_5e-00_000_0007 " = .ok a := by
  have short : " 1_5e-00_000_0007 ".length < 2 ^ 31 := by decide
  have spelled : Text.trim " 1_5e-00_000_0007 ".toList = ninthDigit.chars := by rfl
  have small : ninthDigit.exponent.natAbs ≤ maxExponent := by decide
  have few : ninthDigit.exponentDigits ≤ 9 := by decide
  obtain ⟨-, -, -, read⟩ := parse_outcome short
  exact ⟨short, spelled, small, few, read.2 ⟨ninthDigit, spelled, small, few⟩⟩

/-- `1e0000000001` -/
def tenthDigit : Numeral where
  sign := .none
  whole := "1".toList
  fraction := none
  power := some ⟨'e', .none, "0000000001".toList, isExponentMark_e, List.all_eq_true.1 (by rfl),
    List.any_eq_true.1 (by rfl)⟩
  gapped := List.all_eq_true.1 (by rfl)
  shown := List.any_eq_true.1 (by rfl)
  starts := by decide

/-- With one more digit the exponent one is out of range. -/
theorem tenthDigit_outOfRange : Text.trim "1e0000000001".toList = tenthDigit.chars ∧ tenthDigit.exponent = 1 ∧
    parse "1e0000000001" = .error (.exponentOutOfRange "1e0000000001") := by
  exact ⟨by rfl, by rfl, by rfl⟩

end ExactFormula.Decimal
