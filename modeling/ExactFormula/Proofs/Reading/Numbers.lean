import ExactFormula.Proofs.Decimal.Spelling
import ExactFormula.Proofs.Reading.Tokens

/-!
Numbers in formulas. Where no word is pending, the scan takes a numeral without a sign as one word, with the sign of
its exponent in it and a sign behind it left as an operator, and the word stands for the decimal that the numeral is.
-/

namespace ExactFormula

namespace Decimal

/-! ## The last character -/

theorem unmarked_of_isDigitOrGap {c : Char} (h : isDigitOrGap c = true) : isExponentMark c = false := by
  cases mark : isExponentMark c with
  | false => rfl
  | true =>
    rw [not_isDigitOrGap_of_mark mark] at h
    cases h

theorem unmarked_of_isExponent {cs : List Char} (h : isExponent cs = true) :
    cs ≠ [] ∧ ∀ c ∈ cs.getLast?, isExponentMark c = false := by
  rw [isExponent, Bool.and_eq_true, List.all_eq_true] at h
  obtain ⟨gapped, shown⟩ := h
  have nonempty : dropSign cs ≠ [] := by
    intro none
    rw [none] at shown
    cases shown
  have last : ∀ c ∈ (dropSign cs).getLast?, isExponentMark c = false := fun c last =>
    unmarked_of_isDigitOrGap (gapped c (List.mem_of_getLast? last))
  rcases dropSign_cases cs with same | ⟨sign, split, -⟩
  · rw [same] at nonempty last
    exact ⟨nonempty, last⟩
  · rw [split, ← List.singleton_append, List.getLast?_append_of_ne_nil _ nonempty]
    exact ⟨List.cons_ne_nil _ _, last⟩

/-- What finishes a numeral does not end with the mark of an exponent. -/
theorem unmarked_of_finishesNumeral {cs : List Char} {digit point : Bool} (h : finishesNumeral digit point cs = true) :
    ∀ c ∈ cs.getLast?, isExponentMark c = false := by
  have behind {c : Char} {cs : List Char} (here : isDigitOrGap c = true ∨ c = '.')
      (later : ∀ d ∈ cs.getLast?, isExponentMark d = false) : ∀ d ∈ (c :: cs).getLast?, isExponentMark d = false := by
    cases cs with
    | cons e cs => rwa [List.getLast?_cons_cons]
    | nil =>
      rintro _ ⟨⟩
      rcases here with plain | rfl
      · exact unmarked_of_isDigitOrGap plain
      · rfl
  induction cs generalizing digit point with
  | nil => nofun
  | cons c cs ih =>
    rw [finishesNumeral] at h
    split at h
    case isTrue isDigit => exact behind (.inl (by rw [isDigitOrGap, isDigit, Bool.true_or])) (ih h)
    split at h
    case isTrue isGap => exact behind (.inl (by rw [isDigitOrGap, isGap, Bool.or_true])) (ih h)
    split at h
    case isTrue isPoint => exact behind (.inr (by simpa using (Bool.and_eq_true_iff.1 isPoint).1)) (ih h)
    case isFalse =>
      obtain ⟨nonempty, last⟩ := unmarked_of_isExponent (Bool.and_eq_true_iff.1 h).2
      rwa [← List.singleton_append, List.getLast?_append_of_ne_nil _ nonempty]

theorem unmarked_of_isNumeral {cs : List Char} (h : isNumeral cs = true) (unsigned : dropSign cs = cs) :
    ∀ c ∈ cs.getLast?, isExponentMark c = false := by
  rw [isNumeral, unsigned] at h
  cases cs with
  | nil => cases h
  | cons c cs => exact unmarked_of_finishesNumeral (Bool.and_eq_true_iff.1 h).2

end Decimal

namespace Lexeme

variable {pending number text rest : List Char}

/-- What may follow a word directly and ends it: nothing, a blank, an operator, a quote or an opening delimiter. -/
def Delimits (rest : List Char) : Prop :=
  ∀ c ∈ rest.head?, Text.isBlank c = true ∨ isOperatorChar c = true ∨ Text.isQuote c = true ∨ isOpener c = true

/-- A delimiter ends the pending word and is scanned as it is without one. -/
theorem scanStep_delimiter {c : Char} (cs : List Char)
    (delimits : Text.isBlank c = true ∨ isOperatorChar c = true ∨ Text.isQuote c = true ∨ isOpener c = true)
    (complete : continuesExponent pending c = false) :
    scanStep pending c cs = ⟨flush pending ++ (scanStep [] c cs).output, (scanStep [] c cs).next⟩ := by
  have begun : continuesExponent [] c = false := by
    rw [continuesExponent, List.head?_nil, Option.any_none, Bool.and_false, Bool.false_and]
  rw [scanStep, scanStep]
  cases quote : Text.isQuote c with
  | true => cases Text.closingLength? false c cs <;> rfl
  | false =>
  cases opens : isOpener c with
  | true => cases groupLength c 0 [closer c] cs <;> rfl
  | false =>
  cases closes : isCloser c with
  | true =>
    refine absurd delimits ?_
    rcases isCloser_cases closes with rfl | rfl | rfl <;> decide
  | false =>
  cases blank : Text.isBlank c with
  | true => simp [Text.Step.emit, flush]
  | false =>
  have operator : isOperatorChar c = true := by simpa [quote, opens, blank] using delimits
  simp [operator, complete, begun, Text.Step.swallow, flush]

theorem lexFrom_delimited (delimited : Delimits rest) (complete : ∀ c, continuesExponent pending c = false) :
    lexFrom pending rest = flush pending ++ lexFrom [] rest := by
  cases rest with
  | nil => exact (List.append_nil _).symm
  | cons c rest =>
    rw [lexFrom, lexFrom, Text.scan_cons, Text.scan_cons, scanStep_delimiter rest (delimited c rfl) (complete c),
      List.append_assoc]

theorem complete_of_isNumeral (numeral : Decimal.isNumeral number = true) (unsigned : Decimal.dropSign number = number)
    (c : Char) : continuesExponent number.reverse c = false := by
  rw [continuesExponent, List.head?_reverse]
  cases last : number.getLast? with
  | none => rw [Option.any_none, Bool.and_false, Bool.false_and]
  | some d =>
    have unmarked := Decimal.unmarked_of_isNumeral numeral unsigned d last
    rw [Option.any_some, unmarked, Bool.and_false, Bool.false_and]

/-- A sign where no word is pending is an operator, and none that goes on with the next character. -/
theorem lexFrom_loneSign {sign : Char} (isSign : sign = '+' ∨ sign = '-') (cs : List Char) :
    lexFrom [] (sign :: cs) = operator [sign] :: lexFrom [] cs := by
  have single : operatorAt sign cs = [sign] := by
    rcases operatorAt_cases sign cs with one | ⟨d, behind, op, -, chars, -⟩
    · exact one
    · rcases isSign with rfl | rfl <;> cases op <;> cases chars
  rcases isSign with rfl | rfl <;> exact @lexFrom_symbol [] cs _ [] ⟨rfl, rfl, rfl⟩ rfl rfl single

/-- A numeral is one word, as it is written. -/
theorem lexFrom_number (numeral : Decimal.isNumeral number = true) (unsigned : Decimal.dropSign number = number)
    (delimited : Delimits rest) : lexFrom [] (number ++ rest) = word number :: lexFrom [] rest := by
  have nonempty : number ≠ [] := (Decimal.solid_of_isNumeral numeral).shown
  rw [lexFrom_numeral numeral unsigned, lexFrom_delimited delimited (complete_of_isNumeral numeral unsigned), flush,
    if_neg (by simpa using nonempty), List.reverse_reverse]
  rfl

end Lexeme

namespace Piece

/-- The word of a numeral is the decimal that it reads as, or is refused, whatever the constants are. -/
theorem add_number (env : ReadingEnv) (nested : NestedReader) (pieces : List Piece) {number : List Char}
    (numeral : Decimal.isNumeral number = true) : add env nested pieces (.word number) =
      match Decimal.parse (String.ofList number) with
      | .ok d => pure (operand (.constant (.number d)) :: pieces)
      | .error _ => throw (.invalidToken (String.ofList number)) := by
  rw [add, ofWord, if_pos numeral, Decimal.parse, String.toList_ofList]
  cases Decimal.parseChars number <;> rfl

end Piece

/-- Where the scan of a text comes, with no word pending, to a numeral without a sign that ends in front of a
delimiter, the numeral is one lexeme and what follows is scanned as a text of its own, a sign in front of it as an
operator. The lexeme is added as the decimal that the numeral reads as, or refused when it does not. -/
theorem lexemes_number {text number rest : List Char} {before : List Lexeme}
    (place : Text.Reaches Lexeme.scanStep [] text before [] (number ++ rest))
    (numeral : Decimal.isNumeral number = true) (unsigned : Decimal.dropSign number = number)
    (delimited : Lexeme.Delimits rest) :
    lexemes text = before ++ .word number :: lexemes rest ∧
      (∀ sign behind, sign = '+' ∨ sign = '-' → rest = sign :: behind →
        lexemes rest = .operator [sign] :: lexemes behind) ∧
      ∀ (env : ReadingEnv) (nested : NestedReader) (pieces : List Piece),
        Piece.addAll env nested pieces (.word number :: lexemes rest) =
          match Decimal.parse (String.ofList number) with
          | .ok d => Piece.addAll env nested (.operand (.constant (.number d)) :: pieces) (lexemes rest)
          | .error _ => throw (.invalidToken (String.ofList number)) := by
  refine ⟨?_, fun sign behind isSign split => ?_, fun env nested pieces => ?_⟩
  · exact place.scan_eq.trans (congrArg (before ++ ·) (Lexeme.lexFrom_number numeral unsigned delimited))
  · rw [split]
    exact Lexeme.lexFrom_loneSign isSign behind
  · rw [Piece.addAll, Piece.add_number env nested pieces numeral]
    cases Decimal.parse (String.ofList number) <;> rfl

/-- In `2*1e-5-x` the first sign belongs to the number, which a constant of its spelling does not replace, and the
second is an operator. An exponent of too many digits is refused as a whole. -/
theorem lexemes_number_exponent :
    (lexemes "2*1e-5-x".toList = [.word ['2'], .operator ['*'], .word "1e-5".toList, .operator ['-'], .word ['x']] ∧
      Piece.addAll ⟨{ constants := [("1e-5", .number (.ofInt 7))] }, 0⟩ (fun _ _ => throw .emptyExpression) []
          [.word "1e-5".toList] = pure [.operand (.constant (.number ⟨1000000000000000⟩))]) ∧
    Piece.addAll ⟨{}, 0⟩ (fun _ _ => throw .emptyExpression) [] [.word "1e0000000001".toList] =
      throw (.invalidToken "1e0000000001") := by
  have factor : Lexeme.scanStep [] '2' "*1e-5-x".toList = .swallow [] 0 ['2'] := rfl
  have times : Lexeme.scanStep ['2'] '*' "1e-5-x".toList = .swallow [.word ['2'], .operator ['*']] 0 [] := rfl
  have placed : Text.Reaches Lexeme.scanStep [] "2*1e-5-x".toList [.word ['2'], .operator ['*']] []
      ("1e-5".toList ++ "-x".toList) := .next factor (.next times (.here _ _))
  have signed : Lexeme.Delimits "-x".toList := fun c h => by cases h; decide
  have ended : Lexeme.Delimits [] := nofun
  obtain ⟨split, sign, -⟩ := lexemes_number placed rfl rfl signed
  obtain ⟨-, -, read⟩ := lexemes_number (.here [] ("1e-5".toList ++ [])) rfl rfl ended
  obtain ⟨-, -, refused⟩ := lexemes_number (.here [] ("1e0000000001".toList ++ [])) rfl rfl ended
  refine ⟨⟨?_, read _ _ _⟩, refused _ _ _⟩
  rw [split, sign '-' ['x'] (.inr rfl) rfl]
  rfl

end ExactFormula
