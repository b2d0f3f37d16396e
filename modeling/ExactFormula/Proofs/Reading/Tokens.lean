import ExactFormula.Proofs.Reading.Segments

/-!
The lexemes of phrases. Blanks or the end of the text follow each token, so each is scanned as it was written.
-/

namespace ExactFormula

namespace Lexeme

variable {rest : List Char}

/-- A token may end in front of the rest. -/
def Ends (rest : List Char) : Prop := rest = [] ∨ ∃ b behind, rest = b :: behind ∧ Text.isBlank b = true

theorem Ends.nil : Ends [] := .inl rfl

theorem Ends.blank {blanks : List Char} (blank : ∀ c ∈ blanks, Text.isBlank c = true) : Ends blanks := by
  cases blanks with
  | nil => exact .nil
  | cons b blanks => exact .inr ⟨b, blanks, rfl, blank b List.mem_cons_self⟩

theorem Ends.space (w : Space) (rest : List Char) : Ends (w.chars ++ rest) := by
  rcases Ends.blank w.blank with nil | ⟨b, blanks, split, blank⟩
  · exact absurd nil w.nonempty
  · exact .inr ⟨b, blanks ++ rest, by rw [split, List.cons_append], blank⟩

theorem Ends.lexFrom_eq (h : Ends rest) (pending : List Char) :
    lexFrom pending rest = flush pending ++ lexFrom [] rest := by
  rcases h with rfl | ⟨b, behind, rfl, blank⟩
  · exact (List.append_nil _).symm
  · have steady := (inert_of_isBlank blank).toSteady
    rw [lexFrom_blank steady blank, @lexFrom_blank [] behind b steady blank]
    rfl

theorem lexFrom_blanks {blanks : List Char} (blank : ∀ c ∈ blanks, Text.isBlank c = true) (rest : List Char) :
    lexFrom [] (blanks ++ rest) = lexFrom [] rest := by
  induction blanks with
  | nil => rfl
  | cons b blanks ih =>
    obtain ⟨first, blank⟩ := List.forall_mem_cons.1 blank
    rw [List.cons_append, lexFrom_blank (inert_of_isBlank first).toSteady first, ih blank]
    rfl

theorem lexFrom_space (w : Space) (rest : List Char) : lexFrom [] (w.chars ++ rest) = lexFrom [] rest :=
  lexFrom_blanks w.blank rest

/-! ## Words -/

theorem lexFrom_wordlike {c : Char} (wordlike : Wordlike c) (pending cs : List Char) :
    lexFrom pending (c :: cs) = lexFrom (c :: pending) cs :=
  lexFrom_char wordlike.steady wordlike.shown (by rw [wordlike.plain, Bool.false_and])

theorem lexFrom_word {cs : List Char} (wordlike : ∀ c ∈ cs, Wordlike c) (pending rest : List Char) :
    lexFrom pending (cs ++ rest) = lexFrom (cs.reverse ++ pending) rest := by
  induction cs generalizing pending with
  | nil => rfl
  | cons c cs ih =>
    obtain ⟨first, wordlike⟩ := List.forall_mem_cons.1 wordlike
    rw [List.cons_append, lexFrom_wordlike first, ih wordlike, List.reverse_cons, List.append_assoc,
      List.singleton_append]

theorem wordlike_of_isDigitOrGap {c : Char} (h : Decimal.isDigitOrGap c = true) : Wordlike c := by
  refine wordlike_of_isNameChar ?_
  rw [Decimal.isDigitOrGap, Bool.or_eq_true, beq_iff_eq] at h
  rcases h with digit | rfl
  · have alphanumeric : c.isAlphanum = true := by rw [Char.isAlphanum, digit, Bool.or_true]
    rw [Piece.isNameChar, Text.isWordChar_of_isAlphanum alphanumeric]
    rfl
  · decide

theorem wordlike_of_isExponentMark {c : Char} (h : Decimal.isExponentMark c = true) : Wordlike c := by
  refine wordlike_of_isNameChar ?_
  rw [Decimal.isExponentMark, Bool.or_eq_true, beq_iff_eq, beq_iff_eq] at h
  rcases h with rfl | rfl <;> decide

/-- The sign of an exponent belongs to the number, of which the mark is pending. -/
theorem lexFrom_exponent {mark : Char} {pending cs : List Char} (isMark : Decimal.isExponentMark mark = true)
    (begun : Decimal.isNumeral ('0' :: mark :: pending).reverse = true) (exponent : Decimal.isExponent cs = true)
    (rest : List Char) : lexFrom (mark :: pending) (cs ++ rest) = lexFrom (cs.reverse ++ mark :: pending) rest := by
  rw [Decimal.isExponent, Bool.and_eq_true, List.all_eq_true] at exponent
  have digits (c : Char) (mem : c ∈ Decimal.dropSign cs) : Wordlike c := wordlike_of_isDigitOrGap (exponent.1 c mem)
  rcases Decimal.dropSign_cases cs with same | ⟨sign, split, isSign⟩
  · rw [same] at digits
    exact lexFrom_word digits _ rest
  · have continues : continuesExponent (mark :: pending) sign = true := by
      rw [continuesExponent, begun, List.head?_cons, Option.any_some, isMark]
      rcases isSign with rfl | rfl <;> rfl
    have operator : isOperatorChar sign = true := by
      rcases isSign with rfl | rfl <;> rfl
    have shown : Text.isBlank sign = false := by
      rcases isSign with rfl | rfl <;> rfl
    rw [split, List.cons_append, lexFrom_char (inert_of_isOperatorChar operator).toSteady shown
      (by rw [continues, Bool.not_true, Bool.and_false]), lexFrom_word digits, List.reverse_cons, List.append_assoc,
      List.singleton_append]

/-- Whatever finishes a numeral from here is one, with the pending characters in front of it. -/
def Begun (digit point : Bool) (pending : List Char) : Prop :=
  ∀ more, Decimal.finishesNumeral digit point more = true → Decimal.isNumeral (pending.reverse ++ more) = true

variable {digit point : Bool} {pending : List Char}

theorem Begun.next {c : Char} {digit' point' : Bool} (h : Begun digit point pending)
    (step : ∀ more, Decimal.finishesNumeral digit point (c :: more) = Decimal.finishesNumeral digit' point' more) :
    Begun digit' point' (c :: pending) := by
  intro more finishes
  rw [List.reverse_cons, List.append_assoc, List.singleton_append]
  exact h (c :: more) ((step more).trans finishes)

theorem lexFrom_begun {cs : List Char} (begun : Begun digit point pending)
    (finishes : Decimal.finishesNumeral digit point cs = true) (rest : List Char) :
    lexFrom pending (cs ++ rest) = lexFrom (cs.reverse ++ pending) rest := by
  induction cs generalizing digit point pending with
  | nil => rfl
  | cons c cs ih =>
    rw [List.cons_append, List.reverse_cons, List.append_assoc, List.singleton_append]
    rw [Decimal.finishesNumeral] at finishes
    split at finishes
    case isTrue isDigit =>
      have wordlike : Wordlike c := wordlike_of_isDigitOrGap (by rw [Decimal.isDigitOrGap, isDigit, Bool.true_or])
      rw [lexFrom_wordlike wordlike]
      exact ih (begun.next fun more => by rw [Decimal.finishesNumeral, if_pos isDigit]) finishes
    case isFalse noDigit =>
    split at finishes
    case isTrue isGap =>
      have wordlike : Wordlike c := wordlike_of_isDigitOrGap (by rw [Decimal.isDigitOrGap, isGap, Bool.or_true])
      rw [lexFrom_wordlike wordlike]
      exact ih (begun.next fun more => by rw [Decimal.finishesNumeral, if_neg noDigit, if_pos isGap]) finishes
    case isFalse noGap =>
    split at finishes
    case isTrue isPoint =>
      have wordlike : Wordlike c := by
        rw [Bool.and_eq_true, beq_iff_eq] at isPoint
        rw [isPoint.1]
        exact wordlike_of_isNameChar (by decide)
      rw [lexFrom_wordlike wordlike]
      exact ih (begun.next fun more => by rw [Decimal.finishesNumeral, if_neg noDigit, if_neg noGap, if_pos isPoint])
        finishes
    case isFalse noPoint =>
      rw [Bool.and_eq_true, Bool.and_eq_true] at finishes
      obtain ⟨⟨isMark, shown⟩, exponent⟩ := finishes
      -- A sign behind the mark is kept because one digit in its place would finish a numeral.
      rw [lexFrom_wordlike (wordlike_of_isExponentMark isMark)]
      refine lexFrom_exponent isMark ?_ exponent rest
      rw [List.reverse_cons, List.reverse_cons, List.append_assoc]
      refine begun [c, '0'] ?_
      rw [Decimal.finishesNumeral, if_neg noDigit, if_neg noGap, if_neg noPoint, isMark, shown]
      rfl

theorem isNumeral_cons {c : Char} (first : (c.isDigit || c == '.') = true) (more : List Char) :
    Decimal.isNumeral (c :: more) = Decimal.finishesNumeral false false (c :: more) := by
  have unsigned : c ≠ '+' ∧ c ≠ '-' := by
    constructor
    · rintro rfl
      cases first
    · rintro rfl
      cases first
  rw [Decimal.isNumeral, Decimal.dropSign_cons unsigned.1 unsigned.2]
  simp only [first, Bool.true_and]

/-- A numeral without a sign is pending as a whole, whatever follows it. -/
theorem lexFrom_numeral {text : List Char} (numeral : Decimal.isNumeral text = true)
    (unsigned : Decimal.dropSign text = text) (rest : List Char) :
    lexFrom [] (text ++ rest) = lexFrom text.reverse rest := by
  rw [Decimal.isNumeral, unsigned] at numeral
  cases text with
  | nil => cases numeral
  | cons c cs =>
    dsimp only at numeral
    obtain ⟨first, finishes⟩ := Bool.and_eq_true_iff.1 numeral
    rw [List.cons_append, List.reverse_cons]
    rw [Decimal.finishesNumeral] at finishes
    split at finishes
    case isTrue isDigit =>
      have begun : Begun true false [c] := fun more finishes => by
        refine (isNumeral_cons first more).trans ?_
        rw [Decimal.finishesNumeral, if_pos isDigit, finishes]
      rw [lexFrom_wordlike (wordlike_of_isDigitOrGap (by rw [Decimal.isDigitOrGap, isDigit, Bool.true_or]))]
      exact lexFrom_begun begun finishes rest
    case isFalse noDigit =>
      have point : c = '.' := by simpa [noDigit] using first
      subst point
      have begun : Begun false true ['.'] := fun more finishes => (isNumeral_cons rfl more).trans finishes
      rw [lexFrom_wordlike (wordlike_of_isNameChar (by decide))]
      exact lexFrom_begun begun finishes rest

/-- A word is one lexeme, once it ends. -/
theorem lexFrom_pending {text rest : List Char} (nonempty : text ≠ []) (ends : Ends rest) :
    lexFrom text.reverse rest = word text :: lexFrom [] rest := by
  rw [ends.lexFrom_eq, flush, if_neg (by simpa using nonempty), List.reverse_reverse]
  rfl

/-! ## Operators -/

theorem shown_of_isOperatorChar {c : Char} (h : isOperatorChar c = true) : Text.isBlank c = false := by
  cases blank : Text.isBlank c with
  | false => rfl
  | true =>
    rw [plain_of_apart rfl blank] at h
    cases h

/-- A symbol is one character, or two that are a binary operator. -/
theorem IsSymbol.cases {symbol : List Char} (h : IsSymbol symbol) :
    (∃ c, symbol = [c]) ∨ ∃ op, BinaryOp.chars op = symbol ∧ ∃ c d, symbol = [c, d] := by
  rcases h with ⟨op, rfl⟩ | ⟨op, rfl⟩
  · cases op <;> exact .inl ⟨_, rfl⟩
  · cases op
    case lessEqual | greaterEqual | equal | notEqual | and | or | coalesce => exact .inr ⟨_, rfl, _, _, rfl⟩
    all_goals exact .inl ⟨_, rfl⟩

theorem operatorAt_symbol {c : Char} {more : List Char} (h : IsSymbol (c :: more)) (w : Space) (rest : List Char) :
    operatorAt c (more ++ (w.chars ++ rest)) = c :: more := by
  rcases h.cases with ⟨_, single⟩ | ⟨op, chars, _, d, double⟩
  · cases single
    rcases operatorAt_cases c (w.chars ++ rest) with one | ⟨d, behind, op, next, chars, -⟩
    · exact one
    · have known : IsSymbol [c, d] := .inr ⟨op, chars⟩
      have shown : Text.isBlank d = false := shown_of_isOperatorChar (known.operatorChars d (by simp))
      obtain ⟨b, blanks, split⟩ := List.exists_cons_of_ne_nil w.nonempty
      have blank : Text.isBlank b = true := w.blank b (by rw [split]; exact List.mem_cons_self)
      rw [split] at next
      cases next
      rw [shown] at blank
      cases blank
  · cases double
    have known : BinaryOp.ofChars? [c, d] = some op := by rw [← chars, BinaryOp.ofChars?_chars]
    rw [List.singleton_append, operatorAt, known]
    rfl

theorem lexFrom_operator {symbol : List Char} (h : IsSymbol symbol) (w : Space) (rest : List Char) :
    lexFrom [] (symbol ++ (w.chars ++ rest)) = operator symbol :: lexFrom [] rest := by
  obtain ⟨c, more, rfl⟩ : ∃ c more, symbol = c :: more := by
    rcases h.cases with ⟨c, rfl⟩ | ⟨-, -, c, d, rfl⟩
    · exact ⟨c, [], rfl⟩
    · exact ⟨c, [d], rfl⟩
  have isOperator : isOperatorChar c = true := h.operatorChars c List.mem_cons_self
  have sign : (isOperatorChar c && !continuesExponent [] c) = true := by
    rw [isOperator, continuesExponent, List.head?_nil, Option.any_none, Bool.and_false]
    rfl
  rw [List.cons_append, lexFrom_symbol (inert_of_isOperatorChar isOperator).toSteady
    (shown_of_isOperatorChar isOperator) sign (operatorAt_symbol h w rest), lexFrom_space]
  rfl

/-! ## Quotations and groups -/

theorem lexFrom_quoted (q : Quoted) (rest : List Char) :
    lexFrom [] (q.text ++ rest) = quoted q.content :: lexFrom [] rest := by
  have scanned := @lexFrom_quotation [] (q.content ++ q.quote :: rest) q.quote q.isQuote _
    (Text.closingLength?_content q.apart (fun on => Bool.noConfusion on) rest)
  rw [Quoted.text, List.cons_append, List.append_assoc, List.singleton_append, scanned]
  simp [flush]

theorem lexFrom_parens {inner : List Char} (inside : Matched false inner) (rest : List Char) :
    lexFrom [] ('(' :: (inner ++ [')']) ++ rest) = parens inner :: lexFrom [] rest := by
  rw [List.cons_append, List.append_assoc, List.singleton_append]
  exact lexFrom_matched (c := '(') rfl inside [] rest

theorem lexFrom_name (w : Word) (rest : List Char) : lexFrom [] (w.chars ++ rest) = lexFrom w.chars.reverse rest := by
  rw [lexFrom_word fun c mem => wordlike_of_isNameChar (w.all c mem), List.append_nil]

/-- Behind the name of a function, and the space that follows it, are its arguments. -/
theorem lexFrom_call (w : Word) (gap : Space) {inner : List Char} (inside : Matched false inner) (rest : List Char) :
    lexFrom [] (w.chars ++ (gap.chars ++ '(' :: (inner ++ [')'])) ++ rest) =
      word w.chars :: parens inner :: lexFrom [] rest := by
  rw [List.append_assoc, List.append_assoc, lexFrom_name, lexFrom_pending w.nonempty (.space gap _), lexFrom_space,
    lexFrom_parens inside]

end Lexeme

/-! ## Phrases -/

def Term.lexemes : Term → List Lexeme
  | .number n => [.word n.text]
  | .name w => [.word w.chars]
  | .quoted q => [.quoted q.content]
  | .group before inner after => [.parens (before.chars ++ (inner.text ++ after.chars))]
  | .call w _ _ before args after => [.word w.chars, .parens (before.chars ++ (args.text ++ after.chars))]
  | .callEmpty w _ _ inside => [.word w.chars, .parens inside.chars]

def Phrase.lexemes : Phrase → List Lexeme
  | .operand t => t.lexemes
  | .sign op _ rest => .operator op.chars :: rest.lexemes
  | .binary t _ op _ rest => t.lexemes ++ .operator op.chars :: rest.lexemes

namespace Lexeme

variable {rest : List Char}

theorem lexFrom_term (t : Term) (ends : Ends rest) : lexFrom [] (t.text ++ rest) = t.lexemes ++ lexFrom [] rest := by
  cases t with
  | number n =>
    have nonempty : n.text ≠ [] := (Decimal.solid_of_isNumeral n.isNumeral).shown
    rw [Term.text, lexFrom_numeral n.isNumeral n.dropSign_text, lexFrom_pending nonempty ends]
    rfl
  | name w =>
    rw [Term.text, lexFrom_name, lexFrom_pending w.nonempty ends]
    rfl
  | quoted q => exact lexFrom_quoted q rest
  | group before inner after =>
    exact lexFrom_parens ((Sealed.space before).append (inner.sealed.append (.space after))).matched rest
  | call w f gap before args after =>
    have inside : Matched false (before.chars ++ (args.text ++ after.chars)) :=
      (Sealed.space before).matched.append (args.matched.append (Sealed.space after).matched)
    exact lexFrom_call w gap inside rest
  | callEmpty w f gap inside => exact lexFrom_call w gap (Sealed.space inside).matched rest

theorem lexFrom_phrase (ends : Ends rest) (e : Phrase) :
    lexFrom [] (e.text ++ rest) = e.lexemes ++ lexFrom [] rest := by
  cases e with
  | operand t => exact lexFrom_term t ends
  | sign op gap e =>
    rw [Phrase.text, List.append_assoc, List.append_assoc, lexFrom_operator (.inl ⟨op, rfl⟩), lexFrom_phrase ends e]
    rfl
  | binary t before op after e =>
    rw [Phrase.text, List.append_assoc, List.append_assoc, List.append_assoc, List.append_assoc,
      lexFrom_term t (.space before _), lexFrom_space, lexFrom_operator (.inr ⟨op, rfl⟩), lexFrom_phrase ends e,
      Phrase.lexemes, List.append_assoc]
    rfl

end Lexeme

theorem Term.exists_shown (t : Term) : ∃ c ∈ t.text, Text.isBlank c = false := by
  have named (w : Word) : ∃ c ∈ w.chars, Text.isBlank c = false := by
    obtain ⟨c, mem⟩ := List.exists_mem_of_ne_nil w.chars w.nonempty
    exact ⟨c, mem, (Lexeme.wordlike_of_isNameChar (w.all c mem)).shown⟩
  cases t with
  | number n =>
    obtain ⟨c, rest, split, shown⟩ := (Decimal.solid_of_isNumeral n.isNumeral).head
    rw [text, split]
    exact ⟨c, List.mem_cons_self, shown⟩
  | name w => exact named w
  | quoted q =>
    refine ⟨q.quote, List.mem_cons_self, ?_⟩
    rcases Text.isQuote_cases q.isQuote with same | same | same <;> rw [same] <;> rfl
  | group before inner after => exact ⟨'(', List.mem_cons_self, rfl⟩
  | call w f gap before args after | callEmpty w f gap inside =>
    obtain ⟨c, mem, shown⟩ := named w
    exact ⟨c, List.mem_append_left _ mem, shown⟩

theorem Phrase.exists_shown (e : Phrase) : ∃ c ∈ e.text, Text.isBlank c = false := by
  cases e with
  | operand t => exact t.exists_shown
  | sign op gap rest =>
    obtain ⟨c, mem, shown⟩ := rest.exists_shown
    exact ⟨c, List.mem_append_right _ (List.mem_append_right _ mem), shown⟩
  | binary t before op after rest =>
    obtain ⟨c, mem, shown⟩ := t.exists_shown
    exact ⟨c, List.mem_append_left _ mem, shown⟩

theorem Arguments.exists_shown (args : Arguments) : ∃ c ∈ args.text, Text.isBlank c = false := by
  cases args with
  | last e => exact e.exists_shown
  | more e before separator after rest =>
    obtain ⟨c, mem, shown⟩ := e.exists_shown
    exact ⟨c, List.mem_append_left _ mem, shown⟩

theorem Text.trim_isEmpty_around {before text after : List Char} (h : ∃ c ∈ text, isBlank c = false) :
    (trim (before ++ (text ++ after))).isEmpty = false := by
  obtain ⟨c, mem, shown⟩ := h
  exact trim_isEmpty_of_mem (List.mem_append_right _ (List.mem_append_left _ mem)) shown

/-- Blanks around a phrase are none of its lexemes. -/
theorem Phrase.lexemes_eq {before after : List Char} (opening : ∀ c ∈ before, Text.isBlank c = true)
    (closing : ∀ c ∈ after, Text.isBlank c = true) (e : Phrase) :
    ExactFormula.lexemes (before ++ (e.text ++ after)) = e.lexemes := by
  have ended : Lexeme.lexFrom [] after = [] := by
    rw [← List.append_nil after, Lexeme.lexFrom_blanks closing]
    rfl
  refine (Lexeme.lexFrom_blanks opening _).trans ?_
  rw [Lexeme.lexFrom_phrase (.blank closing), ended, List.append_nil]

end ExactFormula
