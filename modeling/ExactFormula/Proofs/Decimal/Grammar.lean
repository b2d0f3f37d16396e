import Mathlib.Computability.Language
import ExactFormula.Proofs.Bytewise.Numeral
import ExactFormula.Proofs.Decimal.Text

/-!
The language of numerals: a sign or none, a mantissa, and an exponent or none, one after the other. The recognition by
characters and the recognition by bytes accept exactly this language.
-/

namespace ExactFormula.Decimal

/-! ## The language -/

def signs : Language Char := {[], ['+'], ['-']}

/-- Digits with gaps anywhere among them, and at least one digit. -/
structure GappedDigits (cs : List Char) : Prop where
  chars : ∀ c ∈ cs, c.isDigit = true ∨ c = '_'
  shown : ∃ c ∈ cs, c.isDigit = true

/-- Digits, gaps and at most one point, and at least one digit. A gap does not come first. -/
structure Mantissa (cs : List Char) : Prop where
  chars : ∀ c ∈ cs, c.isDigit = true ∨ c = '_' ∨ c = '.'
  points : cs.count '.' ≤ 1
  starts : ∃ c ∈ cs.head?, c.isDigit = true ∨ c = '.'
  shown : ∃ c ∈ cs, c.isDigit = true

def gappedDigits : Language Char := {cs | GappedDigits cs}

def mantissas : Language Char := {cs | Mantissa cs}

def exponents : Language Char := 1 + {['e'], ['E']} * (signs * gappedDigits)

def numerals : Language Char := signs * (mantissas * exponents)

/-! ## Signs and exponents -/

variable {l : Language Char} {cs : List Char} {digit point : Bool}

@[simp] theorem mem_signs : cs ∈ signs ↔ cs = [] ∨ cs = ['+'] ∨ cs = ['-'] := Iff.rfl

@[simp] theorem mem_gappedDigits : cs ∈ gappedDigits ↔ GappedDigits cs := Iff.rfl

/-- Where no text of a language starts with a sign, an optional sign before it is what is dropped. -/
theorem mem_signs_mul (unsigned : ∀ ds ∈ l, dropSign ds = ds) : cs ∈ signs * l ↔ dropSign cs ∈ l := by
  constructor
  · intro h
    obtain ⟨sign, isSign, ds, mem, rfl⟩ := Language.mem_mul.1 h
    rcases mem_signs.1 isSign with rfl | rfl | rfl
    · simpa [unsigned ds mem] using mem
    · exact mem
    · exact mem
  · intro mem
    rcases dropSign_cases cs with same | ⟨sign, split, isSign⟩
    · exact Language.mem_mul.2 ⟨[], by simp, cs, same ▸ mem, rfl⟩
    · exact Language.mem_mul.2 ⟨[sign], by simpa using isSign, dropSign cs, mem, split.symm⟩

theorem GappedDigits.unsigned (h : GappedDigits cs) : dropSign cs = cs := by
  cases cs with
  | nil => rfl
  | cons c cs =>
    apply dropSign_cons
    all_goals
      rintro rfl
      simpa using h.chars _ List.mem_cons_self

theorem isExponent_iff (cs : List Char) : isExponent cs = true ↔ cs ∈ signs * gappedDigits := by
  rw [mem_signs_mul (l := gappedDigits) fun ds mem => GappedDigits.unsigned mem, mem_gappedDigits]
  simp only [isExponent, isDigitOrGap, Bool.and_eq_true, List.all_eq_true, List.any_eq_true, Bool.or_eq_true,
    beq_iff_eq]
  exact ⟨fun h => ⟨h.1, h.2⟩, fun h => ⟨h.chars, h.shown⟩⟩

theorem nil_mem_exponents : [] ∈ exponents := .inl rfl

theorem cons_mem_exponents (c : Char) (cs : List Char) :
    c :: cs ∈ exponents ↔ isExponentMark c = true ∧ isExponent cs = true := by
  have marks (ms : List Char) : ms ∈ ({['e'], ['E']} : Language Char) ↔ ms = ['e'] ∨ ms = ['E'] := Iff.rfl
  rw [exponents, Language.mem_add, Language.mem_one, Language.mem_mul, isExponent_iff]
  simp only [marks, isExponentMark, Bool.or_eq_true, beq_iff_eq]
  constructor
  · rintro (empty | ⟨_, rfl | rfl, ds, mem, same⟩)
    · cases empty
    · cases same
      exact ⟨.inl rfl, mem⟩
    · cases same
      exact ⟨.inr rfl, mem⟩
  · rintro ⟨rfl | rfl, mem⟩
    · exact .inr ⟨['e'], .inl rfl, cs, mem, rfl⟩
    · exact .inr ⟨['E'], .inr rfl, cs, mem, rfl⟩

/-! ## Mantissas -/

/-- What goes on with a mantissa that has so far shown a digit, and a point, or not. -/
structure Extends (digit point : Bool) (cs : List Char) : Prop where
  chars : ∀ c ∈ cs, c.isDigit = true ∨ c = '_' ∨ c = '.'
  points : cs.count '.' + point.toNat ≤ 1
  shown : digit = true ∨ ∃ c ∈ cs, c.isDigit = true

theorem mantissa_iff (cs : List Char) :
    Mantissa cs ↔ (∃ c ∈ cs.head?, c.isDigit = true ∨ c = '.') ∧ Extends false false cs :=
  ⟨fun h => ⟨h.starts, h.chars, h.points, .inr h.shown⟩,
    fun ⟨starts, h⟩ => ⟨h.chars, h.points, starts, h.shown.resolve_left Bool.false_ne_true⟩⟩

theorem Extends.nil_iff : Extends digit point [] ↔ digit = true := by
  constructor
  · intro h
    simpa using h.shown
  · intro shown
    exact ⟨List.forall_mem_nil _, by cases point <;> decide, .inl shown⟩

theorem Extends.cons_iff (c : Char) (cs : List Char) : Extends digit point (c :: cs) ↔
    c.isDigit = true ∧ Extends true point cs ∨ c = '_' ∧ Extends digit point cs ∨
      c = '.' ∧ point = false ∧ Extends digit true cs := by
  constructor
  · intro h
    obtain ⟨first, chars⟩ := List.forall_mem_cons.1 h.chars
    have points := h.points
    have shown := h.shown
    rcases first with isDigit | rfl | rfl
    · have other : c ≠ '.' := by
        rintro rfl
        cases isDigit
      rw [List.count_cons_of_ne other] at points
      exact .inl ⟨isDigit, chars, points, .inl rfl⟩
    · exact .inr (.inl ⟨rfl, chars, by simpa using points, by simpa using shown⟩)
    · rw [List.count_cons_self] at points
      have first : point = false := by
        cases point
        · rfl
        · simp at points
      exact .inr (.inr ⟨rfl, first, chars, by rw [Bool.toNat_true]; omega, by simpa using shown⟩)
  · rintro (⟨isDigit, h⟩ | ⟨rfl, h⟩ | ⟨rfl, rfl, h⟩)
    · have other : c ≠ '.' := by
        rintro rfl
        cases isDigit
      refine ⟨List.forall_mem_cons.2 ⟨.inl isDigit, h.chars⟩, ?_, .inr ⟨c, List.mem_cons_self, isDigit⟩⟩
      rw [List.count_cons_of_ne other]
      exact h.points
    · exact ⟨List.forall_mem_cons.2 ⟨.inr (.inl rfl), h.chars⟩, by simpa using h.points, by simpa using h.shown⟩
    · refine ⟨List.forall_mem_cons.2 ⟨.inr (.inr rfl), h.chars⟩, ?_, by simpa using h.shown⟩
      simpa using h.points

theorem finishesNumeral_cons_iff (digit point : Bool) (c : Char) (cs : List Char) :
    finishesNumeral digit point (c :: cs) = true ↔
      c.isDigit = true ∧ finishesNumeral true point cs = true ∨ c = '_' ∧ finishesNumeral digit point cs = true ∨
        c = '.' ∧ point = false ∧ finishesNumeral digit true cs = true ∨
        isExponentMark c = true ∧ digit = true ∧ isExponent cs = true := by
  rw [finishesNumeral]
  by_cases isDigit : c.isDigit = true
  · obtain ⟨unmarked, other⟩ := digit_facts isDigit
    have shown : c ≠ '_' := by
      rintro rfl
      cases isDigit
    simp [isDigit, unmarked, other, shown]
  by_cases gap : c = '_'
  · simp [gap, isExponentMark]
  by_cases isPoint : c = '.'
  · cases point <;> simp [isPoint, isExponentMark]
  · simp [isDigit, gap, isPoint, and_assoc]

/-- What finishes a numeral is the rest of its mantissa with an exponent, or none, behind it. -/
theorem finishesNumeral_iff (digit point : Bool) (cs : List Char) : finishesNumeral digit point cs = true ↔
    ∃ mantissa exponent, mantissa ++ exponent = cs ∧ Extends digit point mantissa ∧ exponent ∈ exponents := by
  induction cs generalizing digit point with
  | nil =>
    simp only [finishesNumeral, List.append_eq_nil_iff]
    constructor
    · intro shown
      exact ⟨[], [], ⟨rfl, rfl⟩, Extends.nil_iff.2 shown, nil_mem_exponents⟩
    · rintro ⟨_, _, ⟨rfl, rfl⟩, h, -⟩
      exact Extends.nil_iff.1 h
  | cons c cs ih =>
    rw [finishesNumeral_cons_iff, ih, ih, ih]
    constructor
    · rintro (⟨isDigit, mantissa, exponent, rfl, h, mem⟩ | ⟨gap, mantissa, exponent, rfl, h, mem⟩ |
        ⟨isPoint, first, mantissa, exponent, rfl, h, mem⟩ | ⟨mark, shown, mem⟩)
      · exact ⟨c :: mantissa, exponent, rfl, (Extends.cons_iff c mantissa).2 (.inl ⟨isDigit, h⟩), mem⟩
      · exact ⟨c :: mantissa, exponent, rfl, (Extends.cons_iff c mantissa).2 (.inr (.inl ⟨gap, h⟩)), mem⟩
      · exact ⟨c :: mantissa, exponent, rfl, (Extends.cons_iff c mantissa).2 (.inr (.inr ⟨isPoint, first, h⟩)), mem⟩
      · exact ⟨[], c :: cs, rfl, Extends.nil_iff.2 shown, (cons_mem_exponents c cs).2 ⟨mark, mem⟩⟩
    · rintro ⟨mantissa, exponent, split, h, mem⟩
      rcases List.append_eq_cons_iff.1 split with ⟨rfl, rfl⟩ | ⟨mantissa, rfl, rfl⟩
      · obtain ⟨mark, mem⟩ := (cons_mem_exponents c cs).1 mem
        exact .inr (.inr (.inr ⟨mark, Extends.nil_iff.1 h, mem⟩))
      · rcases (Extends.cons_iff c mantissa).1 h with ⟨isDigit, h⟩ | ⟨gap, h⟩ | ⟨isPoint, first, h⟩
        · exact .inl ⟨isDigit, mantissa, exponent, rfl, h, mem⟩
        · exact .inr (.inl ⟨gap, mantissa, exponent, rfl, h, mem⟩)
        · exact .inr (.inr (.inl ⟨isPoint, first, mantissa, exponent, rfl, h, mem⟩))

/-! ## Numerals -/

theorem isNumeral_iff_dropSign (cs : List Char) : isNumeral cs = true ↔
    (∃ c ∈ (dropSign cs).head?, c.isDigit = true ∨ c = '.') ∧ finishesNumeral false false (dropSign cs) = true := by
  rw [isNumeral]
  cases dropSign cs with
  | nil => simp
  | cons c cs => simp

/-- A mantissa shows a digit, so that a text starts with its mantissa and not with its exponent. -/
theorem Extends.head?_append (h : Extends false point cs) (exponent : List Char) :
    (cs ++ exponent).head? = cs.head? := by
  cases cs with
  | nil => cases Extends.nil_iff.1 h
  | cons c cs => rfl

theorem mem_mantissas_mul (cs : List Char) : cs ∈ mantissas * exponents ↔
    (∃ c ∈ cs.head?, c.isDigit = true ∨ c = '.') ∧ finishesNumeral false false cs = true := by
  rw [Language.mem_mul, finishesNumeral_iff]
  constructor
  · rintro ⟨mantissa, h, exponent, mem, rfl⟩
    obtain ⟨starts, h⟩ := (mantissa_iff mantissa).1 h
    exact ⟨by rwa [h.head?_append], mantissa, exponent, rfl, h, mem⟩
  · rintro ⟨starts, mantissa, exponent, rfl, h, mem⟩
    rw [h.head?_append] at starts
    exact ⟨mantissa, (mantissa_iff mantissa).2 ⟨starts, h⟩, exponent, mem, rfl⟩

theorem unsigned_of_mem_mantissas_mul (h : cs ∈ mantissas * exponents) : dropSign cs = cs := by
  obtain ⟨⟨c, first, starts⟩, -⟩ := (mem_mantissas_mul cs).1 h
  cases cs with
  | nil => rfl
  | cons d ds =>
    cases first
    apply dropSign_cons
    all_goals
      rintro rfl
      simp at starts

theorem mem_numerals_iff (cs : List Char) : cs ∈ numerals ↔ isNumeral cs = true := by
  rw [isNumeral_iff_dropSign, ← mem_mantissas_mul, numerals,
    mem_signs_mul (l := mantissas * exponents) fun ds mem => unsigned_of_mem_mantissas_mul mem]

/-! ## Bytes -/

theorem ascii_of_isNumeral (h : isNumeral cs = true) : ∀ c ∈ cs, Bytewise.Ascii c := by
  intro c mem
  rcases isNumeralChar_cases (numeralChars_of_isNumeral h c mem) with digit | rfl | rfl | rfl | rfl | rfl | rfl
  · unfold Bytewise.Ascii
    omega
  all_goals decide

theorem ascii_of_bytes (h : ∀ b ∈ Bytewise.bytes cs, Bytewise.Ascii b) : ∀ c ∈ cs, Bytewise.Ascii c := by
  intro c mem
  obtain ⟨front, behind, rfl⟩ := List.append_of_mem mem
  by_contra wide
  obtain ⟨b, rest, encoded, wideByte⟩ := Bytewise.bytes_cons_wide wide behind
  apply wideByte
  apply h
  simp [Bytewise.bytes_append, encoded]

/-- No byte outside ASCII is in a numeral, so that a text and its bytes are numerals alike. -/
theorem isNumeral_bytes (cs : List Char) : isNumeral (Bytewise.bytes cs) = isNumeral cs := by
  rw [Bool.eq_iff_iff]
  constructor
  · intro h
    rwa [Bytewise.bytes_ascii (ascii_of_bytes (ascii_of_isNumeral h))] at h
  · intro h
    rwa [Bytewise.bytes_ascii (ascii_of_isNumeral h)]

/-- The numerals are the texts of the language, and recognising them by bytes finds no fault: it accepts a text
exactly if the string of its bytes is in the language, which is so exactly if the text is. -/
theorem numerals_recognized (cs : List Char) :
    (isNumeral cs = true ↔ cs ∈ numerals) ∧
      (Bytewise.bytes cs ∈ numerals ↔ cs ∈ numerals) ∧
      ∃ accepted, Bytewise.isDecimalLiteral cs = .ok accepted ∧
        (accepted = true ↔ Bytewise.bytes cs ∈ numerals) := by
  have bytewise : Bytewise.bytes cs ∈ numerals ↔ isNumeral cs = true := by
    rw [mem_numerals_iff, isNumeral_bytes]
  refine ⟨(mem_numerals_iff cs).symm, ?_, isNumeral cs, Bytewise.isDecimalLiteral_eq cs, bytewise.symm⟩
  rw [bytewise, mem_numerals_iff]

end ExactFormula.Decimal
