import ExactFormula.Formula.Piece
import ExactFormula.Proofs.Decimal.Outcome

/-!
The grammar of formulas whose tokens are spaced, as trees that keep everything that was written. A tree has its
text, the parts that the text is to be read to, and the depth to which its groups and arguments nest.
-/

namespace ExactFormula

/-! ## Tokens -/

/-- What stands between two tokens. -/
structure Space where
  chars : List Char
  nonempty : chars ≠ []
  blank : ∀ c ∈ chars, Text.isBlank c = true

/-- A decimal without a sign. Its exponent is in range and has at most nine digits, leading zeros included, and of the
digits behind the point so many that those beyond the last place of a decimal are counted in 32 bits. -/
structure Numeral where
  shape : Decimal.Numeral
  unsigned : shape.sign = .none
  inRange : shape.exponent.natAbs ≤ Decimal.maxExponent
  short : shape.exponentDigits ≤ 9
  counted : -4294967295 ≤ shape.shift

/-- A word that is no number. -/
structure Word where
  chars : List Char
  nonempty : chars ≠ []
  all : ∀ c ∈ chars, Piece.isNameChar c = true
  words : Decimal.isNumeral chars = false

structure Quoted where
  quote : Char
  content : List Char
  isQuote : Text.isQuote quote = true
  apart : quote ∉ content

inductive Separator
  | comma
  | semicolon

def Numeral.text (n : Numeral) : List Char := n.shape.chars

/-- The significand, moved to its place. -/
def Numeral.value (n : Numeral) : Decimal := ⟨Decimal.shifted n.shape.significand n.shape.shift⟩

def Word.string (w : Word) : String := String.ofList w.chars

def Quoted.text (q : Quoted) : List Char := q.quote :: (q.content ++ [q.quote])

def Separator.char : Separator → Char
  | comma => ','
  | semicolon => ';'

namespace Numeral

theorem isNumeral (n : Numeral) : Decimal.isNumeral n.text = true := n.shape.isNumeral_chars

theorem dropSign_text (n : Numeral) : Decimal.dropSign n.text = n.text := n.shape.dropSign_chars n.unsigned

theorem parseChars_text (n : Numeral) : Decimal.parseChars n.text = .ok n.value := by
  have inRange : ∀ p ∈ n.shape.power, p.InRange := n.shape.inRange_iff.2 ⟨n.inRange, n.short⟩
  have units : Decimal.readUnits (Decimal.ungapped n.shape.chars) = some n.value.units := by
    refine (Decimal.readUnits_eq_some_iff n.shape _).2 ⟨inRange, n.counted, ?_⟩
    rw [n.unsigned]
    exact (one_mul _).symm
  have trimmed : Text.trim n.shape.chars = n.shape.chars := (Decimal.solid_of_isNumeral n.isNumeral).trimmed
  rw [text, Decimal.parseChars_numeral trimmed, units]

end Numeral

/-- No numeral starts with a letter or `_`. -/
theorem isNumeral_of_first {c : Char} (first : (c.isAlpha || c == '_') = true) (cs : List Char) :
    Decimal.isNumeral (c :: cs) = false := by
  have code : (0x41 ≤ c.toNat ∧ c.toNat ≤ 0x5A) ∨ (0x61 ≤ c.toNat ∧ c.toNat ≤ 0x7A) ∨ c.toNat = 0x5F := by
    rw [Bool.or_eq_true, beq_iff_eq] at first
    rcases first with alpha | rfl
    · exact or_assoc.1 (.inl (Text.toNat_of_isAlpha alpha))
    · exact .inr (.inr rfl)
  have other {d : Char} (below : d.toNat < 0x41) : c ≠ d := by
    rintro rfl
    omega
  have digit : c.isDigit = false := by
    cases isDigit : c.isDigit with
    | false => rfl
    | true =>
      have range := Text.toNat_of_isDigit isDigit
      omega
  rw [Decimal.isNumeral, Decimal.dropSign_cons (other (by decide)) (other (by decide))]
  simp [digit, other (d := '.') (by decide)]

/-- A letter or `_`, and behind it letters, digits and `_`, are a word. -/
def Word.identifier (c : Char) (cs : List Char) (first : (c.isAlpha || c == '_') = true)
    (rest : ∀ d ∈ cs, (d.isAlphanum || d == '_') = true) : Word where
  chars := c :: cs
  nonempty := List.cons_ne_nil c cs
  all := by
    have named {d : Char} (h : (d.isAlphanum || d == '_') = true) : Piece.isNameChar d = true := by
      rw [Bool.or_eq_true, beq_iff_eq] at h
      rcases h with h | rfl
      · simp [Piece.isNameChar, Text.isWordChar_of_isAlphanum h]
      · rfl
    refine List.forall_mem_cons.2 ⟨named ?_, fun d mem => named (rest d mem)⟩
    rw [Bool.or_eq_true] at first ⊢
    exact first.imp_left fun alpha => by rw [Char.isAlphanum, alpha, Bool.true_or]
  words := isNumeral_of_first first cs

/-! ## Formulas -/

mutual
inductive Term
  | number (n : Numeral)
  | name (w : Word)
  | quoted (q : Quoted)
  | group (before : Space) (inner : Phrase) (after : Space)
  | call (w : Word) (f : FunctionDef) (gap before : Space) (args : Arguments) (after : Space)
  | callEmpty (w : Word) (f : FunctionDef) (gap inside : Space)

/-- Terms with signs in front of them and binary operators between them. -/
inductive Phrase
  | operand (t : Term)
  | sign (op : UnaryOp) (gap : Space) (rest : Phrase)
  | binary (t : Term) (before : Space) (op : BinaryOp) (after : Space) (rest : Phrase)

inductive Arguments
  | last (e : Phrase)
  | more (e : Phrase) (before : Space) (separator : Separator) (after : Space) (rest : Arguments)
end

mutual
def Term.text : Term → List Char
  | .number n => n.text
  | .name w => w.chars
  | .quoted q => q.text
  | .group before inner after => '(' :: (before.chars ++ (inner.text ++ after.chars) ++ [')'])
  | .call w _ gap before args after =>
    w.chars ++ (gap.chars ++ '(' :: (before.chars ++ (args.text ++ after.chars) ++ [')']))
  | .callEmpty w _ gap inside => w.chars ++ (gap.chars ++ '(' :: (inside.chars ++ [')']))

def Phrase.text : Phrase → List Char
  | .operand t => t.text
  | .sign op gap rest => op.chars ++ (gap.chars ++ rest.text)
  | .binary t before op after rest => t.text ++ (before.chars ++ (op.chars ++ (after.chars ++ rest.text)))

def Arguments.text : Arguments → List Char
  | .last e => e.text
  | .more e before separator after rest =>
    e.text ++ (before.chars ++ separator.char :: (after.chars ++ rest.text))
end

mutual
/-- Levels of groups and arguments. -/
def Term.depth : Term → Nat
  | .number _ | .name _ | .quoted _ | .callEmpty _ _ _ _ => 0
  | .group _ inner _ => inner.depth + 1
  | .call _ _ _ _ args _ => args.depth

def Phrase.depth : Phrase → Nat
  | .operand t => t.depth
  | .sign _ _ rest => rest.depth
  | .binary t _ _ _ rest => max t.depth rest.depth

/-- Levels below the formula that has the arguments. -/
def Arguments.depth : Arguments → Nat
  | .last e => e.depth + 1
  | .more e _ _ _ rest => max (e.depth + 1) rest.depth
end

def Arguments.count : Arguments → Nat
  | .last _ => 1
  | .more _ _ _ _ rest => rest.count + 1

/-! ## What is read -/

mutual
def Term.operandIn (s : Settings) : Term → Operand
  | .number n => .constant (.number n.value)
  | .name w => .reference ⟨w.string, .lookup s.default⟩
  | .quoted q => Piece.ofQuoted q.content
  | .group before inner after =>
    .group ⟨String.ofList (before.chars ++ (inner.text ++ after.chars)), inner.partsIn s, s.numeric, none⟩
  | .call w f _ before args after => .call w.string f.run (args.formulasIn s before.chars after.chars)
  | .callEmpty w f _ _ => .call w.string f.run []

def Phrase.partsIn (s : Settings) : Phrase → List (Part Operand)
  | .operand t => [.operand (t.operandIn s)]
  | .sign op _ rest => .unary op :: rest.partsIn s
  | .binary t _ op _ rest => .operand (t.operandIn s) :: .binary op :: rest.partsIn s

/-- The arguments with the characters around them, up to the separators. -/
def Arguments.formulasIn (s : Settings) (before after : List Char) : Arguments → List Formula
  | .last e => [⟨String.ofList (before ++ (e.text ++ after)), e.partsIn s, s.numeric, none⟩]
  | .more e gap _ next rest =>
    ⟨String.ofList (before ++ (e.text ++ gap.chars)), e.partsIn s, s.numeric, none⟩ ::
      rest.formulasIn s next.chars after
end

def FunctionDef.Accepts (f : FunctionDef) (count : Nat) : Prop :=
  f.minArgs ≤ count ∧ ∀ most, f.maxArgs = some most → count ≤ most

/-- The word is no constant, and the function of that name accepts so many arguments. -/
structure Word.Calls (s : Settings) (w : Word) (f : FunctionDef) (count : Nat) : Prop where
  unnamed : s.constants.get? w.string = none
  known : s.functions.get? w.string = some f
  accepted : f.Accepts count

mutual
/-- Names are no constants, and calls are those of registered functions. -/
def Term.Fits (s : Settings) : Term → Prop
  | .number _ | .quoted _ => True
  | .name w => s.constants.get? w.string = none
  | .group _ inner _ => inner.Fits s
  | .call w f _ _ args _ => w.Calls s f args.count ∧ args.Fits s
  | .callEmpty w f _ _ => w.Calls s f 0

def Phrase.Fits (s : Settings) : Phrase → Prop
  | .operand t => t.Fits s
  | .sign _ _ rest => rest.Fits s
  | .binary t _ _ _ rest => t.Fits s ∧ rest.Fits s

def Arguments.Fits (s : Settings) : Arguments → Prop
  | .last e => e.Fits s
  | .more e _ _ _ rest => e.Fits s ∧ rest.Fits s
end

end ExactFormula
