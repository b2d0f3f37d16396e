import ExactFormula.Proofs.Reading.Matched
import ExactFormula.Proofs.Reading.Phrase

/-!
The text of terms closes what it opens and has no separator outside its groups, so the text of arguments splits
into the texts of each of them.
-/

namespace ExactFormula

/-! ## Characters -/

namespace Text

/-- The codes of the blank characters. -/
def blankCodes : List Nat :=
  [9, 10, 11, 12, 13, 0x20, 0x85, 0xA0, 0x1680, 0x2000, 0x2001, 0x2002, 0x2003, 0x2004, 0x2005, 0x2006, 0x2007, 0x2008,
    0x2009, 0x200A, 0x2028, 0x2029, 0x202F, 0x205F, 0x3000]

theorem mem_blankCodes {c : Char} (h : isBlank c = true) : c.toNat ∈ blankCodes := by
  simp only [isBlank, Bool.or_eq_true, Bool.and_eq_true, decide_eq_true_eq, beq_iff_eq] at h
  simp only [blankCodes, List.mem_cons, List.not_mem_nil, or_false]
  omega

end Text

namespace Lexeme

/-- What an argument goes on over: no quote, no delimiter and no separator. -/
structure Inert (c : Char) : Prop extends Steady c where
  seamless : ¬(c = ',' ∨ c = ';')

theorem inert_of_apart {p : Char → Bool} {c : Char}
    (apart : [',', ';', '"', '\'', '`', '(', '[', '{', ')', ']', '}'].any p = false) (h : p c = true) : Inert c := by
  rw [List.any_cons, Bool.or_eq_false_iff, List.any_cons, Bool.or_eq_false_iff] at apart
  obtain ⟨comma, semicolon, apart⟩ := apart
  refine ⟨steady_of_apart apart h, ?_⟩
  rintro (rfl | rfl)
  · rw [comma] at h
    cases h
  · rw [semicolon] at h
    cases h

theorem inert_of_isNameChar {c : Char} (h : Piece.isNameChar c = true) : Inert c :=
  inert_of_apart (by decide) h

theorem wordlike_of_isNameChar {c : Char} (h : Piece.isNameChar c = true) : Wordlike c where
  steady := (inert_of_isNameChar h).toSteady
  shown := by
    cases blank : Text.isBlank c with
    | false => rfl
    | true =>
      have apart : ∀ n ∈ Text.blankCodes, Piece.isNameChar (Char.ofNat n) = false := by decide +kernel
      have other := apart _ (Text.mem_blankCodes blank)
      rw [Char.ofNat_toNat, h] at other
      cases other
  plain := plain_of_apart (by decide) h

theorem inert_of_isBlank {c : Char} (h : Text.isBlank c = true) : Inert c := inert_of_apart rfl h

theorem inert_of_isNumeralChar {c : Char} (h : Decimal.isNumeralChar c = true) : Inert c := inert_of_apart rfl h

theorem inert_of_isOperatorChar {c : Char} (h : isOperatorChar c = true) : Inert c := inert_of_apart rfl h

/-! ## Sealed text -/

/-- The text closes what it opens, and an argument goes on over it. -/
structure Sealed (text : List Char) : Prop where
  matched : Matched false text
  seamless : ∀ piece rest, splitFrom ⟨[], piece⟩ (text ++ rest) = splitFrom ⟨[], text.reverse ++ piece⟩ rest

namespace Sealed

variable {text text' : List Char}

theorem nil : Sealed [] := ⟨.nil, fun _ _ => rfl⟩

theorem append (h : Sealed text) (h' : Sealed text') : Sealed (text ++ text') where
  matched := h.matched.append h'.matched
  seamless piece rest := by
    rw [List.append_assoc, h.seamless, h'.seamless, List.reverse_append, List.append_assoc]

theorem char {c : Char} (inert : Inert c) (h : Sealed text) : Sealed (c :: text) where
  matched := .plain inert.toSteady h.matched
  seamless piece rest := by
    rw [List.cons_append, splitFrom_plain piece inert.toSteady fun separator => absurd separator inert.seamless,
      h.seamless, List.reverse_cons, List.append_assoc, List.singleton_append]

theorem of_inert (inert : ∀ c ∈ text, Inert c) : Sealed text := by
  induction text with
  | nil => exact .nil
  | cons c text ih =>
    obtain ⟨first, inert⟩ := List.forall_mem_cons.1 inert
    exact (ih inert).char first

theorem quotation {q : Char} (isQuote : Text.isQuote q = true) {content : List Char} (apart : q ∉ content) :
    Sealed (q :: (content ++ [q])) := by
  have closes (rest : List Char) :
      Text.closingLength? false q ((content ++ [q]) ++ rest) = some (content ++ [q]).length := by
    rw [List.append_assoc, List.singleton_append, List.length_append, List.length_singleton]
    exact Text.closingLength?_content apart (fun on => Bool.noConfusion on) rest
  constructor
  · rw [← List.append_nil (content ++ [q])]
    exact .quotation isQuote closes .nil
  · intro piece rest
    rw [List.cons_append, @splitFrom_quotation [] rest q piece isQuote (content ++ [q]) closes]
    simp

theorem group {c : Char} (opens : isOpener c = true) {inner : List Char} (inside : Matched (closer c != ')') inner) :
    Sealed (c :: (inner ++ [closer c])) where
  matched := .group opens inside .nil
  seamless piece rest := by
    rw [List.cons_append, List.append_assoc, List.singleton_append, splitFrom_group opens inside]
    simp

end Sealed

end Lexeme

/-! ## The text of terms -/

namespace Lexeme.Sealed

theorem space (w : Space) : Sealed w.chars := .of_inert fun c mem => inert_of_isBlank (w.blank c mem)

theorem word (w : Word) : Sealed w.chars := .of_inert fun c mem => inert_of_isNameChar (w.all c mem)

theorem parens {inner : List Char} (inside : Matched false inner) : Sealed ('(' :: (inner ++ [')'])) :=
  group (c := '(') rfl inside

end Lexeme.Sealed

/-- Every symbol of an operator. -/
def Lexeme.IsSymbol (symbol : List Char) : Prop :=
  (∃ op, UnaryOp.chars op = symbol) ∨ ∃ op, BinaryOp.chars op = symbol

theorem Lexeme.IsSymbol.operatorChars {symbol : List Char} (h : IsSymbol symbol) :
    ∀ c ∈ symbol, isOperatorChar c = true := by
  rw [← List.all_eq_true]
  rcases h with ⟨op, rfl⟩ | ⟨op, rfl⟩
  · cases op <;> rfl
  · cases op <;> rfl

theorem Lexeme.Sealed.symbol {symbol : List Char} (h : IsSymbol symbol) : Sealed symbol :=
  .of_inert fun c mem => inert_of_isOperatorChar (h.operatorChars c mem)

mutual
theorem Term.sealed : (t : Term) → Lexeme.Sealed t.text
  | .number n => .of_inert fun c mem =>
      Lexeme.inert_of_isNumeralChar (Decimal.numeralChars_of_isNumeral n.isNumeral c mem)
  | .name w => .word w
  | .quoted q => .quotation q.isQuote q.apart
  | .group before inner after =>
    .parens (((Lexeme.Sealed.space before).append (inner.sealed.append (.space after))).matched)
  | .call w _ gap before args after => (Lexeme.Sealed.word w).append ((Lexeme.Sealed.space gap).append
      (.parens ((Lexeme.Sealed.space before).matched.append (args.matched.append (Lexeme.Sealed.space after).matched))))
  | .callEmpty w _ gap inside => (Lexeme.Sealed.word w).append ((Lexeme.Sealed.space gap).append
      (.parens (Lexeme.Sealed.space inside).matched))

theorem Phrase.sealed : (e : Phrase) → Lexeme.Sealed e.text
  | .operand t => t.sealed
  | .sign op gap rest => (Lexeme.Sealed.symbol (.inl ⟨op, rfl⟩)).append ((Lexeme.Sealed.space gap).append rest.sealed)
  | .binary t before op after rest => t.sealed.append ((Lexeme.Sealed.space before).append
      ((Lexeme.Sealed.symbol (.inr ⟨op, rfl⟩)).append ((Lexeme.Sealed.space after).append rest.sealed)))

theorem Arguments.matched : (args : Arguments) → Matched false args.text
  | .last e => e.sealed.matched
  | .more e before separator after rest => by
      have steady : Lexeme.Steady separator.char := by cases separator <;> exact ⟨rfl, rfl, rfl⟩
      exact e.sealed.matched.append ((Lexeme.Sealed.space before).matched.append
        (.plain steady ((Lexeme.Sealed.space after).matched.append rest.matched)))
end

/-! ## Arguments -/

namespace Arguments

/-- The texts of the arguments with the characters around them, up to the separators. -/
def texts (before after : List Char) : Arguments → List (List Char)
  | .last e => [before ++ (e.text ++ after)]
  | .more e gap _ next rest => (before ++ (e.text ++ gap.chars)) :: rest.texts next.chars after

theorem length_texts (before after : List Char) : (args : Arguments) → (args.texts before after).length = args.count
  | .last _ => rfl
  | .more _ _ _ next rest => congrArg (· + 1) (length_texts next.chars after rest)

theorem splitArgs_texts {before after : List Char} (opening : Lexeme.Sealed before) (closing : Lexeme.Sealed after) :
    (args : Arguments) → Lexeme.splitArgs (before ++ (args.text ++ after)) = args.texts before after
  | .last e => by
      have whole : Lexeme.Sealed (before ++ (e.text ++ after)) := opening.append (e.sealed.append closing)
      have split := whole.seamless [] []
      rw [List.append_nil, List.append_nil] at split
      exact split.trans (congrArg (fun text => [text]) (List.reverse_reverse _))
  | .more e gap separator next rest => by
      have first : Lexeme.Sealed (before ++ (e.text ++ gap.chars)) := opening.append (e.sealed.append (.space gap))
      have split := first.seamless [] (separator.char :: (next.chars ++ (rest.text ++ after)))
      have separates : separator.char = ',' ∨ separator.char = ';' := by
        cases separator
        · exact .inl rfl
        · exact .inr rfl
      rw [List.append_nil, Lexeme.splitFrom_separator _ separates, List.reverse_reverse] at split
      have later := splitArgs_texts (.space next) closing rest
      have whole : before ++ ((more e gap separator next rest).text ++ after) =
          before ++ (e.text ++ gap.chars) ++ separator.char :: (next.chars ++ (rest.text ++ after)) := by simp [text]
      rw [texts, ← later, whole]
      exact split

end Arguments

end ExactFormula
