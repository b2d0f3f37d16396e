import ExactFormula.Proofs.Reading.Failing
import ExactFormula.Proofs.Reading.Matched

/-!
Whether a text is balanced decides about its delimiters for good. No reading of balanced text, or of the
texts nested in it, fails for a delimiter without its partner, and no unbalanced text is accepted.
-/

namespace ExactFormula

/-! ## Nested texts -/

/-- The text is read for a group or an argument of the other one, on some level. -/
inductive Text.Nested : List Char → List Char → Prop
  | refl {text : List Char} : Nested text text
  | group {nested inner text : List Char} (mem : .parens inner ∈ lexemes text) (deeper : Nested nested inner) :
      Nested nested text
  | argument {nested arg inner text : List Char} (mem : .parens inner ∈ lexemes text)
      (isArgument : arg ∈ Lexeme.splitArgs inner) (deeper : Nested nested arg) : Nested nested text

theorem Balanced.parens {text inner : List Char} (h : Balanced text) (mem : .parens inner ∈ lexemes text) :
    Matched false inner := Lexeme.closed_lexemes h _ mem

theorem Balanced.nested {nested text : List Char} (inside : Text.Nested nested text) (h : Balanced text) :
    Balanced nested := by
  induction inside with
  | refl => exact h
  | group mem _ ih => exact ih (balanced_iff_matched.2 (h.parens mem))
  | argument mem isArgument _ ih =>
    exact ih (balanced_iff_matched.2 (Lexeme.matched_splitArgs (h.parens mem) _ isArgument))

namespace Direct

variable {s : Settings}

/-- Balanced texts do not fail for a delimiter. -/
theorem failing_matched : Failing (Matched false) fun e => ∀ d, e ≠ .unmatchedDelimiter d where
  reading _ _ other := other
  unmatched _ _ matched mem := (Lexeme.closed_lexFrom matched [] _ mem).elim
  inside _ _ matched mem := Lexeme.closed_lexFrom matched [] _ mem
  argument _ _ matched mem := Lexeme.matched_splitArgs matched _ mem

theorem formula_partnered (plain : s.reference = none) (levels : Nat) {text : List Char}
    (matched : Matched false text) : Avoids .unmatchedDelimiter (formula s levels text) :=
  (failing_matched.formula plain levels matched).avoids fun d other => other d rfl

theorem balanced_of_formula {levels : Nat} {text : List Char} {f : Formula} (h : formula s levels text = .ok f) :
    Balanced text := by
  cases levels with
  | zero => cases h
  | succ levels =>
    obtain ⟨pieces, added, -⟩ := formula_ok h
    exact Lexeme.balanced_of_lexemes (matched_of_addAll added)

end Direct

end ExactFormula
