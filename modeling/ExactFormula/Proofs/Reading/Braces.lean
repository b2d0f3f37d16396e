import ExactFormula.Proofs.Json.Written
import ExactFormula.Proofs.Reading.Direct
import ExactFormula.Proofs.Reading.Parentheses
import ExactFormula.Proofs.Text.Trimming

/-!
Text in braces or brackets. The scan for the closing delimiter passes over quotations and groups, and a text
that it passes over is one lexeme when braces stand around it.
-/

namespace ExactFormula

namespace Lexeme

/-- Inside braces or brackets, the scan for the closing delimiter passes over the text. -/
def Passed (text : List Char) : Prop :=
  ∀ opener closers rest, escapesCount closers = true → groupLength opener 0 closers (text ++ rest) =
    (groupLength opener 0 closers rest).map (· + text.length)

variable {text : List Char}

/-- Counts add up. -/
theorem map_add {ε : Type} (r : Except ε Nat) (m n : Nat) : (r.map (· + m)).map (· + n) = r.map (· + (n + m)) := by
  cases r with
  | error e => rfl
  | ok k => exact congrArg Except.ok ((Nat.add_assoc k m n).trans (by rw [Nat.add_comm m n]))

theorem Passed.nil : Passed [] := by
  intro opener closers rest _
  rw [List.nil_append]
  cases groupLength opener 0 closers rest <;> rfl

theorem Passed.append {text' : List Char} (h : Passed text) (h' : Passed text') : Passed (text ++ text') := by
  intro opener closers rest counts
  rw [List.append_assoc, h opener closers _ counts, h' opener closers _ counts, map_add, List.length_append]

theorem Passed.cons {c : Char} (plain : Text.isQuote c = false ∧ isOpener c = false ∧ isCloser c = false)
    (h : Passed text) : Passed (c :: text) := by
  intro opener closers rest counts
  rw [List.cons_append, groupLength, plain.1, plain.2.1, plain.2.2]
  simp only [Bool.false_eq_true, ↓reduceIte]
  rw [h opener closers rest counts, map_add, List.length_cons, Nat.add_comm]

theorem passed_plain (h : ∀ c ∈ text, Text.isQuote c = false ∧ isOpener c = false ∧ isCloser c = false) :
    Passed text := by
  induction text with
  | nil => exact .nil
  | cons c text ih =>
    obtain ⟨plain, h⟩ := List.forall_mem_cons.1 h
    exact .cons plain (ih h)

theorem groupLength_skip (opener : Char) (skipped : List Char) (closers rest : List Char) :
    groupLength opener skipped.length closers (skipped ++ rest) =
      (groupLength opener 0 closers rest).map (· + skipped.length) := by
  induction skipped with
  | nil =>
    rw [List.nil_append]
    cases groupLength opener 0 closers rest <;> rfl
  | cons c skipped ih =>
    rw [List.cons_append, List.length_cons, groupLength, ih, map_add, Nat.add_comm]

theorem passed_quotation {q : Char} {raw : List Char} (hq : Text.isQuote q = true)
    (closes : ∀ rest, Text.closingLength? true q (raw ++ q :: rest) = some (raw.length + 1)) :
    Passed (q :: (raw ++ [q])) := by
  intro opener closers rest counts
  have skipped := groupLength_skip opener (raw ++ [q]) closers rest
  rw [List.append_assoc, List.singleton_append, List.length_append, List.length_singleton] at skipped
  rw [List.cons_append, List.append_assoc, List.singleton_append, groupLength, hq, counts, closes rest]
  simp only [↓reduceIte]
  rw [skipped, map_add, List.length_cons, List.length_append, List.length_singleton, Nat.add_comm]

theorem Passed.group {c : Char} (opens : isOpener c = true) (h : Passed text) :
    Passed (c :: (text ++ [closer c])) := by
  intro opener closers rest counts
  have more : closers.isEmpty = false := by
    cases closers with
    | nil => cases counts
    | cons => rfl
  have inner : escapesCount (closer c :: closers) = true := by
    rw [escapesCount, List.any_cons, ← escapesCount, counts, Bool.or_true]
  rw [List.cons_append, List.append_assoc, groupLength_opener opens, h opener (closer c :: closers) _ inner,
    List.singleton_append, groupLength_closer opens, more]
  have total : 1 + (text.length + 1) = (c :: (text ++ [closer c])).length := by
    rw [List.length_cons, List.length_append, List.length_singleton]
    omega
  simp only [Bool.false_eq_true, ↓reduceIte, map_add, total]

end Lexeme

theorem lexemes_braces {text : List Char} (h : Lexeme.Passed text) :
    lexemes ('{' :: (text ++ ['}'])) = [.braces text] := by
  refine lexemes_group (c := '{') rfl ?_
  rw [h '{' _ _ rfl]
  exact congrArg Except.ok (Nat.zero_add _)

namespace Direct

theorem interpret_operand (numeric : Bool) (r : Outcome) : interpret numeric [.operand r] = r := by
  have tree : Tree.ofParts [Part.operand r] = some (.leaf r) := rfl
  rw [interpret, tree]
  cases r with
  | error e => simp [Task.run]
  | ok v => simp [Task.run, Task.popped]

/-- A text in braces that is a relaxed document is a formula with one operand, the literal. -/
theorem formula_braces {s : Settings} {text : List Char} (passed : Lexeme.Passed text) {n : Nat} {j : Json}
    {l : Literal} (parsed : Relaxed.parseChars literalMarker s.wrapCalls ('{' :: (text ++ ['}'])) = .ok j)
    (read : ofJson (formula s n) j = .ok l) : ∃ f, formula s (n + 1) ('{' :: (text ++ ['}'])) = .ok f ∧
      ∀ ctx, f.evaluate ctx = l.evaluate ctx := by
  have trimmed : Text.trim ('{' :: (text ++ ['}'])) = '{' :: (text ++ ['}']) :=
    (Text.solid_of_ends rfl rfl text).trimmed
  have operand : literal s (formula s n) ('{' :: (text ++ ['}'])) = .ok (.literal (0, 0) l) := by
    rw [literal, trimmed, tree?, parsed]
    simp only [read]
    rfl
  refine ⟨⟨String.ofList ('{' :: (text ++ ['}'])), [.operand (.literal (0, 0) l)], s.numeric, none⟩, ?_, fun ctx => ?_⟩
  · rw [formula, lexemes_braces passed]
    simp only [addAll, add, operand]
    rfl
  · rw [Formula.evaluate, Part.evaluateAll, Part.evaluate, Operand.evaluate, Part.evaluateAll, interpret_operand]

end Direct

end ExactFormula
