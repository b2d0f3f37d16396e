import ExactFormula.Proofs.Reading.Partnered
import ExactFormula.Proofs.Workspace.Isolation

/-!
What engines say about delimiters is what one pass over the text says, after every history.
-/

namespace ExactFormula

namespace Session

/-- Engines without resolvers of their own never find a delimiter without its partner in balanced text, nor in
any text that is nested in it. They accept balanced text only. -/
theorem read_delimiters (history : List Action) {e : Engine} (mem : e ∈ (after history).engines)
    (plain : e.settings.reference = none) (text : String) :
    (Balanced text.toList → (∀ d, (after history).read e text ≠ .error (.unmatchedDelimiter d)) ∧
      ∀ nested, Text.Nested nested text.toList →
        ∀ d, (after history).read e (String.ofList nested) ≠ .error (.unmatchedDelimiter d)) ∧
    (¬Balanced text.toList → ∃ fault, (after history).read e text = .error fault) := by
  have partnered (text : String) (balanced : Balanced text.toList) (d : Char) :
      (after history).read e text ≠ .error (.unmatchedDelimiter d) := by
    obtain ⟨levels, -, -, step⟩ := (after_sound history).read_matches mem text
    have direct := Direct.formula_partnered plain levels (balanced_iff_matched.1 balanced)
    intro failed
    rw [failed] at step
    generalize Direct.formula e.settings levels text.toList = result at step direct
    cases step with
    | error _ => exact direct d rfl
  refine ⟨fun balanced => ⟨partnered text balanced, fun nested inside => partnered _ ?_⟩, fun unbalanced => ?_⟩
  · rw [String.toList_ofList]
    exact balanced.nested inside
  · obtain ⟨levels, -, -, step⟩ := (after_sound history).read_matches mem text
    generalize (after history).read e text = result at step
    cases result with
    | error fault => exact ⟨fault, rfl⟩
    | ok f =>
      obtain ⟨g, -, read⟩ := step.of_ok
      exact absurd (Direct.balanced_of_formula read) unbalanced

/-- Backslashes escape quotes in brackets but not in parentheses alone. -/
theorem read_delimiters_escapes : ⟨1, {}, 0⟩ ∈ (after literalHistory).engines ∧
    (({} : Settings).reference = none) ∧
    (∀ d, (after literalHistory).read ⟨1, {}, 0⟩ "('\\' + ['\\'', \")\"])" ≠ .error (.unmatchedDelimiter d)) ∧
    ∃ fault, (after literalHistory).read ⟨1, {}, 0⟩ "['\\', ('\\'', \")\")]" = .error fault :=
  ⟨literalHistory_engine, rfl,
    (read_delimiters literalHistory literalHistory_engine rfl _).1 (by decide) |>.1,
    (read_delimiters literalHistory literalHistory_engine rfl _).2 (by decide)⟩

end Session

end ExactFormula
