import ExactFormula.Proofs.Formula.Evaluating
import ExactFormula.Proofs.Reading.Failing
import ExactFormula.Proofs.Workspace.Isolation

/-!
Errors of reading and errors of evaluation do not mix, after every history.
-/

namespace ExactFormula

namespace Session

/-- An engine without resolvers of its own, whose functions are all built in, fails to read a text with errors of
reading only. What it reads fails, by its plan and without it, with errors of evaluation only; none of them is for an
operator or a context, and a default leaves no reference unknown. -/
theorem read_phases (history : List Action) {e : Engine} (mem : e ∈ (after history).engines)
    (plain : e.settings.reference = none)
    (builtin : ∀ name f, e.settings.functions.get? name = some f → f ∈ Builtin.defs) (text : String) :
    (∀ fault, (after history).read e text = .error fault → fault.phase = .reading ∧
      (∀ symbol, fault ≠ .unsupportedOperator symbol) ∧ ∀ reason, fault ≠ .invalidContext reason) ∧
    ∀ f, (after history).read e text = .ok f → ∀ ctx fault,
      f.evaluate ctx = .error fault ∨ f.interpret ctx = .error fault ∨
          (∃ p, f.plan = some p ∧ p.run ctx (Literal.evaluateAll ctx p.trees) = .error fault) →
        fault.phase = .evaluation ∧ (∀ symbol, fault ≠ .unsupportedOperator symbol) ∧
          (∀ reason, fault ≠ .invalidContext reason) ∧
          (e.settings.default.isSome → ∀ name, fault ≠ .unknownReference name) := by
  obtain ⟨levels, -, -, step⟩ := (after_sound history).read_matches mem text
  refine ⟨fun fault failed => ?_, fun f read ctx fault failed => ?_⟩
  · rw [failed] at step
    have direct := Direct.formula_fails plain levels text.toList
    generalize Direct.formula e.settings levels text.toList = result at step direct
    cases step with
    | error _ =>
      have phase := direct fault rfl
      refine ⟨phase, ?_, ?_⟩ <;> rintro _ rfl <;> cases phase
  · rw [read] at step
    obtain ⟨_, ⟨readBy, rfl⟩, direct⟩ := step.of_ok
    have bare := (failsWith_inherited plain builtin ctx).of_formula direct
    rw [Formula.evaluate_bare e.settings _ f readBy] at bare
    have failed : f.evaluate ctx = .error fault := by
      rcases failed with evaluated | interpreted | ⟨p, planned, run⟩
      · exact evaluated
      · rwa [readBy.evaluate_eq]
      · rwa [Formula.evaluate_eq_run planned]
    have evaluated := bare fault failed
    refine ⟨evaluated.phase_eq, ?_, ?_, fun given name same => ?_⟩
    · rintro _ rfl
      cases evaluated with
      | computed h => cases h
    · rintro _ rfl
      cases evaluated with
      | computed h => cases h
    · subst same
      cases evaluated with
      | computed h => cases h
      | unknown missing =>
        rw [missing] at given
        cases given

/-- A quotient by a literal in which a value that is no formula stays text. -/
def degradedQuotient : String := "x / \x7ba: 1 +\x7d"

/-- The quotient has an unknown name, and is not read without its divisor. -/
theorem read_phases_degradedQuotient : ⟨1, {}, 0⟩ ∈ (after literalHistory).engines ∧
    (({} : Settings).reference = none) ∧
    (∀ name f, ({} : Settings).functions.get? name = some f → f ∈ Builtin.defs) ∧
    (∃ fault, (after literalHistory).read ⟨1, {}, 0⟩ "x /" = .error fault ∧ fault.phase = .reading) ∧
    ∃ f, (after literalHistory).read ⟨1, {}, 0⟩ degradedQuotient = .ok f ∧
      ∃ fault, f.evaluate .empty = .error fault ∧ fault.phase = .evaluation := by
  have builtin (name : String) (f : FunctionDef) (h : ({} : Settings).functions.get? name = some f) :
      f ∈ Builtin.defs := Builtin.mem_of_get?_table h
  have refused : ((after literalHistory).read ⟨1, {}, 0⟩ "x /").isOk = false := by
    rw [read_eq, literalHistory_cache]
    decide
  have unknown : ((after literalHistory).read ⟨1, {}, 0⟩ degradedQuotient).map (fun f => (f.evaluate .empty).isOk) =
      .ok false := by
    rw [read_eq, literalHistory_cache]
    decide +kernel
  refine ⟨literalHistory_engine, rfl, builtin, ?_, ?_⟩
  · cases read : (after literalHistory).read ⟨1, {}, 0⟩ "x /" with
    | error fault => exact ⟨fault, rfl, ((read_phases literalHistory literalHistory_engine rfl builtin _).1 _ read).1⟩
    | ok f =>
      rw [read] at refused
      cases refused
  · cases read : (after literalHistory).read ⟨1, {}, 0⟩ degradedQuotient with
    | error fault =>
      rw [read] at unknown
      cases unknown
    | ok f =>
      rw [read] at unknown
      refine ⟨f, rfl, ?_⟩
      have phases := (read_phases literalHistory literalHistory_engine rfl builtin _).2 f read .empty
      cases evaluated : f.evaluate .empty with
      | error fault => exact ⟨fault, rfl, (phases fault (.inl evaluated)).1⟩
      | ok v =>
        simp only [Except.map, evaluated] at unknown
        cases unknown

end Session

end ExactFormula
