import ExactFormula.Proofs.Plan.Constants
import ExactFormula.Proofs.Plan.Depth
import ExactFormula.Proofs.Workspace.Isolation

/-!
Which formulas come with a plan of one constant, after every history: the closed ones that have a value, and no
formula whose value depends on a context.
-/

namespace ExactFormula.Session

/-- A formula that is not a single value has a plan, unless its groups and calls nest too deep. In what is read, a
planned formula that is closed and has a value is folded to that constant, and whatever is folded to a constant has
that value in every context. -/
theorem constants_of_read (history : List Action) {e : Engine} (mem : e ∈ (after history).engines) {text : String}
    {f : Formula} (read : (after history).read e text = .ok f) :
    (e.settings.compile = true → f.single = none → f.planDepth ≤ maxPlanDepth → f.plan.isSome = true) ∧
      ∀ g, Formula.Within g f → ∀ p, g.plan = some p →
        (g.isClosed = true → ∀ ctx v, g.interpret ctx = .ok v → p.isConstant = true ∧ p.constant? = some v) ∧
        (p.isConstant = true → ∃ v, p.constant? = some v ∧ ∀ ctx, g.interpret ctx = .ok v) := by
  obtain ⟨levels, -, -, step⟩ := (after_sound history).read_matches mem text
  have ran := read
  rw [read] at step
  obtain ⟨_, ⟨readBy, rfl⟩, direct⟩ := step.of_ok
  refine ⟨fun compile several low => ?_, fun g within p plan => ?_⟩
  · rw [read_eq] at ran
    have planned := plan_of_readFormula (Prod.ext ran rfl)
    rw [compile, several] at planned
    rw [planned]
    exact (Plan.isSome_ofParts?_iff _ fun g within => within.alternate direct).2 low
  · have inside := within.readBy readBy
    have made : Plan.ofParts? e.settings.numeric g.parts = some p := by
      rcases inside.plan_eq with none | same
      · cases none.symm.trans plan
      · exact same.symm.trans plan
    have numeric := inside.numeric_eq
    obtain ⟨source, parts, mode, _⟩ := g
    dsimp only at numeric made
    subst numeric
    refine ⟨fun closed ctx v value => ?_, fun constant => ?_⟩
    · rw [Formula.isClosed] at closed
      exact Plan.constant_of_closed inside.parts made closed value
    · exact Plan.exists_constant inside.parts made constant

/-- Signs, groups and operators on numbers alone. -/
def negatedPower : String := "-(2 ^ 3) + 1"

theorem constants_of_read_negatedPower : ⟨1, {}, 0⟩ ∈ (after literalHistory).engines ∧
    ∃ f p v, (after literalHistory).read ⟨1, {}, 0⟩ negatedPower = .ok f ∧ f.single = none ∧
      f.planDepth ≤ maxPlanDepth ∧ f.isClosed = true ∧ f.plan = some p ∧ p.isConstant = true ∧
      p.constant? = some v ∧ ∀ ctx, f.interpret ctx = .ok v := by
  have known : ((after literalHistory).read ⟨1, {}, 0⟩ negatedPower).map (fun f =>
      (f.single.isNone, f.planDepth, f.isClosed, f.plan.map (·.isConstant))) = .ok (true, 1, true, some true) := by
    rw [read_eq, literalHistory_cache]
    decide +kernel
  cases read : (after literalHistory).read ⟨1, {}, 0⟩ negatedPower with
  | error e =>
    rw [read] at known
    cases known
  | ok f =>
    rw [read, Except.map, Except.ok.injEq, Prod.mk.injEq, Prod.mk.injEq, Prod.mk.injEq] at known
    obtain ⟨several, depth, closed, constant⟩ := known
    have single := Option.isNone_iff_eq_none.1 several
    have low : f.planDepth ≤ maxPlanDepth := depth ▸ (by decide)
    have constants := constants_of_read literalHistory literalHistory_engine read
    obtain ⟨p, plan⟩ := Option.isSome_iff_exists.1 (constants.1 rfl single low)
    rw [plan, Option.map_some, Option.some.injEq] at constant
    obtain ⟨folded, sound⟩ := constants.2 f .refl p plan
    obtain ⟨v, -, value⟩ := sound constant
    obtain ⟨isConstant, holds⟩ := folded closed .empty v (value .empty)
    exact ⟨literalHistory_engine, f, p, v, rfl, single, low, closed, plan, isConstant, holds, value⟩

end ExactFormula.Session
