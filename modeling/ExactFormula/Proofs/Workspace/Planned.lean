import ExactFormula.Proofs.Plan.Depth
import ExactFormula.Proofs.Workspace.Phrases

/-!
Which formulas come with a plan, after every history: those that are no single value and nest no deeper than plans go.
-/

namespace ExactFormula

namespace Phrase

theorem planDepth_grouped (s : Settings) (e : Phrase) (n : Nat) :
    Part.planDepthAll ((e.grouped n).partsIn s) = Part.planDepthAll (e.partsIn s) + n := by
  induction n with
  | zero => rfl
  | succ n ih =>
    simp [grouped, partsIn, Term.operandIn, Part.planDepthAll, Part.planDepth, Operand.planDepth, Formula.planDepth,
      ih, Nat.add_assoc]

end Phrase

namespace Session

/-- An engine that makes plans makes one of what it reads exactly when that is no single value and its groups and
calls nest no deeper than plans go. -/
theorem isSome_plan_iff (history : List Action) {e : Engine} (mem : e ∈ (after history).engines)
    (compile : e.settings.compile = true) {text : String} {f : Formula} (read : (after history).read e text = .ok f) :
    f.plan.isSome = true ↔ f.single = none ∧ f.planDepth ≤ maxPlanDepth := by
  obtain ⟨levels, -, -, step⟩ := (after_sound history).read_matches mem text
  have ran := read
  rw [read] at step
  obtain ⟨_, ⟨-, rfl⟩, direct⟩ := step.of_ok
  rw [read_eq] at ran
  have planned := plan_of_readFormula (Prod.ext ran rfl)
  have made := Plan.isSome_ofParts?_iff e.settings.numeric fun g within => within.alternate direct
  rw [planned, compile]
  cases single : f.single with
  | none => simp [made]
  | some value => simp

/-! ## A call without arguments -/

def sumDef : FunctionDef := ⟨"sum", 0, none, Builtin.sum⟩

/-- `- sum ( )` -/
def sumPhrase : Phrase :=
  .sign .negate .one (.operand (.callEmpty (.identifier 's' ['u', 'm'] rfl (List.all_eq_true.1 rfl)) sumDef .one .one))

theorem sumPhrase_fits : sumPhrase.Fits {} := ⟨rfl, rfl, by decide, nofun⟩

/-- The call is a level of its own: in 63 groups the formula has a plan, in 64 it has none. -/
theorem isSome_plan_iff_sumPhrase : ⟨1, {}, 0⟩ ∈ (after literalHistory).engines ∧ ({} : Settings).compile = true ∧
    (∃ f, (after literalHistory).read ⟨1, {}, 0⟩ (String.ofList (sumPhrase.grouped 63).text) = .ok f ∧
      f.single = none ∧ f.planDepth = 64 ∧ f.plan.isSome = true) ∧
    ∃ f, (after literalHistory).read ⟨1, {}, 0⟩ (String.ofList (sumPhrase.grouped 64).text) = .ok f ∧
      f.single = none ∧ f.planDepth = 65 ∧ f.plan.isSome = false := by
  have found (n : Nat) (shallow : sumPhrase.depth + n ≤ maxNesting) :
      (after literalHistory).read ⟨1, {}, 0⟩ (String.ofList (sumPhrase.grouped n).text) =
        .ok ((sumPhrase.grouped n).formulaIn {} true (sumPhrase.grouped n).text) := by
    rw [read_eq, ReadingEnv.read_eq_within ⟨rfl, rfl⟩ (Phrase.grouped_fits sumPhrase_fits n), Phrase.depth_grouped,
      Reading.within, if_pos shallow]
    rfl
  have depth (n : Nat) : ((sumPhrase.grouped n).formulaIn {} true (sumPhrase.grouped n).text).planDepth = 1 + n :=
    Phrase.planDepth_grouped {} sumPhrase n
  have inside := found 63 (by decide)
  have beyond := found 64 (by decide)
  refine ⟨literalHistory_engine, rfl, ⟨_, inside, rfl, depth 63, ?_⟩, _, beyond, rfl, depth 64, ?_⟩
  · exact (isSome_plan_iff literalHistory literalHistory_engine rfl inside).2 ⟨rfl, by rw [depth]; decide⟩
  · refine Bool.eq_false_iff.2 fun planned => ?_
    have low := ((isSome_plan_iff literalHistory literalHistory_engine rfl beyond).1 planned).2
    rw [depth] at low
    exact absurd low (by decide)

end Session

end ExactFormula
