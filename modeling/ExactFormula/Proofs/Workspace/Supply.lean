import ExactFormula.Proofs.Formula.Stacks
import ExactFormula.Proofs.Formula.Within
import ExactFormula.Proofs.Plan.Ranges
import ExactFormula.Proofs.Workspace.Dependence

/-!
Evaluation of what was read never falls back on a value or an operand that is missing, in any formula inside it.
-/

namespace ExactFormula

/-- Whatever a pass over the formula makes of its operands, it ends with one result and nothing that waits. The
interpreter finds all the values that it takes, and so does the plan, if there is one. -/
structure Formula.Supplied (f : Formula) : Prop where
  folded : ∀ (α β : Type) (F : Folder α β) (leaf : Operand → α), ∃ b,
    F.stacks? (f.parts.map (Part.map leaf)) = some ([], [b], []) ∧ F.fold (f.parts.map (Part.map leaf)) = some b
  interpreted : ∀ ctx, ∃ t, Tree.ofParts (Part.evaluateAll ctx f.parts) = some t ∧
    Task.Runs f.numeric [.force t] [] (f.interpret ctx)
  planned : ∀ p, f.plan = some p → p.Supplied

theorem Formula.supplied_of_alternate {s : Settings} {f : Formula} (readBy : f.ReadBy s)
    (turns : Part.Alternate true f.parts) : f.Supplied where
  folded α β F leaf := F.exists_stacks? ((Part.alternate_map leaf).2 turns)
  interpreted ctx := by
    have mapped : Part.Alternate true (Part.evaluateAll ctx f.parts) := by
      rw [Part.evaluateAll_eq_map]
      exact (Part.alternate_map _).2 turns
    obtain ⟨t, -, folded⟩ := Tree.folder.exists_stacks? mapped
    refine ⟨t, folded, ?_⟩
    have run : f.interpret ctx = Task.run f.numeric [.force t] [] := by
      rw [Formula.interpret, ExactFormula.interpret, Tree.ofParts, folded]
    rw [run]
    exact Task.runs_force t
  planned p plan := by
    rcases readBy.plan_eq with none | made
    · rw [none] at plan
      cases plan
    · exact Plan.supplied_of_ofParts? (made.symm.trans plan)

namespace Session

/-- Every formula inside one that an engine reads is supplied, after every history. -/
theorem supplied_of_read (history : List Action) {e : Engine} (mem : e ∈ (after history).engines) {text : String}
    {f : Formula} (read : (after history).read e text = .ok f) : ∀ g, Formula.Within g f → g.Supplied := by
  obtain ⟨levels, -, -, step⟩ := (after_sound history).read_matches mem text
  rw [read] at step
  obtain ⟨_, ⟨readBy, rfl⟩, direct⟩ := step.of_ok
  exact fun g within => Formula.supplied_of_alternate (within.readBy readBy) (within.alternate direct)

theorem supplied_of_read_nestedNames : ⟨1, {}, 0⟩ ∈ (after literalHistory).engines ∧
    ∃ f p, (after literalHistory).read ⟨1, {}, 0⟩ nestedNames = .ok f ∧ f.plan = some p ∧ p.Supplied ∧
      ∀ g, Formula.Within g f → g.Supplied := by
  have known := nestedNames_known
  cases found : (after literalHistory).read ⟨1, {}, 0⟩ nestedNames with
  | error e =>
    rw [found] at known
    cases known
  | ok f =>
    rw [found, Except.map, Except.ok.injEq, Prod.mk.injEq] at known
    obtain ⟨p, plan⟩ := Option.isSome_iff_exists.1 known.2
    have supplied := supplied_of_read literalHistory literalHistory_engine found
    exact ⟨literalHistory_engine, f, p, rfl, plan, (supplied f .refl).planned p plan, supplied⟩

end Session

end ExactFormula
