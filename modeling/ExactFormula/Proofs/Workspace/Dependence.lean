import ExactFormula.Proofs.Formula.Dependence
import ExactFormula.Proofs.Workspace.Isolation

/-!
The references of a formula are a complete set of dependencies, after every history.
-/

namespace ExactFormula

theorem Formula.mem_references {f : Formula} {n : String} : n ∈ f.references ↔ n ∈ f.mentions := List.mem_eraseDups

namespace Session

/-- An engine without resolvers of its own, whose functions are all built in, reads formulas that depend on their
references only, by their plans and without them. A reference that turns out unknown is one of them, without a value
in the context or by default. -/
theorem evaluate_references (history : List Action) {e : Engine} (mem : e ∈ (after history).engines)
    (plain : e.settings.reference = none)
    (builtin : ∀ name f, e.settings.functions.get? name = some f → f ∈ Builtin.defs) {text : String} {f : Formula}
    (read : (after history).read e text = .ok f) :
    (∀ ctx ctx' : Context, (∀ n ∈ f.references, ctx.get? n = ctx'.get? n) →
      f.evaluate ctx = f.evaluate ctx' ∧ f.interpret ctx = f.interpret ctx' ∧
        ∀ p, f.plan = some p → p.run ctx (Literal.evaluateAll ctx p.trees) =
          p.run ctx' (Literal.evaluateAll ctx' p.trees)) ∧
    ∀ ctx n, f.evaluate ctx = .error (.unknownReference n) ∨ f.interpret ctx = .error (.unknownReference n) →
      n ∈ f.references ∧ ctx.get? n = none ∧ e.settings.default = none := by
  obtain ⟨levels, -, -, step⟩ := (after_sound history).read_matches mem text
  rw [read] at step
  obtain ⟨_, ⟨readBy, rfl⟩, direct⟩ := step.of_ok
  have depends : DependsOn e.settings.default f.mentions (f.evaluate ·) := by
    have inherited := dependsOn_inherited plain fun name f known => Builtin.plain_of_mem (builtin name f known)
    have bare := inherited.of_formula direct
    simpa only [f.mentions_bare, Formula.evaluate_bare e.settings _ f readBy] using bare
  refine ⟨fun ctx ctx' agree => ?_, fun ctx n failed => ?_⟩
  · have same := depends.same ctx ctx' fun n mentioned => agree n (Formula.mem_references.2 mentioned)
    refine ⟨same, ?_, fun p planned => ?_⟩
    · rw [← readBy.evaluate_eq, ← readBy.evaluate_eq, same]
    · rw [← Formula.evaluate_eq_run planned, ← Formula.evaluate_eq_run planned, same]
  · rw [← readBy.evaluate_eq, or_self] at failed
    rw [Formula.mem_references]
    exact depends.unknown ctx n failed

/-- Names in a call, in a group and in a formula inside a literal. -/
def nestedNames : String := "max(x, (y)) ?? \x7bk: z\x7d"

theorem nestedNames_known : ((after literalHistory).read ⟨1, {}, 0⟩ nestedNames).map
    (fun f => (f.references, f.plan.isSome)) = .ok (["x", "y", "z"], true) := by
  rw [read_eq, literalHistory_cache]
  decide +kernel

theorem evaluate_references_nestedNames : ⟨1, {}, 0⟩ ∈ (after literalHistory).engines ∧
    (({} : Settings).reference = none) ∧
    (∀ name f, ({} : Settings).functions.get? name = some f → f ∈ Builtin.defs) ∧
    ∃ f, (after literalHistory).read ⟨1, {}, 0⟩ nestedNames = .ok f ∧ f.references = ["x", "y", "z"] ∧
      ∀ ctx ctx' : Context, (∀ n ∈ f.references, ctx.get? n = ctx'.get? n) → f.evaluate ctx = f.evaluate ctx' := by
  have known := nestedNames_known
  have builtin (name : String) (f : FunctionDef) (h : ({} : Settings).functions.get? name = some f) :
      f ∈ Builtin.defs := Builtin.mem_of_get?_table h
  cases found : (after literalHistory).read ⟨1, {}, 0⟩ nestedNames with
  | error e =>
    rw [found] at known
    cases known
  | ok f =>
    rw [found, Except.map, Except.ok.injEq, Prod.mk.injEq] at known
    have depends := (evaluate_references literalHistory literalHistory_engine rfl builtin found).1
    exact ⟨literalHistory_engine, rfl, builtin, f, rfl, known.1,
      fun ctx ctx' agree => (depends ctx ctx' agree).1⟩

end Session

end ExactFormula
