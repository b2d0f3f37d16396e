import ExactFormula.Proofs.Reading.Levels
import ExactFormula.Proofs.Workspace.Phrases

/-!
How deep the formulas are that engines read on a cache without capacity, after every history.
-/

namespace ExactFormula.Session

/-- On a cache without capacity every formula that is read nests no deeper than formulas may, and is the one that a
reading with more levels gives. A reading that comes to a text any deeper is refused, also where that text is a value
of a literal, and no other one is refused so, but by a resolver of one's own. -/
theorem depth_of_read (history : List Action) {e : Engine} (mem : e ∈ (after history).engines)
    (disabled : ((after history).workspace.cacheAt e.cache).capacity = 0) (text : String) :
    (∀ f, (after history).read e text = .ok f → f.depth ≤ maxNesting ∧
      ∀ n, maxNesting < n → Direct.formula e.settings n text.toList = .ok f.bare) ∧
    ((∃ deep, Direct.ComesTo e.settings (maxNesting + 1) text.toList 0 deep) →
      (after history).read e text = .error (.nestingTooDeep maxNesting)) ∧
    (e.settings.reference = none → (after history).read e text = .error (.nestingTooDeep maxNesting) →
      ∃ deep, Direct.ComesTo e.settings (maxNesting + 1) text.toList 0 deep) := by
  obtain ⟨_, -, exact, step⟩ := (after_sound history).read_matches mem text
  cases exact disabled
  refine ⟨fun f read => ?_, fun ⟨deep, comes⟩ => ?_, fun plain refused => ?_⟩
  · rw [read] at step
    obtain ⟨_, ⟨-, rfl⟩, found⟩ := step.of_ok
    have shallow := Direct.depth_lt_of_formula found
    rw [Formula.depth_bare] at shallow
    have rising : Direct.Rising fun n => Direct.formula e.settings n text.toList :=
      fun _ _ more => Direct.formula_approximates more text.toList
    exact ⟨Nat.le_of_lt_succ shallow, fun n more => rising.ok more found⟩
  · rw [comes.tooDeep] at step
    exact step.sameVerdict.eq_error
  · rw [refused] at step
    exact (Direct.formula_eq_tooDeep_iff plain).1 (SameVerdict.eq_error step.sameVerdict.symm)

/-- One engine on a cache without capacity. -/
def disabledHistory : List Action := [.addCache 0, .addEngine {} 0]

theorem disabledHistory_after : after disabledHistory = ⟨⟨[Cache.empty 0 0], 2⟩, [⟨1, {}, 0⟩]⟩ := by
  simp only [disabledHistory, after, run, List.foldl, step, Workspace.addCache, Workspace.addEngine, default_valid]
  rfl

theorem depth_of_read_nestedLiteral : ⟨1, {}, 0⟩ ∈ (after disabledHistory).engines ∧
    ((after disabledHistory).workspace.cacheAt 0).capacity = 0 ∧
    (∃ f, (after disabledHistory).read ⟨1, {}, 0⟩ (String.ofList maxPhrase.text) = .ok f ∧ f.depth = 2 ∧
      f.depth ≤ maxNesting) ∧
    (after disabledHistory).read ⟨1, {}, 0⟩ nestedLiteral = .error (.nestingTooDeep maxNesting) := by
  have mem : ⟨1, {}, 0⟩ ∈ (after disabledHistory).engines := by
    rw [disabledHistory_after]
    exact List.mem_singleton_self _
  have disabled : ((after disabledHistory).workspace.cacheAt 0).capacity = 0 := by
    rw [disabledHistory_after]
    rfl
  have accepted : (after disabledHistory).read ⟨1, {}, 0⟩ (String.ofList maxPhrase.text) =
      .ok (maxPhrase.formulaIn {} true maxPhrase.text) := by
    rw [read_eq, ReadingEnv.read_eq_within ⟨rfl, rfl⟩ maxPhrase_fits, Reading.within, if_pos (by decide)]
    rfl
  obtain ⟨shallow, -, -⟩ := depth_of_read disabledHistory mem disabled (String.ofList maxPhrase.text)
  obtain ⟨-, refused, -⟩ := depth_of_read disabledHistory mem disabled nestedLiteral
  exact ⟨mem, disabled, ⟨_, accepted, rfl, (shallow _ accepted).1⟩, refused ⟨_, comesTo_nestedLiteral⟩⟩

end ExactFormula.Session
