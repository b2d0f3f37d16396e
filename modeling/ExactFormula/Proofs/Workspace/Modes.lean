import ExactFormula.Proofs.Reading.Modes
import ExactFormula.Proofs.Reading.Yielding
import ExactFormula.Proofs.Workspace.Isolation

/-!
The two modes agree on numbers, after every history.
-/

namespace ExactFormula

/-- Settings that are one in the same mode differ in nothing but the mode and plans. -/
theorem Settings.eq_inMode {s s' : Settings} (h : s.inMode true true = s'.inMode true true) :
    s' = s.inMode s'.numeric s'.compile :=
  calc s' = (s'.inMode true true).inMode s'.numeric s'.compile := rfl
    _ = (s.inMode true true).inMode s'.numeric s'.compile := by rw [h]
    _ = s.inMode s'.numeric s'.compile := rfl

/-- A formula comes to one outcome by whichever way it is evaluated: as it is, without its plan, and by its plan. -/
structure Formula.HasOutcome (f : Formula) (ctx : Context) (r : Outcome) : Prop where
  evaluated : f.evaluate ctx = r
  interpreted : f.interpret ctx = r
  planned : ∀ p, f.plan = some p → p.run ctx (Literal.evaluateAll ctx p.trees) = r

theorem Formula.ReadBy.hasOutcome {s : Settings} {f : Formula} (h : f.ReadBy s) (ctx : Context) :
    f.HasOutcome ctx (f.bare.evaluate ctx) where
  evaluated := (Formula.evaluate_bare s ctx f h).symm
  interpreted := by rw [← h.evaluate_eq ctx, Formula.evaluate_bare s ctx f h]
  planned p plan := by rw [← Formula.evaluate_eq_run plan, Formula.evaluate_bare s ctx f h]

namespace Session

/-- Whatever an engine reads as a formula of numbers, an engine that differs in nothing but the mode and plans reads,
too. In every context in which the references are numbers both formulas come to one outcome, a number or a failure,
by plan and without it; where names are looked up, that is so if the context has numbers for all the names. -/
theorem modes_agree {history history' : List Action} {e e' : Engine} (mem : e ∈ (after history).engines)
    (mem' : e' ∈ (after history').engines) (twins : e.settings.inMode true true = e'.settings.inMode true true)
    {text : String} {f : Formula} (read : (after history).read e text = .ok f)
    (numbers : f.keepsNumbers (fun _ => true) = true) :
    ∃ f', (after history').read e' text = .ok f' ∧
      (∀ ctx, f.keepsNumbers (·.isNumber ctx) = true →
        ∃ r : Outcome, r.OfNumbers ∧ f.HasOutcome ctx r ∧ f'.HasOutcome ctx r) ∧
      (e.settings.reference = none → ∀ ctx, (∀ n ∈ f.references, ∃ d, ctx.get? n = some (.number d)) →
        f.keepsNumbers (·.isNumber ctx) = true) := by
  obtain ⟨levels, -, -, step⟩ := (after_sound history).read_matches mem text
  obtain ⟨levels', more, -, step'⟩ := (after_sound history').read_matches mem' text
  have ran := read
  rw [read_eq] at ran
  rw [read] at step
  obtain ⟨_, ⟨readBy, rfl⟩, direct⟩ := step.of_ok
  -- The formula is shallow, so reading without a memory needs no more levels in either mode.
  have shallow : f.bare.depth < maxNesting + 1 := by
    rw [Formula.depth_bare]
    exact readFormula_shallow ⟨e.settings, e.id⟩ _ _ true text.toList _ f _ (Prod.ext ran rfl) numbers
  have bareNumbers : f.bare.keepsNumbers (fun _ => true) = true := by rw [Formula.keepsNumbers_bare, numbers]
  have again : Direct.formula e.settings (maxNesting + 1) text.toList = .ok (f.bare.inMode e.settings.numeric) :=
    Direct.formula_readsNumbers e.settings.numeric e.settings.compile _ _ levels _ _ direct bareNumbers shallow
  have other : Direct.formula e'.settings levels' text.toList = .ok (f.bare.inMode e'.settings.numeric) := by
    have rising : Direct.Rising fun n => Direct.formula e'.settings n text.toList :=
      fun _ _ more => Direct.formula_approximates more text.toList
    refine rising.ok more ?_
    rw [Settings.eq_inMode twins]
    exact Direct.formula_readsNumbers _ e'.settings.compile _ _ levels _ _ direct bareNumbers shallow
  have same : f.bare = f.bare.inMode e.settings.numeric := Direct.formula_ok_unique direct again
  rw [other] at step'
  generalize (after history').read e' text = result at step'
  cases step' with
  | @ok f' _ related =>
    obtain ⟨readBy', bare'⟩ := related
    refine ⟨f', rfl, fun ctx known => ?_, fun plain ctx named => ?_⟩
    · have agrees := Direct.agrees_of_formula direct (by rwa [Formula.keepsNumbers_bare])
      have has := readBy.hasOutcome ctx
      have has' := readBy'.hasOutcome ctx
      rw [same, agrees.same] at has
      rw [bare', agrees.same] at has'
      exact ⟨_, agrees.ofNumbers, has, has'⟩
    · rw [← Formula.keepsNumbers_bare]
      refine Direct.isNumber_of_formula plain direct bareNumbers fun n mem => named n ?_
      rw [Formula.mentions_bare] at mem
      exact List.mem_eraseDups.2 mem

/-- The history of `literalHistory`, in the other mode. -/
def textualHistory : List Action :=
  [.addCache 1, .addEngine { numeric := false } 0, .read 0 (String.ofList smallLiteral)]

theorem textualHistory_engine : ⟨1, { numeric := false }, 0⟩ ∈ (after textualHistory).engines := by
  have valid : ({ numeric := false } : Settings).invalidConstant? = none := default_valid
  rw [textualHistory, after_reading valid]
  exact List.mem_singleton_self _

/-- A quoted number, a group with a sign, and operators that look at truth or text elsewhere. -/
def numericText : String := "-(a + '0.5') ^ 2 % 7 || b ?? 1"

theorem modes_agree_numericText : ⟨1, {}, 0⟩ ∈ (after literalHistory).engines ∧
    ⟨1, { numeric := false }, 0⟩ ∈ (after textualHistory).engines ∧
    Settings.inMode {} true true = Settings.inMode { numeric := false } true true ∧
    ∃ f f', (after literalHistory).read ⟨1, {}, 0⟩ numericText = .ok f ∧ f.keepsNumbers (fun _ => true) = true ∧
      f.plan.isSome = true ∧ (after textualHistory).read ⟨1, { numeric := false }, 0⟩ numericText = .ok f' ∧
      ∀ a b, ∃ r : Outcome, r.OfNumbers ∧
        f.HasOutcome ((Context.empty.insert "a" (.number a)).insert "b" (.number b)) r ∧
        f'.HasOutcome ((Context.empty.insert "a" (.number a)).insert "b" (.number b)) r := by
  have known : ((after literalHistory).read ⟨1, {}, 0⟩ numericText).map (fun f =>
      (f.keepsNumbers (fun _ => true), f.plan.isSome, f.references)) = .ok (true, true, ["a", "b"]) := by
    rw [read_eq, literalHistory_cache]
    decide +kernel
  cases read : (after literalHistory).read ⟨1, {}, 0⟩ numericText with
  | error e =>
    rw [read] at known
    cases known
  | ok f =>
    rw [read, Except.map, Except.ok.injEq, Prod.mk.injEq, Prod.mk.injEq] at known
    obtain ⟨numbers, planned, references⟩ := known
    obtain ⟨f', read', agree, named⟩ := modes_agree literalHistory_engine textualHistory_engine rfl read numbers
    refine ⟨literalHistory_engine, textualHistory_engine, rfl, f, f', rfl, numbers, planned, read', fun a b => ?_⟩
    refine agree _ (named rfl _ ?_)
    rw [references]
    simp [Context.get?_insert]

end Session

end ExactFormula
