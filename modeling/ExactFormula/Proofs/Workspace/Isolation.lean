import ExactFormula.Proofs.Reading.Levels
import ExactFormula.Proofs.Workspace.History

/-!
What engines read does not depend on what was read before, by them or by other engines on their caches,
but for one thing: a text that nests too deep may be accepted where its literals are already known.
-/

namespace ExactFormula

/-- Reads to a given depth, without a memory. -/
def Settings.readTo (s : Settings) (levels : Nat) (text : String) : Except FormulaError Formula :=
  ((readFormula ⟨s, 0⟩ levels true text.toList).run (Cache.empty 0 0)).1

theorem Settings.readTo_matches (s : Settings) (levels : Nat) (text : String) :
    Matches (Formula.ReadAs s) (s.readTo levels text) (Direct.formula s levels text.toList) := by
  have tracks : NestedReader.Tracks (fun _ => some s) s levels (readFormula ⟨s, 0⟩ levels) :=
    readFormula_tracks ⟨s, 0⟩ rfl levels
  obtain ⟨-, -, n, -, exact, step⟩ :=
    ((tracks true text.toList).mono fun _ _ related => related.1) _ (.empty _ 0 0)
  rw [exact rfl] at step
  exact step

theorem Settings.read_error {s : Settings} {text : String} {e : FormulaError}
    (refused : Direct.formula s (maxNesting + 1) text.toList = .error e) : s.read text = .error e := by
  have alone := s.readTo_matches (maxNesting + 1) text
  rw [refused] at alone
  exact alone.sameVerdict.eq_error

theorem exists_ok_of_map {r : Except FormulaError Formula} (h : r.map (fun _ => ()) = .ok ()) :
    ∃ f, r = .ok f := by
  cases r with
  | error e => cases h
  | ok f => exact ⟨f, rfl⟩

namespace Session

variable {s : Session} {e : Engine}

theorem Sound.read_matches (h : s.Sound) (mem : e ∈ s.engines) (text : String) :
    ∃ levels, maxNesting + 1 ≤ levels ∧
      ((s.workspace.cacheAt e.cache).capacity = 0 → levels = maxNesting + 1) ∧
      Matches (Formula.ReadAs e.settings) (s.read e text) (Direct.formula e.settings levels text.toList) :=
  (h.read_tracked mem text).follows

/-- What reading without a memory accepts to every depth is accepted after every history, with the same
outcomes. -/
theorem read_of_direct (history : List Action) (mem : e ∈ (after history).engines) {text : String}
    {outcome : Context → Outcome} (direct : ∀ n, maxNesting ≤ n →
      ∃ f, Direct.formula e.settings (n + 1) text.toList = .ok f ∧ ∀ ctx, f.evaluate ctx = outcome ctx) :
    ∃ f, (after history).read e text = .ok f ∧ ∀ ctx, f.evaluate ctx = outcome ctx := by
  obtain ⟨levels, le, -, step⟩ := (after_sound history).read_matches mem text
  obtain ⟨n, rfl⟩ : ∃ n, levels = n + 1 := ⟨levels - 1, by omega⟩
  obtain ⟨f, read, evaluated⟩ := direct n (by omega)
  rw [read] at step
  generalize (after history).read e text = result at step
  cases step with
  | @ok g _ related =>
    obtain ⟨readBy, rfl⟩ := related
    exact ⟨g, rfl, fun ctx => by rw [← Formula.evaluate_bare e.settings ctx g readBy, evaluated]⟩

/-- The session in which one engine was made on a cache of its own and has read one text. -/
theorem after_reading {settings : Settings} (valid : settings.invalidConstant? = none) (capacity : Nat)
    (text : String) : after [.addCache capacity, .addEngine settings 0, .read 0 text] =
      ⟨⟨[((ReadingEnv.read ⟨settings, 1⟩ text).run (Cache.empty 0 capacity)).2], 2⟩, [⟨1, settings, 0⟩]⟩ := by
  simp only [after, run, List.foldl, step, Workspace.addCache, Workspace.addEngine, valid]
  rfl

theorem default_valid : ({} : Settings).invalidConstant? = none := by
  simp [Settings.invalidConstant?, Entries.names]

/-- An object with one formula, which is a name. -/
def smallLiteral : List Char := ['{', 'a', ':', ' ', 'x', '}']

theorem smallLiteral_enclosed : Lexeme.Enclosed smallLiteral :=
  .group (c := '{') rfl (.cons rfl rfl rfl (.cons rfl rfl rfl (.cons rfl rfl rfl (.cons rfl rfl rfl .nil))))

/-- The literal has been read on its own. -/
def literalHistory : List Action := [.addCache 1, .addEngine {} 0, .read 0 (String.ofList smallLiteral)]

theorem literalHistory_after : after literalHistory =
    ⟨⟨[((ReadingEnv.read ⟨{}, 1⟩ (String.ofList smallLiteral)).run (Cache.empty 0 1)).2], 2⟩, [⟨1, {}, 0⟩]⟩ :=
  after_reading default_valid 1 _

theorem literalHistory_engine : ⟨1, {}, 0⟩ ∈ (after literalHistory).engines := by
  rw [literalHistory_after]
  exact List.mem_singleton_self _

theorem literalHistory_cache : (after literalHistory).workspace.cacheAt 0 =
    ((ReadingEnv.read ⟨{}, 1⟩ (String.ofList smallLiteral)).run (Cache.empty 0 1)).2 := by
  rw [literalHistory_after]
  rfl

/-- The literal in as many parentheses as texts may nest. -/
def nestedLiteral : String := String.ofList (parenthesized maxNesting smallLiteral)

/-- The literal itself is not too deep, its value is. -/
theorem comesTo_nestedLiteral : Direct.ComesTo {} (maxNesting + 1) nestedLiteral.toList 0 ['x'] := by
  have lexemes : lexemes smallLiteral = [.braces ['a', ':', ' ', 'x']] := rfl
  have document : Relaxed.parseChars literalMarker false (Text.trim smallLiteral) =
      .ok (.object [("a", .string "\x1f#x")]) := rfl
  have value : Direct.ComesTo {} 1 smallLiteral 0 ['x'] := by
    refine .inside ?_ (.here 0 _)
    rw [lexemes]
    exact .first (.braced document (.member (.first (.value rfl))))
  rw [nestedLiteral, String.toList_ofList]
  exact value.parenthesized smallLiteral_enclosed rfl maxNesting

theorem nestedLiteral_alone : Settings.read {} nestedLiteral = .error tooDeep :=
  Settings.read_error comesTo_nestedLiteral.tooDeep

theorem nestedLiteral_known : ∃ f, (after literalHistory).read ⟨1, {}, 0⟩ nestedLiteral = .ok f := by
  obtain ⟨planned, same⟩ := readFormula_parenthesized ⟨{}, 1⟩ smallLiteral_enclosed (by decide)
    maxNesting 1 true ((ReadingEnv.read ⟨{}, 1⟩ (String.ofList smallLiteral)).run (Cache.empty 0 1)).2
  refine exists_ok_of_map ?_
  rw [read_eq, ReadingEnv.read, nestedLiteral, String.toList_ofList, literalHistory_cache]
  refine Eq.trans same ?_
  cases planned <;> decide +kernel

/-! ## Verdicts -/

/-- A reading and the one without a memory give one verdict exactly when the first one, too, refuses a text
that nests too deep for the second one. Whatever it gives, it is what reading without a memory gives to
some depth; without capacity, to the same one. -/
theorem sameVerdict_iff (history : List Action) {e : Engine} (mem : e ∈ (after history).engines)
    (text : String) :
    (SameVerdict ((after history).read e text) (e.settings.read text) ↔
      (e.settings.read text = .error tooDeep → (after history).read e text = .error tooDeep)) ∧
    ∃ levels, maxNesting + 1 ≤ levels ∧
      (((after history).workspace.cacheAt e.cache).capacity = 0 → levels = maxNesting + 1) ∧
      SameVerdict ((after history).read e text) (e.settings.readTo levels text) := by
  obtain ⟨levels, le, exact, step⟩ := (after_sound history).read_matches mem text
  have alone := e.settings.readTo_matches (maxNesting + 1) text
  refine ⟨⟨fun same deep => ?_, fun both => ?_⟩, levels, le, exact,
    step.sameVerdict.trans (e.settings.readTo_matches levels text).sameVerdict.symm⟩
  · rw [deep] at same
    exact same.eq_error
  · rcases Direct.formula_approximates le text.toList with deep | same
    · rw [deep] at alone
      have refused : e.settings.read text = .error tooDeep := alone.sameVerdict.eq_error
      rw [both refused, refused]
      rfl
    · rw [same] at alone
      exact step.sameVerdict.trans alone.sameVerdict.symm

theorem sameVerdict_iff_nestedLiteral : ⟨1, {}, 0⟩ ∈ (after literalHistory).engines ∧
    (SameVerdict ((after literalHistory).read ⟨1, {}, 0⟩ nestedLiteral) (Settings.read {} nestedLiteral) ↔
      (Settings.read {} nestedLiteral = .error tooDeep →
        (after literalHistory).read ⟨1, {}, 0⟩ nestedLiteral = .error tooDeep)) :=
  ⟨literalHistory_engine, (sameVerdict_iff literalHistory literalHistory_engine nestedLiteral).1⟩

/-- A literal that is known already is accepted where it would nest too deep. -/
theorem verdict_depends_on_history : ¬∀ (history : List Action) (e : Engine),
    e ∈ (after history).engines → ∀ text,
      SameVerdict ((after history).read e text) (e.settings.read text) := by
  intro independent
  have same := independent literalHistory ⟨1, {}, 0⟩ literalHistory_engine nestedLiteral
  obtain ⟨f, known⟩ := nestedLiteral_known
  rw [known, nestedLiteral_alone] at same
  cases same

/-! ## Meanings -/

/-- Where both accept a text, their formulas refer to the same names and evaluate to the same outcomes. -/
theorem evaluate_eq_alone (history : List Action) {e : Engine} (mem : e ∈ (after history).engines)
    {text : String} {f g : Formula} (cached : (after history).read e text = .ok f)
    (alone : e.settings.read text = .ok g) :
    f.references = g.references ∧ ∀ ctx, f.evaluate ctx = g.evaluate ctx := by
  obtain ⟨levels, -, -, step⟩ := (after_sound history).read_matches mem text
  rw [cached] at step
  obtain ⟨_, ⟨readBy, rfl⟩, found⟩ := step.of_ok
  have step' := e.settings.readTo_matches (maxNesting + 1) text
  rw [show e.settings.readTo (maxNesting + 1) text = .ok g from alone] at step'
  obtain ⟨_, ⟨readBy', rfl⟩, found'⟩ := step'.of_ok
  exact Formula.eq_of_bare_eq readBy readBy' (Direct.formula_ok_unique found found')

theorem evaluate_eq_alone_hit : ⟨1, {}, 0⟩ ∈ (after literalHistory).engines ∧
    ∃ f g, (after literalHistory).read ⟨1, {}, 0⟩ (String.ofList smallLiteral) = .ok f ∧
      Settings.read {} (String.ofList smallLiteral) = .ok g ∧
      f.references = g.references ∧ ∀ ctx, f.evaluate ctx = g.evaluate ctx := by
  obtain ⟨f, cached⟩ : ∃ f, (after literalHistory).read ⟨1, {}, 0⟩ (String.ofList smallLiteral) = .ok f := by
    refine exists_ok_of_map ?_
    rw [read_eq, literalHistory_cache]
    decide +kernel
  obtain ⟨g, alone⟩ : ∃ g, Settings.read {} (String.ofList smallLiteral) = .ok g :=
    exists_ok_of_map (by decide +kernel)
  exact ⟨literalHistory_engine, f, g, cached, alone,
    evaluate_eq_alone literalHistory literalHistory_engine cached alone⟩

end Session

end ExactFormula
