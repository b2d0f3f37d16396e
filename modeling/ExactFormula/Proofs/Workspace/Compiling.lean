import ExactFormula.Proofs.Workspace.Isolation
import ExactFormula.Proofs.Workspace.Visits

/-!
Plans are invisible, but for what the caches have been through. A plan runs to what its formula is interpreted to, and
engines that differ in nothing but whether they make plans accept the same texts, which evaluate to the same outcomes,
unless one of them knows the literals of a text that nests too deep and the other one does not.
-/

namespace ExactFormula

theorem Settings.invalidConstant?_compiling (s : Settings) (compile : Bool) :
    (s.compiling compile).invalidConstant? = s.invalidConstant? := rfl

def Engine.compiling (e : Engine) (compile : Bool) : Engine :=
  { e with settings := e.settings.compiling compile }

def Action.compiling (compile : Bool) : Action → Action
  | .addCache capacity => .addCache capacity
  | .addEngine settings cache => .addEngine (settings.compiling compile) cache
  | .read engine text => .read engine text
  | .clearCache cache => .clearCache cache

namespace Session

/-! ## The same history, with plans or without -/

/-- The sessions have the same engines, but for plans. -/
structure Mirrors (s s' : Session) : Prop where
  engines : s.engines.map (·.compiling true) = s'.engines.map (·.compiling true)
  nextId : s.workspace.nextId = s'.workspace.nextId
  caches : s.workspace.caches.length = s'.workspace.caches.length

namespace Mirrors

variable {s s' : Session}

/-- The engines at a place are one but for plans, or there is none. -/
theorem engineAt (h : s.Mirrors s') (i : Nat) : s.engines[i]? = none ∧ s'.engines[i]? = none ∨
    ∃ e e', s.engines[i]? = some e ∧ s'.engines[i]? = some e' ∧ e.compiling true = e'.compiling true := by
  have same := congrArg (·[i]?) h.engines
  simp only [List.getElem?_map] at same
  cases found : s.engines[i]? with
  | none =>
    cases found' : s'.engines[i]? with
    | none => exact .inl ⟨rfl, rfl⟩
    | some e' => rw [found, found'] at same; cases same
  | some e =>
    cases found' : s'.engines[i]? with
    | none => rw [found, found'] at same; cases same
    | some e' =>
      rw [found, found'] at same
      exact .inr ⟨e, e', rfl, rfl, Option.some.inj same⟩

theorem addEngine (h : s.Mirrors s') (settings : Settings) (compile : Bool) (cache : Nat) :
    Mirrors (s.step (.addEngine settings cache)) (s'.step (.addEngine (settings.compiling compile) cache)) := by
  simp only [Session.step, Workspace.addEngine, Settings.invalidConstant?_compiling]
  cases settings.invalidConstant? with
  | some name => exact h
  | none =>
    refine ⟨?_, congrArg (· + 1) h.nextId, h.caches⟩
    show (s.engines ++ [_]).map _ = (s'.engines ++ [_]).map _
    rw [List.map_append, List.map_append, h.engines, h.nextId]
    rfl

theorem set (h : s.Mirrors s') (c c' : Cache) (i j : Nat) :
    Mirrors ⟨{ s.workspace with caches := s.workspace.caches.set i c }, s.engines⟩
      ⟨{ s'.workspace with caches := s'.workspace.caches.set j c' }, s'.engines⟩ where
  engines := h.engines
  nextId := h.nextId
  caches := by
    show (s.workspace.caches.set i c).length = (s'.workspace.caches.set j c').length
    rw [List.length_set, List.length_set, h.caches]

/-- An action and its mirror are one visit but for plans, and leave mirrored sessions. -/
theorem step (h : s.Mirrors s') {a a' : Action} (same : a.compiling true = a'.compiling true) (i : Nat) :
    (s.visit? i a).toList.map (Visit.named id) = (s'.visit? i a').toList.map (Visit.named id) ∧
      Mirrors (s.step a) (s'.step a') := by
  cases a with
  | addCache capacity =>
    cases a' with
    | addCache capacity' =>
      cases same
      refine ⟨?_, h.engines, h.nextId, ?_⟩
      · simp only [visit?, h.caches]
      · show (s.workspace.caches ++ [_]).length = (s'.workspace.caches ++ [_]).length
        rw [List.length_append, List.length_append, h.caches]
    | _ => cases same
  | addEngine settings cache =>
    cases a' with
    | addEngine settings' cache' =>
      obtain ⟨alike, rfl⟩ := Action.addEngine.inj same
      rw [Settings.eq_compiling alike]
      exact ⟨rfl, h.addEngine settings _ cache⟩
    | _ => cases same
  | read engine text =>
    cases a' with
    | read engine' text' =>
      cases same
      simp only [visit?, Session.step]
      rcases h.engineAt engine with ⟨none, none'⟩ | ⟨e, e', found, found', alike⟩
      · rw [none, none']
        exact ⟨rfl, h⟩
      · rw [found, found']
        obtain ⟨id, settings, cache⟩ := e
        obtain ⟨id', settings', cache'⟩ := e'
        obtain ⟨rfl, settings, rfl⟩ := Engine.mk.inj alike
        refine ⟨?_, h.set ..⟩
        dsimp only
        rw [h.caches]
        split
        · exact congrArg (fun settings => [Visit.reading id settings text]) settings
        · rfl
    | _ => cases same
  | clearCache cache =>
    cases a' with
    | clearCache cache' =>
      cases same
      refine ⟨?_, h.set ..⟩
      simp only [visit?, h.caches]
    | _ => cases same

theorem run (h : s.Mirrors s') {history history' : List Action}
    (same : history.map (Action.compiling true) = history'.map (Action.compiling true)) (i : Nat) :
    (visits i s history).map (Visit.named id) = (visits i s' history').map (Visit.named id) ∧
      Mirrors (s.run history) (s'.run history') := by
  induction history generalizing s s' history' with
  | nil =>
    cases history' with
    | nil => exact ⟨rfl, h⟩
    | cons => cases same
  | cons a history ih =>
    cases history' with
    | nil => cases same
    | cons a' history' =>
      obtain ⟨first, others⟩ := List.cons.inj same
      obtain ⟨visited, mirrored⟩ := h.step first i
      obtain ⟨later, ends⟩ := ih mirrored others
      refine ⟨?_, ends⟩
      rw [visits, visits, List.map_append, List.map_append, visited, later]

/-- Engines of one identity are one but for plans. -/
theorem engine (h : s.Mirrors s') (sound : s'.Sound) {e e' : Engine} (mem : e ∈ s.engines) (mem' : e' ∈ s'.engines)
    (id : e.id = e'.id) : e.compiling true = e'.compiling true := by
  have twin : e.compiling true ∈ s'.engines.map (·.compiling true) := by
    rw [← h.engines]
    exact List.mem_map_of_mem mem
  obtain ⟨e'', mem'', same⟩ := List.mem_map.1 twin
  have here := find?_of_distinct sound.distinct mem'
  have there := find?_of_distinct sound.distinct mem''
  have id'' : e''.id = e'.id := (congrArg Engine.id same).trans id
  rw [id'', here, Option.some.injEq] at there
  rw [← same, there]

end Mirrors

theorem after_mirrors {history history' : List Action}
    (same : history.map (Action.compiling true) = history'.map (Action.compiling true)) (i : Nat) :
    (past i history).map (Visit.named id) = (past i history').map (Visit.named id) ∧
      (after history).Mirrors (after history') :=
  Mirrors.run ⟨rfl, rfl, rfl⟩ same i

/-! ## Plans -/

/-- Engines whose settings differ in nothing but plans give one verdict exactly when both refuse a text as too deep or
neither does. -/
theorem sameVerdict_twins {history history' : List Action} {e e' : Engine}
    (mem : e ∈ (after history).engines) (mem' : e' ∈ (after history').engines)
    (twins : e.settings.compiling true = e'.settings.compiling true) (text : String) :
    SameVerdict ((after history).read e text) ((after history').read e' text) ↔
      ((after history).read e text = .error tooDeep ↔ (after history').read e' text = .error tooDeep) := by
  obtain ⟨levels, -, -, step⟩ := (after_sound history).read_matches mem text
  obtain ⟨levels', -, -, step'⟩ := (after_sound history').read_matches mem' text
  rw [Settings.eq_compiling twins, Direct.formula_compiling] at step'
  refine ⟨fun same => ⟨fun deep => ?_, fun deep => ?_⟩, fun both => ?_⟩
  · exact SameVerdict.eq_error (deep ▸ same.symm)
  · exact SameVerdict.eq_error (deep ▸ same)
  · have shallow (deep : (after history).read e text = .error tooDeep ∨
        (after history').read e' text = .error tooDeep) :
        SameVerdict ((after history).read e text) ((after history').read e' text) := by
      have first := deep.elim id both.2
      rw [first, both.1 first]
      rfl
    rcases Nat.le_total levels levels' with le | le
    · rcases Direct.formula_approximates le text.toList with deep | same
      · rw [deep] at step
        exact shallow (.inl step.sameVerdict.eq_error)
      · rw [same] at step
        exact step.sameVerdict.trans step'.sameVerdict.symm
    · rcases Direct.formula_approximates le text.toList with deep | same
      · rw [deep] at step'
        exact shallow (.inr step'.sameVerdict.eq_error)
      · rw [same] at step'
        exact step.sameVerdict.trans step'.sameVerdict.symm

/-- A text that is not too deep on its own is too deep for neither. -/
theorem sameVerdict_of_shallow {history history' : List Action} {e e' : Engine}
    (mem : e ∈ (after history).engines) (mem' : e' ∈ (after history').engines)
    (twins : e.settings.compiling true = e'.settings.compiling true) {text : String}
    (shallow : e.settings.read text ≠ .error tooDeep) :
    SameVerdict ((after history).read e text) ((after history').read e' text) := by
  obtain ⟨levels, le, -, step⟩ := (after_sound history).read_matches mem text
  obtain ⟨levels', le', -, step'⟩ := (after_sound history').read_matches mem' text
  rw [Settings.eq_compiling twins, Direct.formula_compiling] at step'
  have alone := e.settings.readTo_matches (maxNesting + 1) text
  have settled {levels : Nat} (le : maxNesting + 1 ≤ levels) :
      Direct.formula e.settings levels text.toList = Direct.formula e.settings (maxNesting + 1) text.toList := by
    rcases Direct.formula_approximates le text.toList with deep | same
    · rw [deep] at alone
      exact absurd alone.sameVerdict.eq_error shallow
    · exact same.symm
  rw [settled le] at step
  rw [settled le'] at step'
  exact step.sameVerdict.trans step'.sameVerdict.symm

/-- A plan runs to what its formula is interpreted to, which is what direct recursion over the formula gives, so that
the first error from left to right comes out. Engines that differ in nothing but plans give formulas with the same
outcomes, and disagree about no text but one that is too deep for one of them and not for the other. They agree about
every text that is not too deep on its own, and about all texts when their caches have been through the same, whatever
their identities, so that nothing depends on whether the engines of a history make plans. -/
theorem plans_invisible {history history' : List Action} {e e' : Engine}
    (mem : e ∈ (after history).engines) (mem' : e' ∈ (after history').engines)
    (twins : e.settings.compiling true = e'.settings.compiling true) (text : String) :
    (∀ f p, (after history).read e text = .ok f → f.plan = some p → ∀ ctx,
      p.run ctx (Literal.evaluateAll ctx p.trees) = f.interpret ctx ∧ f.interpret ctx =
        ((Tree.evaluator f.numeric).fold (Part.evaluateAll ctx f.parts)).getD (.ok .null)) ∧
    (∀ f f', (after history).read e text = .ok f → (after history').read e' text = .ok f' →
      ∀ ctx, f.evaluate ctx = f'.evaluate ctx) ∧
    (SameVerdict ((after history).read e text) ((after history').read e' text) ↔
      ((after history).read e text = .error tooDeep ↔ (after history').read e' text = .error tooDeep)) ∧
    (e.settings.read text ≠ .error tooDeep →
      SameVerdict ((after history).read e text) ((after history').read e' text)) ∧
    (∀ ρ ρ', Named ρ ρ' e.id e'.id →
      (past e.cache history).map (Visit.named ρ) = (past e'.cache history').map (Visit.named ρ') →
      SameVerdict ((after history).read e text) ((after history').read e' text)) ∧
    (history.map (Action.compiling true) = history'.map (Action.compiling true) → e.id = e'.id →
      SameVerdict ((after history).read e text) ((after history').read e' text)) := by
  obtain ⟨levels, -, -, step⟩ := (after_sound history).read_matches mem text
  obtain ⟨levels', -, -, step'⟩ := (after_sound history').read_matches mem' text
  rw [Settings.eq_compiling twins, Direct.formula_compiling] at step'
  refine ⟨fun f p read plan ctx => ?_, fun f f' read read' => ?_, sameVerdict_twins mem mem' twins text,
    sameVerdict_of_shallow mem mem' twins, fun ρ ρ' named same => (read_alike named twins same text).sameVerdict,
    fun same ids => ?_⟩
  · rw [read] at step
    obtain ⟨_, ⟨readBy, -⟩, -⟩ := step.of_ok
    rw [← Formula.evaluate_eq_run plan]
    exact ⟨readBy.evaluate_eq ctx, interpret_eq_evaluate _⟩
  · rw [read] at step
    rw [read'] at step'
    obtain ⟨_, ⟨readBy, rfl⟩, found⟩ := step.of_ok
    obtain ⟨_, ⟨readBy', rfl⟩, found'⟩ := step'.of_ok
    exact (Formula.eq_of_bare_eq readBy readBy' (Direct.formula_ok_unique found found')).2
  · obtain ⟨visited, mirrors⟩ := after_mirrors same e.cache
    have named : Named id id e.id e'.id := ⟨Function.injective_id, Function.injective_id, ids⟩
    have cache : (e.compiling true).cache = (e'.compiling true).cache :=
      congrArg Engine.cache (mirrors.engine (after_sound history') mem mem' ids)
    exact (read_alike named twins (visited.trans (cache ▸ rfl)) text).sameVerdict

/-! ## Two engines of one session -/

section Pair

/-- Two engines on caches of their own. -/
def pair (settings settings' : Settings) (capacity : Nat) : List Action :=
  [.addCache capacity, .addCache capacity, .addEngine settings 0, .addEngine settings' 1]

variable {settings settings' : Settings} (valid : settings.invalidConstant? = none)
  (valid' : settings'.invalidConstant? = none) (capacity : Nat) (text : String)

include valid valid'

theorem after_first : after (pair settings settings' capacity ++ [.read 0 text]) =
    ⟨⟨[((ReadingEnv.read ⟨settings, 1⟩ text).run (Cache.empty 0 capacity)).2, .empty 1 capacity], 3⟩,
      [⟨1, settings, 0⟩, ⟨2, settings', 1⟩]⟩ := by
  simp only [pair, List.cons_append, List.nil_append, after, run, List.foldl, step, Workspace.addCache,
    Workspace.addEngine, valid, valid']
  rfl

theorem after_both : after (pair settings settings' capacity ++ [.read 0 text, .read 1 text]) =
    ⟨⟨[((ReadingEnv.read ⟨settings, 1⟩ text).run (Cache.empty 0 capacity)).2,
        ((ReadingEnv.read ⟨settings', 2⟩ text).run (Cache.empty 1 capacity)).2], 3⟩,
      [⟨1, settings, 0⟩, ⟨2, settings', 1⟩]⟩ := by
  simp only [pair, List.cons_append, List.nil_append, after, run, List.foldl, step, Workspace.addCache,
    Workspace.addEngine, valid, valid']
  rfl

/-- Each cache has been through the same, for the engine that uses it. -/
theorem past_both :
    past 0 (pair settings settings' capacity ++ [.read 0 text, .read 1 text]) =
      [.making capacity, .reading 1 settings text] ∧
    past 1 (pair settings settings' capacity ++ [.read 0 text, .read 1 text]) =
      [.making capacity, .reading 2 settings' text] := by
  simp only [pair, List.cons_append, List.nil_append, past, visits, visit?, step, Workspace.addCache,
    Workspace.addEngine, valid, valid']
  exact ⟨rfl, rfl⟩

end Pair

theorem planless_valid : ({ compile := false } : Settings).invalidConstant? = none := default_valid

/-- The first one of two engines has read the literal, and the second one makes no plans. -/
def besideHistory : List Action :=
  pair {} { compile := false } 1 ++ [.read 0 (String.ofList smallLiteral)]

/-- Both have read it. -/
def besidesHistory : List Action :=
  pair {} { compile := false } 1 ++ [.read 0 (String.ofList smallLiteral), .read 1 (String.ofList smallLiteral)]

/-- A sum with the literal that has been read. -/
def literalSum : String := String.ofList (smallLiteral ++ ['+', '1'])

theorem plans_invisible_literalSum : ⟨1, {}, 0⟩ ∈ (after besidesHistory).engines ∧
    ⟨2, { compile := false }, 1⟩ ∈ (after besidesHistory).engines ∧ Named (· + 1) id 1 2 ∧
    (past 0 besidesHistory).map (Visit.named (· + 1)) = (past 1 besidesHistory).map (Visit.named id) ∧
    ∃ f p f', (after besidesHistory).read ⟨1, {}, 0⟩ literalSum = .ok f ∧ f.plan = some p ∧
      (after besidesHistory).read ⟨2, { compile := false }, 1⟩ literalSum = .ok f' ∧
      ∀ ctx, p.run ctx (Literal.evaluateAll ctx p.trees) = f.interpret ctx ∧
        f.evaluate ctx = f'.evaluate ctx := by
  have mem : ⟨1, {}, 0⟩ ∈ (after besidesHistory).engines := by
    rw [besidesHistory, after_both default_valid planless_valid]
    exact List.mem_cons_self
  have mem' : ⟨2, { compile := false }, 1⟩ ∈ (after besidesHistory).engines := by
    rw [besidesHistory, after_both default_valid planless_valid]
    exact List.mem_cons_of_mem _ List.mem_cons_self
  have named : Named (· + 1) id 1 2 := ⟨Nat.succ_injective, Function.injective_id, rfl⟩
  have same : (past 0 besidesHistory).map (Visit.named (· + 1)) = (past 1 besidesHistory).map (Visit.named id) := by
    obtain ⟨first, second⟩ := past_both default_valid planless_valid 1 (String.ofList smallLiteral)
    rw [besidesHistory, first, second]
    rfl
  obtain ⟨runs, outcomes, -, -, verdicts, -⟩ := plans_invisible mem mem' rfl literalSum
  have planned : ((after besidesHistory).read ⟨1, {}, 0⟩ literalSum).map (·.plan.isSome) = .ok true := by
    rw [read_eq, besidesHistory, after_both default_valid planless_valid]
    decide +kernel
  cases found : (after besidesHistory).read ⟨1, {}, 0⟩ literalSum with
  | error e => rw [found] at planned; cases planned
  | ok f =>
    rw [found] at planned
    obtain ⟨p, plan⟩ := Option.isSome_iff_exists.1 (Except.ok.inj planned)
    have verdict := verdicts _ _ named same
    rw [found] at verdict
    obtain ⟨f', found'⟩ := exists_ok_of_map verdict.symm
    exact ⟨mem, mem', named, same, f, p, f', rfl, plan, found', fun ctx =>
      ⟨(runs f p found plan ctx).1, outcomes f f' found found' ctx⟩⟩

/-- The first engine accepts the literal where it nests too deep, and the second one does not. -/
theorem accepted_beside_planless : ¬∀ (history : List Action) (e e' : Engine),
    e ∈ (after history).engines → e' ∈ (after history).engines →
      e.settings.compiling true = e'.settings.compiling true →
      ∀ text, SameVerdict ((after history).read e text) ((after history).read e' text) := by
  intro agree
  have mem : ⟨1, {}, 0⟩ ∈ (after besideHistory).engines := by
    rw [besideHistory, after_first default_valid planless_valid]
    exact List.mem_cons_self
  have mem' : ⟨2, { compile := false }, 1⟩ ∈ (after besideHistory).engines := by
    rw [besideHistory, after_first default_valid planless_valid]
    exact List.mem_cons_of_mem _ List.mem_cons_self
  have same := agree besideHistory ⟨1, {}, 0⟩ ⟨2, { compile := false }, 1⟩ mem mem' rfl nestedLiteral
  have known : (after besideHistory).read ⟨1, {}, 0⟩ nestedLiteral =
      (after literalHistory).read ⟨1, {}, 0⟩ nestedLiteral := by
    rw [read_eq, read_eq, literalHistory_cache, besideHistory, after_first default_valid planless_valid]
    rfl
  have refused : (after besideHistory).read ⟨2, { compile := false }, 1⟩ nestedLiteral = .error tooDeep := by
    obtain ⟨planned, alone⟩ := readFormula_parenthesized ⟨{ compile := false }, 2⟩ smallLiteral_enclosed (by decide)
      maxNesting 1 true (Cache.empty 1 1)
    refine SameVerdict.eq_error ?_
    rw [read_eq, ReadingEnv.read, nestedLiteral, String.toList_ofList, besideHistory,
      after_first default_valid planless_valid]
    refine Eq.trans alone ?_
    cases planned <;> decide
  obtain ⟨f, accepted⟩ := nestedLiteral_known
  rw [known, accepted, refused] at same
  cases same

end Session

end ExactFormula
