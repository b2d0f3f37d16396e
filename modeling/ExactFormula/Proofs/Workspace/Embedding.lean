import ExactFormula.Proofs.Relaxed.Embedding
import ExactFormula.Proofs.Workspace.Isolation

/-!
A formula means the same as a value of an embedded object as it means on its own.
-/

namespace ExactFormula

open Relaxed (Embeddable embedded)

namespace Direct

variable {s : Settings} {n : Nat} {text : List Char} {f : Formula}

theorem solid_of_formula (h : formula s n text = .ok f) (trimmed : Text.trim text = text) : Text.Solid text := by
  refine ⟨trimmed, ?_⟩
  rintro rfl
  cases n with
  | zero => cases h
  | succ n => cases h

theorem undated_of_formula (h : formula s n text = .ok f) (tidy : Tidy false text) (simple : Text.Simple text)
    (solid : Text.Solid text) (undated : Relaxed.isDate text = false) : Relaxed.bareDate? (text ++ ['}']) = none := by
  cases n with
  | zero => cases h
  | succ n =>
    obtain ⟨pieces, added, -⟩ := formula_ok h
    have lexed := Lexeme.lexed_lexemes (matched_of_addAll added)
    exact Relaxed.bareDate?_eq_none lexed (ordered_of_formula h) tidy simple solid undated []

theorem ofJson_embedded {nested : Nested} (h : nested text = .ok f) :
    ofJson nested (.object [("k", .string (String.ofList (literalMarker ++ text)))]) =
      .ok (.object [("k", .formula f (String.ofList text))]) := by
  have marked : Literal.marked? (String.ofList (literalMarker ++ text)) = some text := by
    rw [Literal.marked?, String.toList_ofList, if_pos (List.isPrefixOf_iff_prefix.2 (List.prefix_append _ _)),
      List.drop_left]
  rw [ofJson, ofMembers, ofJson, marked, ofMembers]
  simp only [ofMarked, h]
  rfl

/-- The object is read one level above its formula. -/
theorem formula_embedded (embeddable : Embeddable s.wrapCalls text)
    (commaless : ∀ word, .word word ∈ lexemes text → ',' ∉ word) (h : formula s n text = .ok f) :
    ∃ g, formula s (n + 1) (embedded text) = .ok g ∧ ∀ ctx, g.evaluate ctx =
      ((f.evaluate ctx).orText (String.ofList text)).map fun v => .object [("k", v)] := by
  have tidy : Tidy false text := tidy_of_formula embeddable.simple (fun _ => commaless) h
  have solid := solid_of_formula h embeddable.trimmed
  have undated := undated_of_formula h tidy embeddable.simple solid embeddable.date
  have passed : Lexeme.Passed ('k' :: ':' :: ' ' :: text) :=
    .cons (by decide) (.cons (by decide) (.cons (by decide) tidy.passed))
  obtain ⟨g, read, same⟩ := formula_braces passed (embeddable.parseChars_eq tidy solid undated) (ofJson_embedded h)
  refine ⟨g, read, fun ctx => ?_⟩
  rw [same ctx, Literal.evaluate, Literal.evaluateMembers, Literal.evaluate, Literal.evaluateMembers]
  cases (f.evaluate ctx).orText (String.ofList text) <;> rfl

end Direct

namespace Session

/-- A formula evaluates as a value of an object to what it evaluates to on its own. -/
theorem read_embedded (history : List Action) {e : Engine} (mem : e ∈ (after history).engines) {text : String}
    (embeddable : Embeddable e.settings.wrapCalls text.toList)
    (commaless : ∀ word, .word word ∈ lexemes text.toList → ',' ∉ word) {f : Formula}
    (read : (after history).read e text = .ok f) (shallow : f.depth < maxNesting) :
    ∃ g, (after history).read e ("\x7bk: " ++ text ++ "\x7d") = .ok g ∧
      ∀ ctx v, f.evaluate ctx = .ok v → g.evaluate ctx = .ok (.object [("k", v)]) := by
  obtain ⟨levels, -, -, step⟩ := (after_sound history).read_matches mem text
  rw [read] at step
  obtain ⟨_, ⟨readBy, rfl⟩, found⟩ := step.of_ok
  have chars : ("\x7bk: " ++ text ++ "\x7d").toList = embedded text.toList := by
    rw [String.toList_append, String.toList_append]
    rfl
  have direct (n : Nat) (le : maxNesting ≤ n) :
      ∃ g, Direct.formula e.settings (n + 1) ("\x7bk: " ++ text ++ "\x7d").toList = .ok g ∧
        ∀ ctx, g.evaluate ctx = ((f.evaluate ctx).orText text).map fun v => .object [("k", v)] := by
    have known : Direct.formula e.settings n text.toList = .ok f.bare :=
      Direct.formula_readsTo n levels _ _ embeddable.simple found (by rw [f.depth_bare]; omega)
    obtain ⟨g, deeper, same⟩ := Direct.formula_embedded embeddable commaless known
    refine ⟨g, by rwa [chars], fun ctx => ?_⟩
    rw [same ctx, Formula.evaluate_bare e.settings ctx f readBy, String.ofList_toList]
  obtain ⟨g, read', same⟩ := read_of_direct history mem direct
  refine ⟨g, read', fun ctx v evaluated => ?_⟩
  rw [same ctx, evaluated]
  rfl

/-- What is known of a formula that has been read, by its depth and by what it shows. -/
theorem exists_of_known {r : Except FormulaError Formula} {depth : Nat} {shown : String}
    (h : r.map (fun f => (f.depth, (f.evaluate .empty).map Value.display)) = .ok (depth, .ok shown)) :
    ∃ f v, r = .ok f ∧ f.depth = depth ∧ f.evaluate .empty = .ok v ∧ v.display = shown := by
  cases r with
  | error e => cases h
  | ok f =>
    have same : f.depth = depth := congrArg Prod.fst (Except.ok.inj h)
    have display : (f.evaluate .empty).map Value.display = .ok shown := congrArg Prod.snd (Except.ok.inj h)
    cases evaluated : f.evaluate .empty with
    | error e => rw [evaluated] at display; cases display
    | ok v =>
      rw [evaluated] at display
      exact ⟨f, v, rfl, same, evaluated, Except.ok.inj display⟩

theorem read_embedded_call : ⟨1, {}, 0⟩ ∈ (after literalHistory).engines ∧
    Embeddable true "max(1, 2) - '3'".toList ∧ (∀ word, .word word ∈ lexemes "max(1, 2) - '3'".toList → ',' ∉ word) ∧
    ∃ f, (after literalHistory).read ⟨1, {}, 0⟩ "max(1, 2) - '3'" = .ok f ∧ f.depth < maxNesting ∧
      ∃ v, f.evaluate .empty = .ok v ∧
        ∃ g, (after literalHistory).read ⟨1, {}, 0⟩ ("\x7bk: " ++ "max(1, 2) - '3'" ++ "\x7d") = .ok g ∧
          g.evaluate .empty = .ok (.object [("k", v)]) := by
  have embeddable : Embeddable true "max(1, 2) - '3'".toList := {
    trimmed := by decide
    simple := by simp [Text.Simple]
    colon := by decide
    numeral := by decide
    date := by decide
    word := by decide
    quotes := fun _ => ⟨rfl, [], 'm', ['a', 'x'], "1, 2) - '3'".toList, by decide, .nil, rfl, List.all_eq_true.1 rfl⟩ }
  have commaless : ∀ word, .word word ∈ lexemes "max(1, 2) - '3'".toList → ',' ∉ word := by
    have known : lexemes "max(1, 2) - '3'".toList =
      [.word "max".toList, .parens "1, 2".toList, .operator ['-'], .quoted ['3']] := by decide +kernel
    rw [known]
    simp
  have known : ((after literalHistory).read ⟨1, {}, 0⟩ "max(1, 2) - '3'").map
      (fun f => (f.depth, (f.evaluate .empty).map Value.display)) = .ok (1, .ok "-1") := by
    rw [read_eq, literalHistory_cache]
    decide +kernel
  obtain ⟨f, v, read, depth, evaluated, -⟩ := exists_of_known known
  have shallow : f.depth < maxNesting := by
    rw [depth]
    decide
  obtain ⟨g, read', same⟩ := read_embedded literalHistory literalHistory_engine embeddable commaless read shallow
  exact ⟨literalHistory_engine, embeddable, commaless, f, read, shallow, v, evaluated, g, read', same _ v evaluated⟩

/-! ### Names with commas -/

/-- A constant may have any name, one with a comma as well. -/
def commaSettings : Settings := { constants := [("a,b", .number (.ofInt 5))] }

def commaHistory : List Action := [.addCache 1, .addEngine commaSettings 0, .read 0 "a,b"]

theorem commaHistory_after : after commaHistory =
    ⟨⟨[((ReadingEnv.read ⟨commaSettings, 1⟩ "a,b").run (Cache.empty 0 1)).2], 2⟩, [⟨1, commaSettings, 0⟩]⟩ :=
  after_reading (by simp [Settings.invalidConstant?, commaSettings, Entries.names, Value.isScalar]) 1 _

theorem commaHistory_engine : ⟨1, commaSettings, 0⟩ ∈ (after commaHistory).engines := by
  rw [commaHistory_after]
  exact List.mem_singleton_self _

/-- On its own the name is its constant, as a value the literal around it is text. -/
theorem commaName_known :
    ((after commaHistory).read ⟨1, commaSettings, 0⟩ "a,b").map
      (fun f => (f.depth, (f.evaluate .empty).map Value.display)) = .ok (0, .ok "5") ∧
    ((after commaHistory).read ⟨1, commaSettings, 0⟩ "\x7bk: a,b\x7d").map
      (fun f => (f.depth, (f.evaluate .empty).map Value.display)) = .ok (0, .ok "\"\x7bk: a,b\x7d\"") := by
  rw [read_eq, read_eq, commaHistory_after]
  decide +kernel

theorem commaName_embeddable : Embeddable true "a,b".toList where
  trimmed := by decide
  simple := by simp [Text.Simple]
  colon := by decide
  numeral := by decide
  date := by decide
  word := by decide
  quotes := by simp [Text.isQuote]

/-- Such a name is a formula on its own, but as a value of an object it ends at its comma. -/
theorem comma_ends_value : ¬∀ (history : List Action) (e : Engine), e ∈ (after history).engines →
    e.settings.reference = none → ∀ (text : String) (f : Formula), (∀ c ∈ text.toList, c.toNat < 0x80) →
      Embeddable e.settings.wrapCalls text.toList → (after history).read e text = .ok f → f.depth < maxNesting →
      ∀ ctx v, f.evaluate ctx = .ok v → ∃ g, (after history).read e ("\x7bk: " ++ text ++ "\x7d") = .ok g ∧
        g.evaluate ctx = .ok (.object [("k", v)]) := by
  intro embedded
  obtain ⟨f, v, read, depth, evaluated, -⟩ := exists_of_known commaName_known.1
  obtain ⟨g, read', evaluated'⟩ := embedded commaHistory ⟨1, commaSettings, 0⟩ commaHistory_engine rfl "a,b" f
    (by simp) commaName_embeddable read (by rw [depth]; decide) .empty v evaluated
  obtain ⟨g', v', read'', -, evaluated'', shown⟩ := exists_of_known commaName_known.2
  have text : "\x7bk: " ++ "a,b" ++ "\x7d" = "\x7bk: a,b\x7d" := by decide
  rw [text, read''] at read'
  cases read'
  rw [evaluated''] at evaluated'
  cases evaluated'
  have first := congrArg (fun s => s.toList.head?) shown
  rw [Value.display] at first
  simp [Value.chars] at first

end Session

end ExactFormula
