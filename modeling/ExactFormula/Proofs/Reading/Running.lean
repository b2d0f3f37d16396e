import ExactFormula.Formula.Reading

/-!
Readings run on a cache. A look-up that hits returns what is stored; one that misses builds, and stores
what it built unless that failed.
-/

namespace ExactFormula

variable {ε δ α β : Type}

namespace Caching

@[simp] theorem run_lift (r : Except ε α) (c : Cache) : (liftM r : Caching ε α).run c = (r, c) := rfl

@[simp] theorem run_modifyGet (f : Cache → α × Cache) (c : Cache) :
    (modifyGet f : Caching ε α).run c = (.ok (f c).1, (f c).2) := rfl

theorem run_bind (x : Caching ε α) (f : α → Caching ε β) (c : Cache) :
    (x >>= f).run c = match x.run c with
      | (.ok a, c') => (f a).run c'
      | (.error e, c') => (.error e, c') := by
  show (ExceptT.bindCont f (x.run c).1).run (x.run c).2 = _
  rcases x.run c with ⟨_ | _, _⟩ <;> rfl

theorem run_bind_ok {x : Caching ε α} {f : α → Caching ε β} {c c' : Cache} {b : β}
    (h : (x >>= f).run c = (.ok b, c')) : ∃ a c₁, x.run c = (.ok a, c₁) ∧ (f a).run c₁ = (.ok b, c') := by
  rw [run_bind] at h
  rcases ran : x.run c with ⟨e | a, c₁⟩
  · rw [ran] at h
    cases h
  · rw [ran] at h
    exact ⟨a, c₁, rfl, h⟩

@[simp] theorem run_outcome (x : Caching ε α) (c : Cache) :
    (Caching.outcome x : Caching δ (Except ε α)).run c = (.ok (x.run c).1, (x.run c).2) := rfl

theorem run_adapt (f : ε → δ) (x : Caching ε α) (c : Cache) :
    (ExceptT.adapt f x : Caching δ α).run c = ((x.run c).1.mapError f, (x.run c).2) := rfl

end Caching

/-! ## Look-ups -/

theorem Cache.run_literal (id : Nat) (source : List Char) (build : List Char → Caching ε Literal)
    (c : Cache) : (Cache.literal id source build).run c =
      match c.findLiteral (id, String.ofList (Text.trim source)) with
      | (some found, c') => (.ok found, c')
      | (none, c') =>
        match (build (Text.trim source)).run c' with
        | (.ok tree, c'') =>
          (.ok (c''.storeLiteral (id, String.ofList (Text.trim source)) tree).1,
            (c''.storeLiteral (id, String.ofList (Text.trim source)) tree).2)
        | (.error e, c'') => (.error e, c'') := by
  simp only [Cache.literal, Caching.run_bind, Caching.run_modifyGet]
  rcases c.findLiteral (id, String.ofList (Text.trim source)) with ⟨_ | found, c'⟩
  · simp only [Caching.run_bind]
    rcases (build (Text.trim source)).run c' with ⟨_ | _, _⟩ <;> rfl
  · rfl

theorem Cache.run_resolver (id : Nat) (name : String) (build : String → Except ε Resolver) (c : Cache) :
    (Cache.resolver id name build).run c =
      match c.findResolver (id, name) with
      | (some found, c') => (.ok found, c')
      | (none, c') =>
        match build name with
        | .ok resolver => (.ok resolver, (c'.storeResolver (id, name) resolver).2)
        | .error e => (.error e, c') := by
  simp only [Cache.resolver, Caching.run_bind, Caching.run_modifyGet]
  rcases c.findResolver (id, name) with ⟨_ | found, c'⟩
  · simp only [Caching.run_bind, Caching.run_lift]
    cases build name <;> rfl
  · rfl

/-- An embedded literal comes from the cache, or is built and stored, or stays text. -/
theorem run_embeddedLiteral (env : ReadingEnv) (nested : NestedReader) (source : List Char) (c : Cache) :
    (embeddedLiteral env nested source).run c =
      match c.findLiteral (env.id, String.ofList (Text.trim source)) with
      | (some found, c') => (.ok (.literal found.1 found.2), c')
      | (none, c') =>
        match Relaxed.parseChars literalMarker env.settings.wrapCalls (Text.trim source) with
        | .error _ => (.ok (.text (String.ofList (Text.trim source))), c')
        | .ok json =>
          match (Literal.ofJson (nested env.settings.compile) json).run c' with
          | (.ok tree, c'') =>
            (.ok (.literal (c''.label, c''.built) tree),
              (c''.storeLiteral (env.id, String.ofList (Text.trim source)) tree).2)
          | (.error e, c'') => (.error e, c'') := by
  simp only [embeddedLiteral, Caching.run_bind, Caching.run_outcome, Cache.run_literal, Literal.build]
  rcases c.findLiteral (env.id, String.ofList (Text.trim source)) with ⟨_ | found, c'⟩
  · dsimp only
    cases Relaxed.parseChars literalMarker env.settings.wrapCalls (Text.trim source) with
    | error e => rfl
    | ok json =>
      simp only [Caching.run_adapt]
      rcases (Literal.ofJson (nested env.settings.compile) json).run c' with ⟨_ | _, _⟩ <;> rfl
  · rfl

/-! ## Plans -/

/-- A formula that is read with a plan has the one of its parts, unless it is a single value. -/
theorem plan_of_readFormula {env : ReadingEnv} {levels : Nat} {planned : Bool} {text : List Char} {c c' : Cache}
    {f : Formula} (ran : (readFormula env levels planned text).run c = (.ok f, c')) :
    f.plan = if planned && env.settings.compile && f.single.isNone then
      Plan.ofParts? env.settings.numeric f.parts else none := by
  cases levels with
  | zero => cases ran
  | succ levels =>
    rw [readFormula] at ran
    obtain ⟨pieces, c₁, -, ran⟩ := Caching.run_bind_ok ran
    obtain ⟨parts, c₂, -, ran⟩ := Caching.run_bind_ok ran
    cases ran
    rfl

/-! ## Parentheses -/

/-- Parentheses that are not behind a name are a group. -/
theorem Piece.add_parens_of_no_name {env : ReadingEnv} {nested : NestedReader} {pieces : List Piece}
    (unnamed : ∀ function rest, pieces ≠ .name function :: rest) (inner : List Char) :
    Piece.add env nested pieces (.parens inner) =
      do return .operand (← Piece.readGroup nested inner) :: pieces := by
  match pieces with
  | .name function :: rest => exact absurd rfl (unnamed function rest)
  | [] | .operator _ :: _ | .bracketName _ :: _ | .operand _ :: _ => rfl

/-! ## Verdicts -/

/-- Both texts are accepted, or refused with the same error. -/
def SameVerdict (r q : Except FormulaError Formula) : Prop := r.map (fun _ => ()) = q.map (fun _ => ())

theorem SameVerdict.eq_error {r : Except FormulaError Formula} {e : FormulaError}
    (h : SameVerdict r (.error e)) : r = .error e := by
  cases r with
  | error e' =>
    cases h
    rfl
  | ok f => cases h

end ExactFormula
