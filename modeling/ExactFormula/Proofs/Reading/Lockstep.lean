import ExactFormula.Proofs.Cache.Contents
import ExactFormula.Proofs.Reading.Running
import ExactFormula.Proofs.Reading.Tracking

/-!
Settings that differ in nothing but whether plans are made read alike, whatever their identities. On caches with the
same contents, once the identities are given names, they fail with one error or give formulas that are one when bare,
and leave such caches again.
-/

namespace ExactFormula

variable {α β γ δ : Type} {ρ ρ' : Nat → Nat}

/-- Two readings in step, with names for the identities in the caches of each. -/
def Alike (ρ ρ' : Nat → Nat) (P : α → β → Prop) (x : Reading α) (y : Reading β) : Prop :=
  ∀ c d, c.contents ρ = d.contents ρ' →
    Matches P (x.run c).1 (y.run d).1 ∧ (x.run c).2.contents ρ = (y.run d).2.contents ρ'

namespace Alike

variable {P : α → β → Prop} {Q : γ → δ → Prop} {x : Reading α} {y : Reading β}

theorem pure {a : α} {b : β} (related : P a b) : Alike ρ ρ' P (pure a) (pure b) :=
  fun _ _ same => ⟨.ok related, same⟩

theorem throw (e : FormulaError) : Alike ρ ρ' P (throw e) (throw e) := fun _ _ same => ⟨.error e, same⟩

theorem lift (r : Except FormulaError α) : Alike ρ ρ' Eq (liftM r) (liftM r) := by
  intro c d same
  refine ⟨?_, same⟩
  cases r with
  | error e => exact .error e
  | ok a => exact .ok rfl

/-- Both runs give results, or fail with one error. -/
theorem cases (h : Alike ρ ρ' P x y) {c d : Cache} (same : c.contents ρ = d.contents ρ') :
    ∃ c' d', c'.contents ρ = d'.contents ρ' ∧ ((∃ a b, P a b ∧ x.run c = (.ok a, c') ∧ y.run d = (.ok b, d')) ∨
      ∃ e, x.run c = (.error e, c') ∧ y.run d = (.error e, d')) := by
  obtain ⟨step, same'⟩ := h c d same
  generalize x.run c = left at step same'
  generalize y.run d = right at step same'
  obtain ⟨r, c'⟩ := left
  obtain ⟨q, d'⟩ := right
  refine ⟨c', d', same', ?_⟩
  cases step with
  | ok related => exact .inl ⟨_, _, related, rfl, rfl⟩
  | error e => exact .inr ⟨e, rfl, rfl⟩

theorem bind {f : α → Reading γ} {g : β → Reading δ} (h : Alike ρ ρ' P x y)
    (hfg : ∀ a b, P a b → Alike ρ ρ' Q (f a) (g b)) : Alike ρ ρ' Q (x >>= f) (y >>= g) := by
  intro c d same
  obtain ⟨c', d', same', ⟨a, b, related, ran, ran'⟩ | ⟨e, ran, ran'⟩⟩ := h.cases same
  · rw [Caching.run_bind, Caching.run_bind, ran, ran']
    exact hfg a b related c' d' same'
  · rw [Caching.run_bind, Caching.run_bind, ran, ran']
    exact ⟨.error e, same'⟩

theorem map {f : α → γ} {g : β → δ} (h : Alike ρ ρ' P x y) (hfg : ∀ a b, P a b → Q (f a) (g b)) :
    Alike ρ ρ' Q (x >>= fun a => Pure.pure (f a)) (y >>= fun b => Pure.pure (g b)) :=
  h.bind fun a b related => .pure (hfg a b related)

end Alike

/-! ## Embedded literals -/

def Formula.SameBare (f g : Formula) : Prop := f.bare = g.bare

def Literal.SameBare (l m : Literal) : Prop := l.bare = m.bare

def Operand.SameBare (a b : Operand) : Prop := a.bare = b.bare

variable {read read' : List Char → Reading Formula}

theorem Literal.ofMarked_alike (h : ∀ text, Alike ρ ρ' Formula.SameBare (read text) (read' text))
    (source : List Char) :
    Alike ρ ρ' Literal.SameBare (Literal.ofMarked read source) (Literal.ofMarked read' source) := by
  intro c d same
  obtain ⟨c', d', same', ⟨f, g, related, ran, ran'⟩ | ⟨e, ran, ran'⟩⟩ := (h source).cases same
  · simp only [Literal.ofMarked, Caching.run_bind, Caching.run_outcome, ran, ran']
    refine ⟨.ok ?_, same'⟩
    rw [Literal.SameBare, Literal.bare, Literal.bare, related]
  · simp only [Literal.ofMarked, Caching.run_bind, Caching.run_outcome, ran, ran']
    cases e with
    | nestingTooDeep limit => exact ⟨.error _, same'⟩
    | _ => exact ⟨.ok rfl, same'⟩

mutual
theorem Literal.ofJson_alike (h : ∀ text, Alike ρ ρ' Formula.SameBare (read text) (read' text)) :
    (j : Json) → Alike ρ ρ' Literal.SameBare (Literal.ofJson read j) (Literal.ofJson read' j)
  | .string text => by
      rw [Literal.ofJson, Literal.ofJson]
      cases Literal.marked? text with
      | some source => exact Literal.ofMarked_alike h source
      | none => exact .pure rfl
  | .array items => by
      rw [Literal.ofJson, Literal.ofJson]
      exact (Literal.ofItems_alike h items).map fun _ _ related => by
        rw [Literal.SameBare, Literal.bare, Literal.bare, related]
  | .object members => by
      rw [Literal.ofJson, Literal.ofJson]
      exact (Literal.ofMembers_alike h members).map fun _ _ related => by
        rw [Literal.SameBare, Literal.bare, Literal.bare, related]
  | .null => by rw [Literal.ofJson, Literal.ofJson]; exact .pure rfl
  | .bool _ => by rw [Literal.ofJson, Literal.ofJson]; exact .pure rfl
  | .number _ => by rw [Literal.ofJson, Literal.ofJson]; exact .pure rfl

theorem Literal.ofItems_alike (h : ∀ text, Alike ρ ρ' Formula.SameBare (read text) (read' text)) :
    (js : List Json) → Alike ρ ρ' (fun ls ms => Literal.bareAll ls = Literal.bareAll ms)
      (Literal.ofItems read js) (Literal.ofItems read' js)
  | [] => by rw [Literal.ofItems, Literal.ofItems]; exact .pure rfl
  | j :: js => by
      rw [Literal.ofItems, Literal.ofItems]
      exact (Literal.ofJson_alike h j).bind fun l m one => (Literal.ofItems_alike h js).map
        fun _ _ all => by rw [Literal.bareAll, Literal.bareAll, one, all]

theorem Literal.ofMembers_alike (h : ∀ text, Alike ρ ρ' Formula.SameBare (read text) (read' text)) :
    (ms : List (String × Json)) → Alike ρ ρ' (fun ls ms => Literal.bareMembers ls = Literal.bareMembers ms)
      (Literal.ofMembers read ms) (Literal.ofMembers read' ms)
  | [] => by rw [Literal.ofMembers, Literal.ofMembers]; exact .pure rfl
  | (_, j) :: ms => by
      rw [Literal.ofMembers, Literal.ofMembers]
      exact (Literal.ofJson_alike h j).bind fun l m one => (Literal.ofMembers_alike h ms).map
        fun _ _ all => by rw [Literal.bareMembers, Literal.bareMembers, one, all]
end

variable {env : ReadingEnv} {nested nested' : NestedReader} {compile : Bool} {id' : Nat}

def Settings.compiling (s : Settings) (compile : Bool) : Settings := { s with compile }

/-- The environment of another engine, which may make plans or not. -/
def ReadingEnv.twin (env : ReadingEnv) (compile : Bool) (id' : Nat) : ReadingEnv :=
  ⟨env.settings.compiling compile, id'⟩

/-- The names tell identities apart, and give these two one name. -/
structure Named (ρ ρ' : Nat → Nat) (id id' : Nat) : Prop where
  injective : Function.Injective ρ
  injective' : Function.Injective ρ'
  same : ρ id = ρ' id'

namespace Named

variable {id : Nat} {c d : Cache}

theorem key (named : Named ρ ρ' id id') (text : String) :
    CacheKey.named ρ (id, text) = CacheKey.named ρ' (id', text) := congrArg (·, text) named.same

theorem findLiteral (named : Named ρ ρ' id id') (same : c.contents ρ = d.contents ρ') (text : String) :
    (c.findLiteral (id, text)).1.map (·.2.bare) = (d.findLiteral (id', text)).1.map (·.2.bare) ∧
      (c.findLiteral (id, text)).2.contents ρ = (d.findLiteral (id', text)).2.contents ρ' := by
  rw [← Prod.mk.injEq, ← Cache.findLiteral_contents named.injective, ← Cache.findLiteral_contents named.injective',
    same, named.key]

theorem storeLiteral (named : Named ρ ρ' id id') (same : c.contents ρ = d.contents ρ') (text : String)
    {tree tree' : Literal} (related : tree.bare = tree'.bare) :
    (c.storeLiteral (id, text) tree).2.contents ρ = (d.storeLiteral (id', text) tree').2.contents ρ' := by
  rw [← Cache.storeLiteral_contents named.injective, ← Cache.storeLiteral_contents named.injective', same, related,
    named.key]

theorem findResolver (named : Named ρ ρ' id id') (same : c.contents ρ = d.contents ρ') (name : String) :
    (c.findResolver (id, name)).1 = (d.findResolver (id', name)).1 ∧
      (c.findResolver (id, name)).2.contents ρ = (d.findResolver (id', name)).2.contents ρ' := by
  rw [← Prod.mk.injEq, ← Cache.findResolver_contents named.injective,
    ← Cache.findResolver_contents named.injective', same, named.key]

theorem storeResolver (named : Named ρ ρ' id id') (same : c.contents ρ = d.contents ρ') (name : String)
    (resolver : Resolver) :
    (c.storeResolver (id, name) resolver).2.contents ρ = (d.storeResolver (id', name) resolver).2.contents ρ' := by
  rw [← Cache.storeResolver_contents named.injective, ← Cache.storeResolver_contents named.injective', same,
    named.key]

end Named

/-- The texts nested in a text are read in step, with plans or without. -/
def NestedReader.Alike (ρ ρ' : Nat → Nat) (nested nested' : NestedReader) : Prop :=
  ∀ planned planned' text,
    ExactFormula.Alike ρ ρ' Formula.SameBare (nested planned text) (nested' planned' text)

theorem embeddedLiteral_alike (named : Named ρ ρ' env.id id') (h : nested.Alike ρ ρ' nested') (source : List Char) :
    Alike ρ ρ' Operand.SameBare (embeddedLiteral env nested source)
      (embeddedLiteral (env.twin compile id') nested' source) := by
  intro c d same
  have looked := named.findLiteral same (String.ofList (Text.trim source))
  rw [run_embeddedLiteral, run_embeddedLiteral]
  simp only [ReadingEnv.twin, Settings.compiling]
  generalize c.findLiteral (env.id, String.ofList (Text.trim source)) = left at looked ⊢
  generalize d.findLiteral (id', String.ofList (Text.trim source)) = right at looked ⊢
  obtain ⟨found, same₁⟩ := looked
  obtain ⟨_ | ⟨serial, tree⟩, c₁⟩ := left
  · obtain ⟨_ | _, d₁⟩ := right
    · dsimp only
      cases Relaxed.parseChars literalMarker env.settings.wrapCalls (Text.trim source) with
      | error e => exact ⟨.ok rfl, same₁⟩
      | ok json =>
        dsimp only
        have build := Literal.ofJson_alike (h env.settings.compile compile) json
        obtain ⟨c₂, d₂, same₂, ⟨tree, tree', related, ran, ran'⟩ | ⟨e, ran, ran'⟩⟩ := build.cases same₁
        · rw [ran, ran']
          refine ⟨.ok ?_, ?_⟩
          · rw [Operand.SameBare, Operand.bare, Operand.bare, related]
          · exact named.storeLiteral same₂ _ related
        · rw [ran, ran']
          exact ⟨.error e, same₂⟩
    · cases found
  · obtain ⟨_ | ⟨serial', tree'⟩, d₁⟩ := right
    · cases found
    · refine ⟨.ok ?_, same₁⟩
      have one : tree.bare = tree'.bare := Option.some.inj found
      rw [Operand.SameBare, Operand.bare, Operand.bare, one]

/-! ## Pieces -/

theorem Piece.readArgs_alike (h : nested.Alike ρ ρ' nested') (function : String) (index : Nat)
    (texts : List (List Char)) : Alike ρ ρ' (fun fs gs => Formula.bareAll fs = Formula.bareAll gs)
      (Piece.readArgs nested function index texts) (Piece.readArgs nested' function index texts) := by
  induction texts generalizing index with
  | nil => exact .pure rfl
  | cons text texts ih =>
    simp only [Piece.readArgs]
    split
    · exact .throw _
    · exact (h false false text).bind fun f g one => (ih (index + 1)).map fun fs gs all => by
        rw [Formula.bareAll, Formula.bareAll, one, all]

theorem Piece.readCall_alike (h : nested.Alike ρ ρ' nested') (function : String) (inner : List Char) :
    Alike ρ ρ' Operand.SameBare (Piece.readCall env nested function inner)
      (Piece.readCall (env.twin compile id') nested' function inner) := by
  simp only [Piece.readCall, ReadingEnv.twin, Settings.compiling]
  cases env.settings.functions.get? function with
  | none => exact .throw _
  | some f =>
    dsimp only
    cases f.arityFault? (if (Text.trim inner).isEmpty then [] else Lexeme.splitArgs inner).length with
    | some reason => exact .throw _
    | none =>
      exact (Piece.readArgs_alike h function 1 _).map fun fs gs all => by
        rw [Operand.SameBare, Operand.bare, Operand.bare, all]

theorem Piece.readGroup_alike (h : nested.Alike ρ ρ' nested') (inner : List Char) :
    Alike ρ ρ' Operand.SameBare (Piece.readGroup nested inner) (Piece.readGroup nested' inner) := by
  simp only [Piece.readGroup]
  split
  · exact .throw _
  · exact (h false false inner).map fun f g one => by
      rw [Operand.SameBare, Operand.bare, Operand.bare, one]

def Piece.AllSameBare (ps qs : List Piece) : Prop := ps.map Piece.bare = qs.map Piece.bare

theorem Piece.operand_alike {x y : Reading Operand} {ps qs : List Piece}
    (h : Alike ρ ρ' Operand.SameBare x y) (before : Piece.AllSameBare ps qs) :
    Alike ρ ρ' Piece.AllSameBare (do return .operand (← x) :: ps) (do return .operand (← y) :: qs) :=
  h.map fun a b one => by
    rw [Piece.AllSameBare, List.map_cons, List.map_cons, Piece.bare, Piece.bare, one, before]

/-- Pieces that are one when bare are of one kind each. -/
theorem Piece.AllSameBare.name {function : String} {ps qs : List Piece}
    (h : Piece.AllSameBare (.name function :: ps) qs) :
    ∃ qs', qs = .name function :: qs' ∧ Piece.AllSameBare ps qs' := by
  cases qs with
  | nil => cases h
  | cons q qs =>
    rw [Piece.AllSameBare, List.map_cons, List.map_cons, List.cons.injEq] at h
    obtain ⟨here, later⟩ := h
    cases q with
    | name function' =>
      cases here
      exact ⟨qs, rfl, later⟩
    | _ => cases here

theorem Piece.parens_alike (h : nested.Alike ρ ρ' nested') {ps qs : List Piece}
    (before : Piece.AllSameBare ps qs) (inner : List Char) :
    Alike ρ ρ' Piece.AllSameBare (Piece.add env nested ps (.parens inner))
      (Piece.add (env.twin compile id') nested' qs (.parens inner)) := by
  by_cases named : ∃ function rest, ps = .name function :: rest
  · obtain ⟨function, ps, rfl⟩ := named
    obtain ⟨qs, rfl, later⟩ := before.name
    exact Piece.operand_alike (Piece.readCall_alike h function inner) later
  · have unnamed : ∀ function rest, qs ≠ .name function :: rest := by
      rintro function rest rfl
      obtain ⟨ps, rfl, -⟩ := Piece.AllSameBare.name before.symm
      exact named ⟨function, ps, rfl⟩
    rw [Piece.add_parens_of_no_name fun function rest eq => named ⟨function, rest, eq⟩,
      Piece.add_parens_of_no_name unnamed]
    exact Piece.operand_alike (Piece.readGroup_alike h inner) before

theorem Piece.add_alike (named : Named ρ ρ' env.id id') (h : nested.Alike ρ ρ' nested') {ps qs : List Piece}
    (before : Piece.AllSameBare ps qs) (l : Lexeme) : Alike ρ ρ' Piece.AllSameBare (Piece.add env nested ps l)
      (Piece.add (env.twin compile id') nested' qs l) := by
  have added (p : Piece) : Piece.AllSameBare (p :: ps) (p :: qs) := by
    rw [Piece.AllSameBare, List.map_cons, List.map_cons, before]
  cases l with
  | word text =>
    refine (Alike.lift (Piece.ofWord env.settings text)).map fun p q one => ?_
    subst one
    exact added p
  | operator symbol => exact .pure (added _)
  | quoted content => exact .pure (added _)
  | parens inner => exact Piece.parens_alike h before inner
  | brackets inner =>
    simp only [Piece.add]
    split
    · exact .pure (added _)
    · exact Piece.operand_alike (embeddedLiteral_alike named h _) before
  | braces inner => exact Piece.operand_alike (embeddedLiteral_alike named h _) before
  | unmatched delimiter => exact .throw _

theorem Piece.addAll_alike (named : Named ρ ρ' env.id id') (h : nested.Alike ρ ρ' nested') {ps qs : List Piece}
    (before : Piece.AllSameBare ps qs) (ls : List Lexeme) :
    Alike ρ ρ' Piece.AllSameBare (Piece.addAll env nested ps ls)
      (Piece.addAll (env.twin compile id') nested' qs ls) := by
  induction ls generalizing ps qs with
  | nil =>
    refine .pure ?_
    rw [Piece.AllSameBare, List.map_reverse, List.map_reverse, before]
  | cons l ls ih => exact (Piece.add_alike named h before l).bind fun ps qs after => ih after

/-! ## Parts and formulas -/

theorem Cache.resolver_alike (named : Named ρ ρ' env.id id') (name : String) (factory : ReferenceFactory) :
    Alike ρ ρ' Eq (Cache.resolver env.id name factory) (Cache.resolver id' name factory) := by
  intro c d same
  have looked := named.findResolver same name
  rw [Cache.run_resolver, Cache.run_resolver]
  generalize c.findResolver (env.id, name) = left at looked ⊢
  generalize d.findResolver (id', name) = right at looked ⊢
  obtain ⟨found, same₁⟩ := looked
  obtain ⟨found?, c₁⟩ := left
  obtain ⟨_, d₁⟩ := right
  dsimp only at found same₁
  subst found
  cases found? with
  | some r => exact ⟨.ok rfl, same₁⟩
  | none =>
    dsimp only
    cases factory name with
    | error e => exact ⟨.error e, same₁⟩
    | ok r =>
      exact ⟨.ok rfl, named.storeResolver same₁ name r⟩

theorem Piece.readReference_alike (named : Named ρ ρ' env.id id') (name : String) :
    Alike ρ ρ' Eq (Piece.readReference env name) (Piece.readReference (env.twin compile id') name) := by
  have twin : Piece.readReference (env.twin compile id') name = Piece.readReference ⟨env.settings, id'⟩ name := rfl
  rw [twin, Piece.readReference, Piece.readReference]
  by_cases unfit : env.settings.tokenPattern.any (!·.foundIn name) = true
  · rw [if_pos unfit, if_pos unfit]
    exact .throw _
  · rw [if_neg unfit, if_neg unfit]
    cases env.settings.reference with
    | none => exact .pure rfl
    | some factory => exact (Cache.resolver_alike named name factory).map fun r q one => by rw [one]

theorem Piece.part_alike {x y : Reading (List (Part Operand))} {p q : Part Operand}
    (bare : Part.bare p = Part.bare q)
    (h : Alike ρ ρ' (fun ps qs => Part.bareAll ps = Part.bareAll qs) x y) :
    Alike ρ ρ' (fun ps qs => Part.bareAll ps = Part.bareAll qs) (do return p :: (← x)) (do return q :: (← y)) :=
  h.map fun ps qs all => by rw [Part.bareAll, Part.bareAll, bare, all]

theorem Piece.arrange_alike (named : Named ρ ρ' env.id id') (first operandExpected : Bool) {ps qs : List Piece}
    (h : Piece.AllSameBare ps qs) : Alike ρ ρ' (fun ps qs => Part.bareAll ps = Part.bareAll qs)
      (Piece.arrange env first operandExpected ps)
      (Piece.arrange (env.twin compile id') first operandExpected qs) := by
  induction ps generalizing qs first operandExpected with
  | nil =>
    cases qs with
    | cons => cases h
    | nil =>
      simp only [Piece.arrange]
      split
      · exact .throw _
      · split
        · exact .throw _
        · exact .pure rfl
  | cons p ps ih =>
    cases qs with
    | nil => cases h
    | cons q qs =>
      rw [Piece.AllSameBare, List.map_cons, List.map_cons, List.cons.injEq] at h
      obtain ⟨here, later⟩ := h
      have reference (text : String) : Alike ρ ρ' (fun ps qs => Part.bareAll ps = Part.bareAll qs)
          (Piece.arrange env first operandExpected (.name text :: ps))
          (Piece.arrange (env.twin compile id') first operandExpected (.name text :: qs)) := by
        simp only [Piece.arrange]
        refine (Piece.readReference_alike named text).bind fun r r' one => ?_
        subst one
        cases operandExpected with
        | false => exact .throw _
        | true => exact Piece.part_alike rfl (ih false false later)
      cases p with
      | operator symbol =>
        cases q with
        | operator symbol' =>
          cases here
          refine (Alike.lift (Piece.operatorPart operandExpected symbol)).bind fun p q one => ?_
          subst one
          exact Piece.part_alike rfl (ih false true later)
        | _ => cases here
      | name text =>
        cases q with
        | name text' =>
          cases here
          exact reference text
        | _ => cases here
      | bracketName text =>
        cases q with
        | bracketName text' =>
          cases here
          exact reference text
        | _ => cases here
      | operand a =>
        cases q with
        | operand b =>
          rw [Piece.bare, Piece.bare, Piece.operand.injEq] at here
          simp only [Piece.arrange]
          cases operandExpected with
          | false => exact .throw _
          | true => exact Piece.part_alike (by rw [Part.bare, Part.bare, here]) (ih false false later)
        | _ => cases here

/-- Plans are the only thing that differs. -/
theorem readFormula_alike (named : Named ρ ρ' env.id id') (compile : Bool) (levels : Nat) :
    NestedReader.Alike ρ ρ' (readFormula env levels) (readFormula (env.twin compile id') levels) := by
  induction levels with
  | zero => exact fun planned planned' text => .throw _
  | succ levels ih =>
    intro planned planned' text
    simp only [readFormula]
    refine (Piece.addAll_alike named ih rfl (lexemes text)).bind fun ps qs pieces => ?_
    refine (Piece.arrange_alike named true true pieces).map fun ps qs parts => ?_
    rw [Formula.SameBare, Formula.bare, Formula.bare, parts]
    rfl

/-! ## Reading without a memory -/

namespace Direct

variable {s : Settings} (compile : Bool)

theorem addAll_compiling (nested : Nested) (pieces : List Piece) (ls : List Lexeme) :
    addAll (s.compiling compile) nested pieces ls = addAll s nested pieces ls := by
  induction ls generalizing pieces with
  | nil => rfl
  | cons l ls ih =>
    have same : add (s.compiling compile) nested pieces l = add s nested pieces l := rfl
    simp only [addAll, same, ih]

theorem arrange_compiling (first operandExpected : Bool) (pieces : List Piece) :
    arrange (s.compiling compile) first operandExpected pieces = arrange s first operandExpected pieces := by
  have same (name : String) : reference (s.compiling compile) name = reference s name := rfl
  induction pieces generalizing first operandExpected with
  | nil => rfl
  | cons p pieces ih => cases p <;> simp only [arrange, same, ih]

theorem formula_compiling (levels : Nat) (text : List Char) :
    formula (s.compiling compile) levels text = formula s levels text := by
  induction levels generalizing text with
  | zero => rfl
  | succ levels ih =>
    have nested : formula (s.compiling compile) levels = formula s levels := funext ih
    simp only [formula, nested, addAll_compiling, arrange_compiling]
    rfl

end Direct

end ExactFormula
