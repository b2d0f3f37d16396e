import ExactFormula.Proofs.Formula.ReadBy
import ExactFormula.Proofs.Plan.Code

/-!
The plan of a formula that was read computes what the interpreter computes. Planning only ever adds to
its tables, so a tree keeps its value while the rest of the formula is planned.
-/

namespace ExactFormula

namespace Planning

variable {α β : Type}

/-! ## Taking a planning apart -/

theorem bind_inv {x : Planning α} {f : α → Planning β} {T T'' : PlanTables} {b : β}
    (h : (x >>= f).run T = some (b, T'')) :
    ∃ a T', x.run T = some (a, T') ∧ (f a).run T' = some (b, T'') := by
  have opened : (x >>= f).run T = (x.run T).bind fun p => (f p.1).run p.2 := rfl
  rw [opened] at h
  obtain ⟨⟨a, T'⟩, first, second⟩ := Option.bind_eq_some_iff.1 h
  exact ⟨a, T', first, second⟩

theorem pure_inv {a b : α} {T T' : PlanTables} (h : (pure a : Planning α).run T = some (b, T')) :
    a = b ∧ T = T' := by
  cases h
  exact ⟨rfl, rfl⟩

end Planning

/-! ## Growing tables -/

structure PlanTables.Extends (T T' : PlanTables) : Prop where
  references : T.references <+: T'.references
  functions : T.functions <+: T'.functions
  trees : T.trees <+: T'.trees

theorem PlanTables.Extends.refl (T : PlanTables) : T.Extends T :=
  ⟨List.prefix_refl _, List.prefix_refl _, List.prefix_refl _⟩

theorem PlanTables.Extends.trans {T T' T'' : PlanTables} (h : T.Extends T') (h' : T'.Extends T'') :
    T.Extends T'' :=
  ⟨h.references.trans h'.references, h.functions.trans h'.functions, h.trees.trans h'.trees⟩

/-- What the places of the tables stand for in a context. -/
def PlanTables.places (T : PlanTables) (ctx : Context) : Plan.Places where
  load i := (T.references[i]?.map (·.resolve ctx)).getD (.ok .null)
  call f args := (T.functions[f]?.map fun (_, run) => run args ctx).getD (.ok .null)
  tree i := (T.trees[i]?.map (·.evaluate ctx)).getD (.ok .null)

theorem Literal.evaluateAll_eq_map (ctx : Context) (ls : List Literal) :
    Literal.evaluateAll ctx ls = ls.map (·.evaluate ctx) := by
  induction ls with
  | nil => rw [Literal.evaluateAll, List.map_nil]
  | cons l ls ih => rw [Literal.evaluateAll, ih, List.map_cons]

theorem getElem?_of_prefix {α : Type} {xs ys : List α} {i : Nat} {a : α} (h : xs <+: ys)
    (found : xs[i]? = some a) : ys[i]? = some a := by
  obtain ⟨zs, rfl⟩ := h
  rw [List.getElem?_append_left (List.getElem?_eq_some_iff.1 found).1, found]

/-! ## What a planning computes -/

/-- The references in the tables are ones that the settings resolve. -/
def PlanTables.ReadBy (s : Settings) (T : PlanTables) : Prop := ∀ r ∈ T.references, r.ReadBy s

/-- The tree has the outcome under the tables it ends with and under all that extend them. -/
structure Planning.Ends (s : Settings) (ctx : Context) (T : PlanTables) (n : Plan.Node) (r : Outcome)
    (T' : PlanTables) : Prop where
  extended : T.Extends T'
  readBy : T'.ReadBy s
  outcome : ∀ T'', T'.Extends T'' → n.outcome s.numeric (T''.places ctx) = r

def Planning.Computes (s : Settings) (ctx : Context) (x : Planning Planned) (r : Outcome) : Prop :=
  ∀ {T n depth T'}, T.ReadBy s → x.run T = some ((n, depth), T') → Planning.Ends s ctx T n r T'

def Planning.ComputesAll (s : Settings) (ctx : Context) (xs : List (Planning Planned)) (rs : List Outcome) :
    Prop :=
  ∀ {T ps T'}, T.ReadBy s → (Planning.all xs).run T = some (ps, T') →
    T.Extends T' ∧ T'.ReadBy s
      ∧ ∀ T'', T'.Extends T'' → Plan.Node.outcomes s.numeric (T''.places ctx) (ps.map (·.1)) = rs

namespace Planning

variable {s : Settings} {ctx : Context}

theorem Computes.const (v : Value) : Computes s ctx (return (.const v, 0)) (.ok v) := by
  intro T n depth T' readBy h
  obtain ⟨made, rfl⟩ := pure_inv h
  cases made
  exact ⟨.refl T, readBy, fun _ _ => rfl⟩

theorem Computes.nested {x : Planning Planned} {r : Outcome} (hx : Computes s ctx x r) :
    Computes s ctx (x >>= nested) r := by
  intro T n depth T' readBy h
  obtain ⟨⟨m, d⟩, T₁, first, second⟩ := bind_inv h
  rw [Planning.nested] at second
  split at second
  · cases second
  · obtain ⟨made, rfl⟩ := pure_inv second
    cases made
    exact hx readBy first

theorem Computes.reference {r : Reference} (hr : r.ReadBy s) :
    Computes s ctx (reference r) (r.resolve ctx) := by
  intro T n depth T' readBy h
  obtain ⟨tables, T₁, got, h⟩ := bind_inv h
  cases got
  split at h
  · rename_i i found
    obtain ⟨made, rfl⟩ := pure_inv h
    cases made
    refine ⟨.refl _, readBy, fun T'' grown => ?_⟩
    obtain ⟨inside, same, -⟩ := List.findIdx?_eq_some_iff_getElem.1 found
    have shared : T.references[i] = r :=
      (readBy _ (List.getElem_mem inside)).eq hr (eq_of_beq same)
    have kept : T''.references[i]? = some r :=
      getElem?_of_prefix grown.references (by rw [List.getElem?_eq_getElem inside, shared])
    simp only [Plan.Node.outcome, PlanTables.places, kept, Option.map_some, Option.getD_some]
  · obtain ⟨_, T₂, stored, h⟩ := bind_inv h
    cases stored
    obtain ⟨made, rfl⟩ := pure_inv h
    cases made
    refine ⟨⟨List.prefix_append _ _, List.prefix_refl _, List.prefix_refl _⟩, ?_, fun T'' grown => ?_⟩
    · intro q hq
      rcases List.mem_append.1 hq with earlier | new
      · exact readBy q earlier
      · rw [List.mem_singleton.1 new]
        exact hr
    · have kept : T''.references[T.references.length]? = some r :=
        getElem?_of_prefix grown.references (by simp)
      simp only [Plan.Node.outcome, PlanTables.places, kept, Option.map_some, Option.getD_some]

theorem Computes.literal (tree : Literal) : Computes s ctx (literal tree) (tree.evaluate ctx) := by
  intro T n depth T' readBy h
  obtain ⟨tables, T₁, got, h⟩ := bind_inv h
  cases got
  obtain ⟨_, T₂, stored, h⟩ := bind_inv h
  cases stored
  obtain ⟨made, rfl⟩ := pure_inv h
  cases made
  refine ⟨⟨List.prefix_refl _, List.prefix_refl _, List.prefix_append _ _⟩, readBy, fun T'' grown => ?_⟩
  have kept : T''.trees[T.trees.length]? = some tree := getElem?_of_prefix grown.trees (by simp)
  simp only [Plan.Node.outcome, PlanTables.places, kept, Option.map_some, Option.getD_some]

theorem Computes.unary {x : Planning Planned} {r : Outcome} (op : UnaryOp) (hx : Computes s ctx x r) :
    Computes s ctx ((folder s.numeric).unary op x) (op.ofOutcome r) := by
  intro T n depth T' readBy h
  obtain ⟨⟨m, d⟩, T₁, first, h⟩ := bind_inv h
  obtain ⟨made, rfl⟩ := pure_inv h
  cases made
  have inner := hx readBy first
  refine ⟨inner.extended, inner.readBy, fun T'' grown => ?_⟩
  rw [Plan.Node.outcome_applyUnary, inner.outcome T'' grown]

theorem Computes.binary {x y : Planning Planned} {l r : Outcome} (op : BinaryOp)
    (hx : Computes s ctx x l) (hy : Computes s ctx y r) :
    Computes s ctx ((folder s.numeric).binary op x y) (op.ofOutcomes s.numeric l r) := by
  intro T n depth T' readBy h
  obtain ⟨⟨m, d⟩, T₁, first, h⟩ := bind_inv h
  obtain ⟨⟨k, e⟩, T₂, second, h⟩ := bind_inv h
  obtain ⟨made, rfl⟩ := pure_inv h
  cases made
  have left := hx readBy first
  have right := hy left.readBy second
  refine ⟨left.extended.trans right.extended, right.readBy, fun T'' grown => ?_⟩
  rw [Plan.Node.outcome_applyBinary, left.outcome T'' (right.extended.trans grown),
    right.outcome T'' grown]

theorem ComputesAll.nil : ComputesAll s ctx [] [] := by
  intro T ps T' readBy h
  obtain ⟨rfl, rfl⟩ := pure_inv h
  exact ⟨.refl T, readBy, fun _ _ => rfl⟩

theorem ComputesAll.cons {x : Planning Planned} {r : Outcome} {xs : List (Planning Planned)}
    {rs : List Outcome} (hx : Computes s ctx x r) (hxs : ComputesAll s ctx xs rs) :
    ComputesAll s ctx (x :: xs) (r :: rs) := by
  intro T ps T' readBy h
  obtain ⟨⟨n, d⟩, T₁, first, h⟩ := bind_inv h
  obtain ⟨qs, T₂, others, h⟩ := bind_inv h
  obtain ⟨rfl, rfl⟩ := pure_inv h
  have head := hx readBy first
  obtain ⟨grown, readBy', tail⟩ := hxs head.readBy others
  refine ⟨head.extended.trans grown, readBy', fun T'' later => ?_⟩
  rw [List.map_cons, Plan.Node.outcomes, head.outcome T'' (grown.trans later), tail T'' later]

theorem Computes.call (name : String) (function : Function) {xs : List (Planning Planned)}
    {rs : List Outcome} (hxs : ComputesAll s ctx xs rs) :
    Computes s ctx (do call name function (← all xs)) (do function (← Outcome.all rs) ctx) := by
  intro T n depth T' readBy h
  obtain ⟨ps, T₁, first, h⟩ := bind_inv h
  obtain ⟨tables, T₂, got, h⟩ := bind_inv h
  cases got
  obtain ⟨_, T₃, stored, h⟩ := bind_inv h
  cases stored
  rw [Planning.nested] at h
  split at h
  · cases h
  obtain ⟨made, rfl⟩ := pure_inv h
  cases made
  obtain ⟨grown, readBy', args⟩ := hxs readBy first
  have added : T₁.Extends { T₁ with functions := T₁.functions ++ [(name, function)] } :=
    ⟨List.prefix_refl _, List.prefix_append _ _, List.prefix_refl _⟩
  refine ⟨grown.trans added, readBy', fun T'' later => ?_⟩
  have kept : T''.functions[T₁.functions.length]? = some (name, function) :=
    getElem?_of_prefix later.functions (by simp)
  rw [Plan.Node.outcome, args T'' (added.trans later)]
  simp only [PlanTables.places, kept, Option.map_some, Option.getD_some]

/-! ## Rows -/

/-- Operands whose planning computes their outcome. -/
abbrev Sound (s : Settings) (ctx : Context) : Type :=
  { a : Operand // Computes s ctx (a.planned s.numeric) (a.evaluate ctx) }

theorem Computes.tree (t : Tree (Sound s ctx)) :
    Computes s ctx ((folder s.numeric).ofTree (t.map fun a => a.1.planned s.numeric))
      ((Tree.evaluator s.numeric).ofTree (t.map fun a => a.1.evaluate ctx)) := by
  induction t with
  | leaf a => exact a.2
  | unary op t ih => exact ih.unary op
  | binary op l r ihl ihr => exact ihl.binary op ihr

theorem Computes.row (ps : List (Part (Sound s ctx))) :
    Computes s ctx (ofParts s.numeric (ps.map (Part.map fun a => a.1.planned s.numeric)))
      (interpret s.numeric (ps.map (Part.map fun a => a.1.evaluate ctx))) := by
  rw [ofParts, interpret_eq_evaluate, Folder.fold_map_part, Folder.fold_map_part]
  cases Tree.ofParts ps with
  | none => exact Computes.const .null
  | some t => exact Computes.tree t

end Planning

theorem Part.evaluateAll_eq_map (ctx : Context) (ps : List (Part Operand)) :
    Part.evaluateAll ctx ps = ps.map (Part.map (·.evaluate ctx)) := by
  induction ps with
  | nil => rw [Part.evaluateAll, List.map_nil]
  | cons p ps ih => cases p <;> rw [Part.evaluateAll, ih, List.map_cons, Part.evaluate, Part.map]

theorem Part.plannedAll_eq_map (numeric : Bool) (ps : List (Part Operand)) :
    Part.plannedAll numeric ps = ps.map (Part.map (·.planned numeric)) := by
  induction ps with
  | nil => rw [Part.plannedAll, List.map_nil]
  | cons p ps ih => cases p <;> rw [Part.plannedAll, ih, List.map_cons, Part.planned, Part.map]

/-- A row whose operands all have a property is a row of operands with that property. -/
theorem Part.exists_subtype {α : Type} {P : α → Prop} {ps : List (Part α)}
    (h : ∀ a, Part.operand a ∈ ps → P a) : ∃ qs : List (Part { a // P a }), ps = qs.map (Part.map (·.1)) := by
  induction ps with
  | nil => exact ⟨[], rfl⟩
  | cons p ps ih =>
    obtain ⟨qs, rfl⟩ := ih fun a ha => h a (List.mem_cons_of_mem _ ha)
    cases p with
    | operand a => exact ⟨.operand ⟨a, h a List.mem_cons_self⟩ :: qs, rfl⟩
    | unary op => exact ⟨.unary op :: qs, rfl⟩
    | binary op => exact ⟨.binary op :: qs, rfl⟩

theorem Part.map_map {α β γ : Type} (f : α → β) (g : β → γ) (ps : List (Part α)) :
    (ps.map (Part.map f)).map (Part.map g) = ps.map (Part.map fun a => g (f a)) := by
  rw [List.map_map]
  refine List.map_congr_left fun p _ => ?_
  cases p <;> rfl

theorem Planning.computes_ofParts {s : Settings} {ctx : Context} {ps : List (Part Operand)}
    (h : ∀ a, Part.operand a ∈ ps → Computes s ctx (a.planned s.numeric) (a.evaluate ctx)) :
    Computes s ctx (ofParts s.numeric (Part.plannedAll s.numeric ps))
      (interpret s.numeric (Part.evaluateAll ctx ps)) := by
  obtain ⟨qs, rfl⟩ := Part.exists_subtype h
  rw [Part.plannedAll_eq_map, Part.evaluateAll_eq_map, Part.map_map, Part.map_map]
  exact Computes.row qs

/-! ## Literals without formulas -/

mutual
theorem Literal.evaluate_of_isConstant (ctx ctx' : Context) :
    (l : Literal) → l.isConstant = true → l.evaluate ctx = l.evaluate ctx'
  | .value _, _ => by simp only [Literal.evaluate]
  | .array items, h => by
      rw [Literal.isConstant] at h
      rw [Literal.evaluate, Literal.evaluate, Literal.evaluateAll_of_areConstant ctx ctx' items h]
  | .object members, h => by
      rw [Literal.isConstant] at h
      rw [Literal.evaluate, Literal.evaluate, Literal.evaluateMembers_of_areConstant ctx ctx' members h]
  | .formula _ _, h => by rw [Literal.isConstant] at h; cases h

theorem Literal.evaluateAll_of_areConstant (ctx ctx' : Context) :
    (ls : List Literal) → Literal.areConstant ls = true →
    Literal.evaluateAll ctx ls = Literal.evaluateAll ctx' ls
  | [], _ => by simp only [Literal.evaluateAll]
  | l :: ls, h => by
      rw [Literal.areConstant, Bool.and_eq_true] at h
      rw [Literal.evaluateAll, Literal.evaluateAll, Literal.evaluate_of_isConstant ctx ctx' l h.1,
        Literal.evaluateAll_of_areConstant ctx ctx' ls h.2]

theorem Literal.evaluateMembers_of_areConstant (ctx ctx' : Context) :
    (ms : List (String × Literal)) → Literal.areMembersConstant ms = true →
    Literal.evaluateMembers ctx ms = Literal.evaluateMembers ctx' ms
  | [], _ => by simp only [Literal.evaluateMembers]
  | (k, l) :: ms, h => by
      rw [Literal.areMembersConstant, Bool.and_eq_true] at h
      rw [Literal.evaluateMembers, Literal.evaluateMembers, Literal.evaluate_of_isConstant ctx ctx' l h.1,
        Literal.evaluateMembers_of_areConstant ctx ctx' ms h.2]
end

/-! ## Formulas -/

mutual
theorem Formula.computes (s : Settings) (ctx : Context) :
    (f : Formula) → f.ReadBy s → f.plan = none →
    Planning.Computes s ctx (f.planned s.numeric) (f.evaluate ctx)
  | ⟨source, parts, numeric, plan⟩, h, inlined => by
      rw [Formula.ReadBy] at h
      obtain ⟨rfl, -, readBy⟩ := h
      dsimp only at inlined
      subst inlined
      rw [Formula.planned, Formula.evaluate]
      exact Planning.computes_ofParts (Part.computes s ctx parts readBy)

theorem Part.computes (s : Settings) (ctx : Context) :
    (ps : List (Part Operand)) → Part.AllReadBy s ps → ∀ a, Part.operand a ∈ ps →
    Planning.Computes s ctx (a.planned s.numeric) (a.evaluate ctx)
  | [], _, _, ha => by cases ha
  | .operand b :: ps, h, a, ha => by
      rw [Part.AllReadBy, Part.ReadBy] at h
      rcases List.mem_cons.1 ha with here | later
      · cases here
        exact Operand.computes s ctx b h.1
      · exact Part.computes s ctx ps h.2 a later
  | .unary _ :: ps, h, a, ha => by
      rw [Part.AllReadBy] at h
      rcases List.mem_cons.1 ha with here | later
      · cases here
      · exact Part.computes s ctx ps h.2 a later
  | .binary _ :: ps, h, a, ha => by
      rw [Part.AllReadBy] at h
      rcases List.mem_cons.1 ha with here | later
      · cases here
      · exact Part.computes s ctx ps h.2 a later

theorem Operand.computes (s : Settings) (ctx : Context) :
    (a : Operand) → a.ReadBy s → Planning.Computes s ctx (a.planned s.numeric) (a.evaluate ctx)
  | .text t, _ => by
      rw [Operand.planned, Operand.evaluate]
      exact Planning.Computes.const (.string t)
  | .constant v, _ => by
      rw [Operand.planned, Operand.evaluate]
      exact Planning.Computes.const v
  | .reference r, h => by
      rw [Operand.ReadBy] at h
      rw [Operand.planned, Operand.evaluate]
      exact Planning.Computes.reference h
  | .call name function args, h => by
      rw [Operand.ReadBy] at h
      rw [Operand.planned, Operand.evaluate]
      exact Planning.Computes.call name function (Formula.computesAll s ctx args h)
  | .group f, h => by
      rw [Operand.ReadBy] at h
      rw [Operand.planned, Operand.evaluate]
      exact Planning.Computes.nested (Formula.computes s ctx f h.1 h.2)
  | .literal _ tree, _ => by
      rw [Operand.planned, Operand.evaluate]
      split
      · rename_i constant
        rw [Literal.evaluate_of_isConstant ctx .empty tree constant]
        split
        · rename_i v computed
          rw [computed]
          exact Planning.Computes.const v
        · rw [← Literal.evaluate_of_isConstant ctx .empty tree constant]
          exact Planning.Computes.literal tree
      · exact Planning.Computes.literal tree

theorem Formula.computesAll (s : Settings) (ctx : Context) :
    (fs : List Formula) → Formula.AllReadBy s fs →
    Planning.ComputesAll s ctx (Formula.plannedAll s.numeric fs) (Formula.evaluateAll ctx fs)
  | [], _ => by
      rw [Formula.plannedAll, Formula.evaluateAll]
      exact Planning.ComputesAll.nil
  | f :: fs, h => by
      rw [Formula.AllReadBy] at h
      rw [Formula.plannedAll, Formula.evaluateAll]
      exact Planning.ComputesAll.cons (Formula.computes s ctx f h.1.1 h.1.2)
        (Formula.computesAll s ctx fs h.2)
end

/-- A plan made of a row that was read computes what the interpreter makes of the row. -/
theorem Plan.run_eq_interpret {s : Settings} {parts : List (Part Operand)} {p : Plan Literal}
    (readBy : Part.AllReadBy s parts) (made : Plan.ofParts? s.numeric parts = some p) (ctx : Context) :
    p.run ctx (Literal.evaluateAll ctx p.trees) = interpret s.numeric (Part.evaluateAll ctx parts) := by
  obtain ⟨⟨⟨root, depth⟩, T⟩, planned, emitted⟩ := Option.bind_eq_some_iff.1 made
  cases emitted
  have none : (⟨[], [], []⟩ : PlanTables).ReadBy s := by simp [PlanTables.ReadBy]
  have ends := Planning.computes_ofParts (Part.computes s ctx parts readBy) none planned
  have places : T.places ctx = (Plan.mk (root.emit 0).1 (root.emit 0).2 T.references T.functions T.trees
      s.numeric).places ctx (Literal.evaluateAll ctx T.trees) := by
    simp only [PlanTables.places, Plan.places, Literal.evaluateAll_eq_map, List.getElem?_map]
  rw [Plan.run_of_emit _ root rfl, ← places]
  exact ends.outcome T (.refl T)

end ExactFormula
