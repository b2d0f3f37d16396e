import ExactFormula.Proofs.Formula.Turns
import ExactFormula.Proofs.Formula.Within
import ExactFormula.Proofs.Plan.Planning

/-!
How deep groups and calls nest, where operators and the insides of embedded literals do not count. Planning goes
through up to its limit and not beyond.
-/

namespace ExactFormula

mutual
def Formula.planDepth : Formula → Nat
  | ⟨_, parts, _, _⟩ => Part.planDepthAll parts

def Part.planDepthAll : List (Part Operand) → Nat
  | [] => 0
  | p :: ps => max (Part.planDepth p) (Part.planDepthAll ps)

def Part.planDepth : Part Operand → Nat
  | .operand a => a.planDepth
  | .unary _ => 0
  | .binary _ => 0

/-- A group and a call are one level above the deepest of what they hold. -/
def Operand.planDepth : Operand → Nat
  | .text _ => 0
  | .constant _ => 0
  | .reference _ => 0
  | .call _ _ args => (Formula.planDepths args).foldl max 0 + 1
  | .group f => f.planDepth + 1
  | .literal _ _ => 0

def Formula.planDepths : List Formula → List Nat
  | [] => []
  | f :: fs => f.planDepth :: Formula.planDepths fs
end

theorem Part.planDepthAll_append (ps qs : List (Part Operand)) :
    Part.planDepthAll (ps ++ qs) = max (Part.planDepthAll ps) (Part.planDepthAll qs) := by
  induction ps with
  | nil => simp [Part.planDepthAll]
  | cons p ps ih => simp [Part.planDepthAll, ih, Nat.max_assoc]

theorem foldl_max_le {ds : List Nat} {start bound : Nat} :
    ds.foldl max start ≤ bound ↔ start ≤ bound ∧ ∀ d ∈ ds, d ≤ bound := by
  induction ds generalizing start with
  | nil => simp
  | cons d ds ih => rw [List.foldl_cons, ih, Nat.max_le, and_assoc, List.forall_mem_cons]

namespace Planning

/-! ## One rule for each way to plan -/

/-- Up to the limit the planning goes through with this depth, and beyond it there is no plan. -/
structure Reaches (x : Planning Planned) (depth : Nat) : Prop where
  inside : depth ≤ maxPlanDepth → ∀ T, ∃ n T', x.run T = some ((n, depth), T')
  beyond : maxPlanDepth < depth → ∀ T, x.run T = none

structure AllReach (xs : List (Planning Planned)) (depths : List Nat) : Prop where
  inside : (∀ d ∈ depths, d ≤ maxPlanDepth) → ∀ T, ∃ ps T',
    (all xs).run T = some (ps, T') ∧ ps.map (·.2) = depths
  beyond : ∀ d ∈ depths, maxPlanDepth < d → ∀ T, (all xs).run T = none

variable {x y : Planning Planned} {d e : Nat} {numeric : Bool}

theorem run_nested_inside (low : d < maxPlanDepth) (n : Plan.Node) (T : PlanTables) :
    (Planning.nested (n, d)).run T = some ((n, d + 1), T) := by
  rw [Planning.nested, if_neg (Nat.not_lt.2 low)]
  rfl

theorem run_nested_beyond (high : maxPlanDepth < d + 1) (n : Plan.Node) (T : PlanTables) :
    (Planning.nested (n, d)).run T = none := by
  rw [Planning.nested, if_pos high]
  rfl

theorem Reaches.of_leaf (h : ∀ T, ∃ n T', x.run T = some ((n, 0), T')) : Reaches x 0 where
  inside _ := h
  beyond high := absurd high (Nat.not_lt_zero _)

theorem Reaches.const (v : Value) : Reaches (return (.const v, 0)) 0 :=
  .of_leaf fun T => ⟨_, T, rfl⟩

theorem Reaches.reference (r : Reference) : Reaches (reference r) 0 := by
  refine .of_leaf fun T => ?_
  cases found : T.references.findIdx? (·.name == r.name) with
  | some i => exact ⟨.load i, T, by simp [Planning.reference, found]⟩
  | none => exact ⟨.load T.references.length, _, by simp [Planning.reference, found]; rfl⟩

theorem Reaches.literal (tree : Literal) : Reaches (literal tree) 0 :=
  .of_leaf fun _ => ⟨_, _, rfl⟩

theorem Reaches.nested (hx : Reaches x d) : Reaches (x >>= nested) (d + 1) where
  inside low T := by
    obtain ⟨n, T', ran⟩ := hx.inside (Nat.le_of_succ_le low) T
    exact ⟨n, T', by simp [ran, run_nested_inside low]⟩
  beyond high T := by
    by_cases low : d ≤ maxPlanDepth
    · obtain ⟨n, T', ran⟩ := hx.inside low T
      simp [ran, run_nested_beyond high]
    · simp [hx.beyond (Nat.lt_of_not_le low) T]

theorem Reaches.unary (op : UnaryOp) (hx : Reaches x d) : Reaches ((folder numeric).unary op x) d where
  inside low T := by
    obtain ⟨n, T', ran⟩ := hx.inside low T
    exact ⟨n.applyUnary op, T', by simp [folder, ran]⟩
  beyond high T := by
    simp [folder, hx.beyond high T]

theorem Reaches.binary (op : BinaryOp) (hx : Reaches x d) (hy : Reaches y e) :
    Reaches ((folder numeric).binary op x y) (max d e) where
  inside low T := by
    obtain ⟨l, T₁, left⟩ := hx.inside (Nat.le_trans (Nat.le_max_left d e) low) T
    obtain ⟨r, T₂, right⟩ := hy.inside (Nat.le_trans (Nat.le_max_right d e) low) T₁
    exact ⟨l.applyBinary numeric op r, T₂, by simp [folder, left, right]⟩
  beyond high T := by
    by_cases low : d ≤ maxPlanDepth
    · obtain ⟨l, T₁, left⟩ := hx.inside low T
      have high : maxPlanDepth < e := by omega
      simp [folder, left, hy.beyond high T₁]
    · simp [folder, hx.beyond (Nat.lt_of_not_le low) T]

theorem AllReach.nil : AllReach [] [] where
  inside _ T := ⟨[], T, rfl, rfl⟩
  beyond _ mem := nomatch mem

theorem AllReach.cons {xs : List (Planning Planned)} {ds : List Nat} (hx : Reaches x d) (hxs : AllReach xs ds) :
    AllReach (x :: xs) (d :: ds) where
  inside low T := by
    obtain ⟨here, later⟩ := List.forall_mem_cons.1 low
    obtain ⟨n, T₁, first⟩ := hx.inside here T
    obtain ⟨ps, T₂, others, depths⟩ := hxs.inside later T₁
    exact ⟨(n, d) :: ps, T₂, by simp [all, first, others], by simp [depths]⟩
  beyond c mem high T := by
    by_cases here : d ≤ maxPlanDepth
    · obtain ⟨n, T₁, first⟩ := hx.inside here T
      rcases List.mem_cons.1 mem with rfl | later
      · exact absurd here (Nat.not_le.2 high)
      · simp [all, first, hxs.beyond c later high T₁]
    · simp [all, hx.beyond (Nat.lt_of_not_le here) T]

theorem Reaches.call (name : String) (function : Function) {xs : List (Planning Planned)} {ds : List Nat}
    (hxs : AllReach xs ds) : Reaches (do call name function (← all xs)) (ds.foldl max 0 + 1) where
  inside low T := by
    obtain ⟨ps, T₁, ran, depths⟩ := hxs.inside (foldl_max_le.1 (Nat.le_of_succ_le low)).2 T
    refine ⟨.call T₁.functions.length (ps.map (·.1)), { T₁ with functions := T₁.functions ++ [(name, function)] }, ?_⟩
    simp [ran, Planning.call, depths, run_nested_inside low]
  beyond high T := by
    by_cases low : ∀ d ∈ ds, d ≤ maxPlanDepth
    · obtain ⟨ps, T₁, ran, depths⟩ := hxs.inside low T
      simp [ran, Planning.call, depths, run_nested_beyond high]
    · obtain ⟨d, mem, high⟩ : ∃ d ∈ ds, maxPlanDepth < d := by simpa using low
      simp [hxs.beyond d mem high T]

/-! ## Rows and formulas -/

theorem reaches_tree (t : Tree Operand) (h : ∀ a, .operand a ∈ t.parts → Reaches (a.planned numeric) a.planDepth) :
    Reaches ((folder numeric).ofTree (t.map (·.planned numeric))) (Part.planDepthAll t.parts) := by
  induction t with
  | leaf a =>
    have leaf := h a List.mem_cons_self
    simpa [Tree.parts, Part.planDepthAll, Part.planDepth, Tree.map, Folder.ofTree, folder] using leaf
  | unary op t ih =>
    have inner : Reaches ((folder numeric).unary op _) _ := (ih fun a mem => h a (List.mem_cons_of_mem _ mem)).unary op
    simpa [Tree.parts, Part.planDepthAll, Part.planDepth, Tree.map, Folder.ofTree] using inner
  | binary op l r ihl ihr =>
    have left := ihl fun a mem => h a (List.mem_append_left _ mem)
    have right := ihr fun a mem => h a (List.mem_append_right _ (List.mem_cons_of_mem _ mem))
    have both : Reaches ((folder numeric).binary op _ _) _ := left.binary op right
    simpa [Tree.parts, Part.planDepthAll_append, Part.planDepthAll, Part.planDepth, Tree.map, Folder.ofTree] using both

theorem reaches_ofParts {ps : List (Part Operand)} (turns : Part.Alternate true ps)
    (h : ∀ a, .operand a ∈ ps → Reaches (a.planned numeric) a.planDepth) :
    Reaches (ofParts numeric (Part.plannedAll numeric ps)) (Part.planDepthAll ps) := by
  obtain ⟨t, made, rfl⟩ := Tree.exists_of_alternate turns
  rw [Part.plannedAll_eq_map, ofParts, Folder.fold_map_part, made]
  exact reaches_tree t h

mutual
theorem reaches_formula (numeric : Bool) : (f : Formula) →
    (∀ g, Formula.Within g f → Part.Alternate true g.parts) → Reaches (f.planned numeric) f.planDepth
  | ⟨source, parts, mode, plan⟩, turns => by
      rw [Formula.planned, Formula.planDepth]
      refine reaches_ofParts (turns _ .refl) (reaches_operands numeric parts fun a mem h holds g within => ?_)
      exact turns g (.inside mem holds within)

theorem reaches_operands (numeric : Bool) : (ps : List (Part Operand)) →
    (∀ a, .operand a ∈ ps → ∀ h, a.Holds h → ∀ g, Formula.Within g h → Part.Alternate true g.parts) →
    ∀ a, .operand a ∈ ps → Reaches (a.planned numeric) a.planDepth
  | [], _, _, mem => by cases mem
  | .operand b :: ps, turns, a, mem => by
      rcases List.mem_cons.1 mem with here | later
      · cases here
        exact reaches_operand numeric b (turns b List.mem_cons_self)
      · exact reaches_operands numeric ps (fun a mem => turns a (List.mem_cons_of_mem _ mem)) a later
  | .unary _ :: ps, turns, a, mem => by
      rcases List.mem_cons.1 mem with here | later
      · cases here
      · exact reaches_operands numeric ps (fun a mem => turns a (List.mem_cons_of_mem _ mem)) a later
  | .binary _ :: ps, turns, a, mem => by
      rcases List.mem_cons.1 mem with here | later
      · cases here
      · exact reaches_operands numeric ps (fun a mem => turns a (List.mem_cons_of_mem _ mem)) a later

theorem reaches_operand (numeric : Bool) : (a : Operand) →
    (∀ h, a.Holds h → ∀ g, Formula.Within g h → Part.Alternate true g.parts) →
    Reaches (a.planned numeric) a.planDepth
  | .text t, _ => by
      rw [Operand.planned, Operand.planDepth]
      exact .const (.string t)
  | .constant v, _ => by
      rw [Operand.planned, Operand.planDepth]
      exact .const v
  | .reference r, _ => by
      rw [Operand.planned, Operand.planDepth]
      exact .reference r
  | .call name function args, turns => by
      rw [Operand.planned, Operand.planDepth]
      exact .call name function (reaches_formulas numeric args fun f mem => turns f (.argument mem))
  | .group f, turns => by
      rw [Operand.planned, Operand.planDepth]
      exact .nested (reaches_formula numeric f (turns f .group))
  | .literal _ tree, _ => by
      rw [Operand.planned, Operand.planDepth]
      split
      · split
        · exact .const _
        · exact .literal tree
      · exact .literal tree

theorem reaches_formulas (numeric : Bool) : (fs : List Formula) →
    (∀ f ∈ fs, ∀ g, Formula.Within g f → Part.Alternate true g.parts) →
    AllReach (Formula.plannedAll numeric fs) (Formula.planDepths fs)
  | [], _ => by
      rw [Formula.plannedAll, Formula.planDepths]
      exact .nil
  | f :: fs, turns => by
      rw [Formula.plannedAll, Formula.planDepths]
      exact .cons (reaches_formula numeric f (turns f List.mem_cons_self))
        (reaches_formulas numeric fs fun g mem => turns g (List.mem_cons_of_mem _ mem))
end

end Planning

/-- A plan can be made of a formula exactly when its groups and calls do not nest too deep. -/
theorem Plan.isSome_ofParts?_iff (numeric : Bool) {f : Formula}
    (turns : ∀ g, Formula.Within g f → Part.Alternate true g.parts) :
    (Plan.ofParts? numeric f.parts).isSome = true ↔ f.planDepth ≤ maxPlanDepth := by
  obtain ⟨source, parts, mode, plan⟩ := f
  have reaches := Planning.reaches_formula numeric ⟨source, parts, mode, plan⟩ turns
  rw [Formula.planned] at reaches
  constructor
  · intro made
    refine Nat.le_of_not_lt fun high => ?_
    simp [Plan.ofParts?, reaches.beyond high ⟨[], [], []⟩] at made
  · intro low
    obtain ⟨n, T', ran⟩ := reaches.inside low ⟨[], [], []⟩
    simp [Plan.ofParts?, ran]

end ExactFormula
