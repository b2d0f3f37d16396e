import ExactFormula.Proofs.Plan.Heights
import ExactFormula.Proofs.Plan.Planning

/-!
The code of a plan points into its tables: at constants that the tree of the formula gave it, and at references,
functions and trees that planning put there.
-/

namespace ExactFormula

namespace Plan.Node

mutual
/-- What the tree points at is in the tables. -/
def PointsInto (T : PlanTables) : Node → Prop
  | .const _ => True
  | .load i => i < T.references.length
  | .call f args => f < T.functions.length ∧ AllPointInto T args
  | .tree i => i < T.trees.length
  | .unary _ n => n.PointsInto T
  | .binary _ l r => l.PointsInto T ∧ r.PointsInto T

def AllPointInto (T : PlanTables) : List Node → Prop
  | [] => True
  | n :: ns => n.PointsInto T ∧ AllPointInto T ns
end

variable {T T' : PlanTables}

mutual
theorem PointsInto.mono (grown : T.Extends T') : (n : Node) → n.PointsInto T → n.PointsInto T'
  | .const _, _ => trivial
  | .load _, h => Nat.lt_of_lt_of_le h grown.references.length_le
  | .call _ args, h => ⟨Nat.lt_of_lt_of_le h.1 grown.functions.length_le, AllPointInto.mono grown args h.2⟩
  | .tree _, h => Nat.lt_of_lt_of_le h grown.trees.length_le
  | .unary _ n, h => PointsInto.mono grown n h
  | .binary _ l r, h => ⟨PointsInto.mono grown l h.1, PointsInto.mono grown r h.2⟩

theorem AllPointInto.mono (grown : T.Extends T') : (ns : List Node) → AllPointInto T ns → AllPointInto T' ns
  | [], _ => trivial
  | n :: ns, h => ⟨PointsInto.mono grown n h.1, AllPointInto.mono grown ns h.2⟩
end

theorem PointsInto.applyUnary {n : Node} (op : UnaryOp) (h : n.PointsInto T) : (n.applyUnary op).PointsInto T := by
  cases n with
  | const v => trivial
  | _ => exact h

theorem PointsInto.applyBinary {l r : Node} (numeric : Bool) (op : BinaryOp) (hl : l.PointsInto T)
    (hr : r.PointsInto T) : (l.applyBinary numeric op r).PointsInto T := by
  rw [Node.applyBinary]
  split
  · trivial
  · exact ⟨hl, hr⟩

end Plan.Node

/-! ## Planning -/

namespace Planning

open Plan.Node (PointsInto AllPointInto)

/-- The tables only grow, and in the end they hold what the tree points at. -/
def Points (x : Planning Planned) : Prop :=
  ∀ {T n depth T'}, x.run T = some ((n, depth), T') → T.Extends T' ∧ n.PointsInto T'

def AllPoint (xs : List (Planning Planned)) : Prop :=
  ∀ {T ps T'}, (all xs).run T = some (ps, T') → T.Extends T' ∧ AllPointInto T' (ps.map (·.1))

theorem Points.const (v : Value) : Points (return (.const v, 0)) := by
  intro T n depth T' h
  obtain ⟨made, rfl⟩ := pure_inv h
  cases made
  exact ⟨.refl T, trivial⟩

theorem Points.nested {x : Planning Planned} (hx : Points x) : Points (x >>= nested) := by
  intro T n depth T' h
  obtain ⟨⟨m, d⟩, T₁, first, second⟩ := bind_inv h
  rw [Planning.nested] at second
  split at second
  · cases second
  · obtain ⟨made, rfl⟩ := pure_inv second
    cases made
    exact hx first

theorem Points.reference (r : Reference) : Points (reference r) := by
  intro T n depth T' h
  obtain ⟨tables, T₁, got, h⟩ := bind_inv h
  cases got
  split at h
  case h_1 i found =>
    obtain ⟨made, rfl⟩ := pure_inv h
    cases made
    exact ⟨.refl _, (List.findIdx?_eq_some_iff_getElem.1 found).1⟩
  case h_2 =>
    obtain ⟨_, T₂, stored, h⟩ := bind_inv h
    cases stored
    obtain ⟨made, rfl⟩ := pure_inv h
    cases made
    refine ⟨⟨List.prefix_append _ _, List.prefix_refl _, List.prefix_refl _⟩, ?_⟩
    rw [PointsInto, List.length_append]
    exact Nat.lt_succ_self _

theorem Points.literal (tree : Literal) : Points (literal tree) := by
  intro T n depth T' h
  obtain ⟨tables, T₁, got, h⟩ := bind_inv h
  cases got
  obtain ⟨_, T₂, stored, h⟩ := bind_inv h
  cases stored
  obtain ⟨made, rfl⟩ := pure_inv h
  cases made
  refine ⟨⟨List.prefix_refl _, List.prefix_refl _, List.prefix_append _ _⟩, ?_⟩
  rw [PointsInto, List.length_append]
  exact Nat.lt_succ_self _

theorem Points.unary {x : Planning Planned} {numeric : Bool} (op : UnaryOp) (hx : Points x) :
    Points ((folder numeric).unary op x) := by
  intro T n depth T' h
  obtain ⟨⟨m, d⟩, T₁, first, h⟩ := bind_inv h
  obtain ⟨made, rfl⟩ := pure_inv h
  cases made
  obtain ⟨grown, points⟩ := hx first
  exact ⟨grown, points.applyUnary op⟩

theorem Points.binary {x y : Planning Planned} {numeric : Bool} (op : BinaryOp) (hx : Points x) (hy : Points y) :
    Points ((folder numeric).binary op x y) := by
  intro T n depth T' h
  obtain ⟨⟨m, d⟩, T₁, first, h⟩ := bind_inv h
  obtain ⟨⟨k, e⟩, T₂, second, h⟩ := bind_inv h
  obtain ⟨made, rfl⟩ := pure_inv h
  cases made
  obtain ⟨grown, left⟩ := hx first
  obtain ⟨grown', right⟩ := hy second
  exact ⟨grown.trans grown', (PointsInto.mono grown' m left).applyBinary numeric op right⟩

theorem AllPoint.nil : AllPoint [] := by
  intro T ps T' h
  obtain ⟨rfl, rfl⟩ := pure_inv h
  exact ⟨.refl T, trivial⟩

theorem AllPoint.cons {x : Planning Planned} {xs : List (Planning Planned)} (hx : Points x) (hxs : AllPoint xs) :
    AllPoint (x :: xs) := by
  intro T ps T' h
  obtain ⟨⟨n, d⟩, T₁, first, h⟩ := bind_inv h
  obtain ⟨qs, T₂, others, h⟩ := bind_inv h
  obtain ⟨rfl, rfl⟩ := pure_inv h
  obtain ⟨grown, head⟩ := hx first
  obtain ⟨grown', tail⟩ := hxs others
  exact ⟨grown.trans grown', PointsInto.mono grown' n head, tail⟩

theorem Points.call (name : String) (function : Function) {xs : List (Planning Planned)} (hxs : AllPoint xs) :
    Points (do call name function (← all xs)) := by
  intro T n depth T' h
  obtain ⟨ps, T₁, first, h⟩ := bind_inv h
  obtain ⟨tables, T₂, got, h⟩ := bind_inv h
  cases got
  obtain ⟨_, T₃, stored, h⟩ := bind_inv h
  cases stored
  rw [Planning.nested] at h
  split at h
  · cases h
  obtain ⟨made, rfl⟩ := pure_inv h
  cases made
  obtain ⟨grown, args⟩ := hxs first
  have added : T₁.Extends { T₁ with functions := T₁.functions ++ [(name, function)] } :=
    ⟨List.prefix_refl _, List.prefix_append _ _, List.prefix_refl _⟩
  refine ⟨grown.trans added, ?_, AllPointInto.mono added _ args⟩
  rw [List.length_append]
  exact Nat.lt_succ_self _

/-- A row of operands that point into the tables does so. -/
theorem points_ofParts {numeric : Bool} {ps : List (Part Operand)}
    (h : ∀ a, Part.operand a ∈ ps → Points (a.planned numeric)) :
    Points (ofParts numeric (Part.plannedAll numeric ps)) := by
  obtain ⟨qs, rfl⟩ := Part.exists_subtype h
  rw [Part.plannedAll_eq_map, Part.map_map, ofParts, Folder.fold_map_part]
  cases Tree.ofParts qs with
  | none => exact Points.const .null
  | some t =>
    show Points ((folder numeric).ofTree (t.map fun a => a.1.planned numeric))
    induction t with
    | leaf a => exact a.2
    | unary op t ih => exact ih.unary op
    | binary op l r ihl ihr => exact ihl.binary op ihr

mutual
theorem points_formula (numeric : Bool) : (f : Formula) → Points (f.planned numeric)
  | ⟨_, parts, _, _⟩ => by
      rw [Formula.planned]
      exact points_ofParts (points_operands numeric parts)

theorem points_operands (numeric : Bool) :
    (ps : List (Part Operand)) → ∀ a, Part.operand a ∈ ps → Points (a.planned numeric)
  | [], _, mem => by cases mem
  | .operand b :: ps, a, mem => by
      rcases List.mem_cons.1 mem with here | later
      · cases here
        exact points_operand numeric b
      · exact points_operands numeric ps a later
  | .unary _ :: ps, a, mem => by
      rcases List.mem_cons.1 mem with here | later
      · cases here
      · exact points_operands numeric ps a later
  | .binary _ :: ps, a, mem => by
      rcases List.mem_cons.1 mem with here | later
      · cases here
      · exact points_operands numeric ps a later

theorem points_operand (numeric : Bool) : (a : Operand) → Points (a.planned numeric)
  | .text t => by
      rw [Operand.planned]
      exact Points.const (.string t)
  | .constant v => by
      rw [Operand.planned]
      exact Points.const v
  | .reference r => by
      rw [Operand.planned]
      exact Points.reference r
  | .call name function args => by
      rw [Operand.planned]
      exact Points.call name function (points_formulas numeric args)
  | .group f => by
      rw [Operand.planned]
      exact Points.nested (points_formula numeric f)
  | .literal _ tree => by
      rw [Operand.planned]
      split
      · split
        · exact Points.const _
        · exact Points.literal tree
      · exact Points.literal tree

theorem points_formulas (numeric : Bool) : (fs : List Formula) → AllPoint (Formula.plannedAll numeric fs)
  | [] => by
      rw [Formula.plannedAll]
      exact AllPoint.nil
  | f :: fs => by
      rw [Formula.plannedAll]
      exact AllPoint.cons (points_formula numeric f) (points_formulas numeric fs)
end

end Planning

/-! ## Code -/

namespace Plan

def tables (p : Plan Literal) : PlanTables := ⟨p.references, p.functions, p.trees⟩

variable {p : Plan Literal}

mutual
/-- The code of a tree points at what the tree does, and at the constants from `base` on. -/
theorem inRange_emit : (n : Node) → (base : Nat) → n.PointsInto p.tables →
    base + (n.emit base).2.length ≤ p.constants.length → ∀ i ∈ (n.emit base).1, i.InRange p
  | .const v, base, _, room => List.forall_mem_singleton.2 room
  | .load _, _, points, _ => List.forall_mem_singleton.2 points
  | .call f args, base, points, room => by
      simp only [Node.emit] at room ⊢
      exact List.forall_mem_append.2 ⟨inRange_emitAll args base points.2 room, List.forall_mem_singleton.2 points.1⟩
  | .tree _, _, points, _ => List.forall_mem_singleton.2 points
  | .unary op n, base, points, room => by
      simp only [Node.emit] at room ⊢
      exact List.forall_mem_append.2 ⟨inRange_emit n base points room, List.forall_mem_singleton.2 trivial⟩
  | .binary op l r, base, points, room => by
      have both : base + (l.emit base).2.length + (r.emit (base + (l.emit base).2.length)).2.length ≤
          p.constants.length := by
        simp only [Node.emit] at room
        split at room <;> rwa [List.length_append, ← Nat.add_assoc] at room
      have left := inRange_emit l base points.1 (Nat.le_trans (Nat.le_add_right _ _) both)
      have right := inRange_emit r _ points.2 both
      simp only [Node.emit]
      split
      · exact List.forall_mem_append.2 ⟨left, List.forall_mem_cons.2 ⟨trivial,
          List.forall_mem_append.2 ⟨right, List.forall_mem_singleton.2 trivial⟩⟩⟩
      · exact List.forall_mem_append.2 ⟨List.forall_mem_append.2 ⟨left, right⟩, List.forall_mem_singleton.2 trivial⟩

theorem inRange_emitAll : (ns : List Node) → (base : Nat) → Node.AllPointInto p.tables ns →
    base + (Node.emitAll base ns).2.length ≤ p.constants.length → ∀ i ∈ (Node.emitAll base ns).1, i.InRange p
  | [], _, _, _ => List.forall_mem_nil _
  | n :: ns, base, points, room => by
      simp only [Node.emitAll, List.length_append, ← Nat.add_assoc] at room ⊢
      exact List.forall_mem_append.2 ⟨inRange_emit n base points.1 (Nat.le_trans (Nat.le_add_right _ _) room),
        inRange_emitAll ns _ points.2 room⟩
end

/-! ## Plans of rows -/

/-- A plan that never falls back on something that is not there: what its code points at is in its tables, jumps
land in the code or behind its end, on every path an instruction finds the values that it takes and one is left at
the end, and so runs come to their outcome. -/
structure Supplied (p : Plan Literal) : Prop where
  inRange : ∀ i ∈ p.code, i.InRange p
  lands : ∀ place op skip, p.code[place]? = some (.shortCircuit op skip) →
    place < place + 1 + skip ∧ place + 1 + skip ≤ p.code.length
  takes : ∀ place height i, Path p.code place height → p.code[place]? = some i → i.taken ≤ height
  ends : ∀ height, Path p.code p.code.length height → height = 1
  runs : ∀ ctx, p.Runs ctx (Literal.evaluateAll ctx p.trees) 0 [] (p.run ctx (Literal.evaluateAll ctx p.trees))

theorem supplied_of_ofParts? {numeric : Bool} {parts : List (Part Operand)} (made : ofParts? numeric parts = some p) :
    p.Supplied := by
  obtain ⟨⟨⟨root, depth⟩, T⟩, planned, emitted⟩ := Option.bind_eq_some_iff.1 made
  cases emitted
  obtain ⟨-, points⟩ := Planning.points_ofParts (Planning.points_operands numeric parts) planned
  have enough : Enough 0 0 (root.emit 0).1 := by
    have all : Enough 0 0 ((root.emit 0).1 ++ []) := enough_emit root 0 0 rfl
    rwa [List.append_nil] at all
  have range := @inRange_emit ⟨(root.emit 0).1, (root.emit 0).2, T.references, T.functions, T.trees, numeric⟩ root 0
    points (Nat.le_of_eq (Nat.zero_add _))
  exact {
    inRange := range
    lands := fun place op skip here => ⟨by omega, jump_le enough here⟩
    takes := fun place height i path here => path.taken_le enough here
    ends := fun height path => path.ends enough
    runs := fun ctx => runs_of_path range (by rw [Literal.evaluateAll_eq_map, List.length_map]) enough 0 [] .start }

end Plan

end ExactFormula
