import ExactFormula.Formula.Evaluation
import ExactFormula.Plan.Node

/-!
Plans made from formulas. Groups and calls are inlined, each one level deeper than what it holds; a
formula that nests too deep gets no plan.
-/

namespace ExactFormula

/-- Deepest nesting of groups and calls in a plan. -/
def maxPlanDepth : Nat := 64

/-- The tables of a plan, filled while its formula is walked. -/
structure PlanTables where
  references : List Reference
  functions : List (String × Function)
  trees : List Literal

abbrev Planning := StateT PlanTables Option

/-- A tree with the depth of its groups and calls. -/
abbrev Planned := Plan.Node × Nat

namespace Planning

/-- References of one name share a place in the table. -/
def reference (r : Reference) : Planning Planned := do
  let tables ← get
  match tables.references.findIdx? (·.name == r.name) with
  | some i => return (.load i, 0)
  | none =>
    set { tables with references := tables.references ++ [r] }
    return (.load tables.references.length, 0)

def literal (tree : Literal) : Planning Planned := do
  let tables ← get
  set { tables with trees := tables.trees ++ [tree] }
  return (.tree tables.trees.length, 0)

def nested (p : Planned) : Planning Planned :=
  if maxPlanDepth < p.2 + 1 then failure else return (p.1, p.2 + 1)

def call (name : String) (function : Function) (args : List Planned) : Planning Planned := do
  let tables ← get
  set { tables with functions := tables.functions ++ [(name, function)] }
  nested (.call tables.functions.length (args.map (·.1)), (args.map (·.2)).foldl max 0)

/-- Trees are built from left to right, each operator after its operands. -/
def folder (numeric : Bool) : Folder (Planning Planned) (Planning Planned) where
  leaf p := p
  unary op p := do
    let (n, depth) ← p
    return (n.applyUnary op, depth)
  binary op left right := do
    let (l, leftDepth) ← left
    let (r, rightDepth) ← right
    return (l.applyBinary numeric op r, max leftDepth rightDepth)

def ofParts (numeric : Bool) (ps : List (Part (Planning Planned))) : Planning Planned :=
  ((folder numeric).fold ps).getD (return (.const .null, 0))

def all : List (Planning Planned) → Planning (List Planned)
  | [] => return []
  | p :: ps => return (← p) :: (← all ps)

end Planning

mutual
def Formula.planned (numeric : Bool) : Formula → Planning Planned
  | ⟨_, parts, _, _⟩ => Planning.ofParts numeric (Part.plannedAll numeric parts)

def Part.plannedAll (numeric : Bool) : List (Part Operand) → List (Part (Planning Planned))
  | [] => []
  | p :: ps => Part.planned numeric p :: Part.plannedAll numeric ps

def Part.planned (numeric : Bool) : Part Operand → Part (Planning Planned)
  | .operand a => .operand (Operand.planned numeric a)
  | .unary op => .unary op
  | .binary op => .binary op

/-- A literal without formulas is a constant. -/
def Operand.planned (numeric : Bool) : Operand → Planning Planned
  | .text s => return (.const (.string s), 0)
  | .constant v => return (.const v, 0)
  | .reference r => Planning.reference r
  | .call name function args => do
    Planning.call name function (← Planning.all (Formula.plannedAll numeric args))
  | .group f => do Planning.nested (← Formula.planned numeric f)
  | .literal _ tree =>
    if tree.isConstant then
      match tree.evaluate .empty with
      | .ok v => return (.const v, 0)
      | .error _ => Planning.literal tree
    else Planning.literal tree

def Formula.plannedAll (numeric : Bool) : List Formula → List (Planning Planned)
  | [] => []
  | f :: fs => Formula.planned numeric f :: Formula.plannedAll numeric fs
end

def Plan.ofParts? (numeric : Bool) (parts : List (Part Operand)) : Option (Plan Literal) := do
  let ((root, _), tables) ← (Planning.ofParts numeric (Part.plannedAll numeric parts)).run ⟨[], [], []⟩
  let (code, constants) := root.emit 0
  return ⟨code, constants, tables.references, tables.functions, tables.trees, numeric⟩

end ExactFormula
