import ExactFormula.Formula.Operation
import ExactFormula.Formula.Reference

/-!
Plans: flat code for a machine with a stack of values. `&&`, `||` and `??` jump over the code of
their right side when the left side decides. A plan holds the tables that its code points into; the
trees of embedded literals are evaluated by the caller.
-/

namespace ExactFormula

/-- `shortCircuit` jumps over the given count of instructions. -/
inductive Instr
  | const (index : Nat)
  | load (index : Nat)
  | call (function argc : Nat)
  | tree (index : Nat)
  | unary (op : UnaryOp)
  | binary (op : BinaryOp)
  | shortCircuit (op : BinaryOp) (skip : Nat)
  | settle (op : BinaryOp)
  deriving DecidableEq, Repr

structure Plan (τ : Type) where
  code : List Instr
  constants : List Value
  references : List Reference
  functions : List (String × Function)
  trees : List τ
  numeric : Bool

namespace Plan

variable {τ : Type}

def isConstant (p : Plan τ) : Bool :=
  match p.code with
  | [.const _] => true
  | _ => false

/-- What an instruction makes of the stack, the top first, and how many instructions it jumps over. -/
def step (p : Plan τ) (ctx : Context) (trees : List Outcome) (stack : List Value) :
    Instr → Except FormulaError (List Value × Nat)
  | .const i => .ok (p.constants[i]?.getD .null :: stack, 0)
  | .load i => do
    let v ← (p.references[i]?.map (·.resolve ctx)).getD (.ok .null)
    return (v :: stack, 0)
  | .call f argc => do
    let v ← (p.functions[f]?.map fun (_, run) => run (stack.take argc).reverse ctx).getD (.ok .null)
    return (v :: stack.drop argc, 0)
  | .tree i => do
    let v ← trees[i]?.getD (.ok .null)
    return (v :: stack, 0)
  | .unary op => .ok (op.apply (stack.headD .null) :: stack.tail, 0)
  | .binary op => do
    let v ← op.apply p.numeric (stack.tail.headD .null) (stack.headD .null)
    return (v :: stack.tail.tail, 0)
  | .shortCircuit op skip =>
    match op.decided? p.numeric (stack.headD .null) with
    | some v => .ok (v :: stack.tail, skip)
    | none => .ok (stack.tail, 0)
  | .settle op => .ok (op.settle p.numeric (stack.headD .null) :: stack.tail, 0)

/-- Runs code from the place behind `skip` more instructions; the result is the value on top. -/
def runFrom (p : Plan τ) (ctx : Context) (trees : List Outcome) :
    (skip : Nat) → List Value → List Instr → Outcome
  | _, stack, [] => .ok (stack.headD .null)
  | skip + 1, stack, _ :: code => runFrom p ctx trees skip stack code
  | 0, stack, i :: code =>
    match p.step ctx trees stack i with
    | .ok (stack, skip) => runFrom p ctx trees skip stack code
    | .error e => .error e

def run (p : Plan τ) (ctx : Context) (trees : List Outcome) : Outcome := p.runFrom ctx trees 0 [] p.code

end Plan

end ExactFormula
