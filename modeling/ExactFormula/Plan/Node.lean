import ExactFormula.Plan.Basic

/-!
Expression trees between a formula and its plan. Operators on constants are folded as the tree is
built, except where they fail; the tree is then written out as code.
-/

namespace ExactFormula.Plan

inductive Node
  | const (v : Value)
  | load (index : Nat)
  | call (function : Nat) (args : List Node)
  | tree (index : Nat)
  | unary (op : UnaryOp) (n : Node)
  | binary (op : BinaryOp) (l r : Node)

namespace Node

def applyUnary (op : UnaryOp) : Node → Node
  | const v => const (op.apply v)
  | n => unary op n

/-- The value of an operator whose operands decide it now. -/
def folded? (numeric : Bool) (op : BinaryOp) : Node → Node → Option Value
  | const l, const r => (op.apply numeric l r).toOption
  | const l, _ => if op.isShortCircuit then op.decided? numeric l else none
  | _, _ => none

def applyBinary (numeric : Bool) (op : BinaryOp) (l r : Node) : Node :=
  match folded? numeric op l r with
  | some v => const v
  | none => binary op l r

mutual
/-- The code of a tree and its constants, which follow `base` earlier ones in the plan. -/
def emit (base : Nat) : Node → List Instr × List Value
  | const v => ([.const base], [v])
  | load i => ([.load i], [])
  | call f args =>
    let (code, constants) := emitAll base args
    (code ++ [.call f args.length], constants)
  | tree i => ([.tree i], [])
  | unary op n =>
    let (code, constants) := emit base n
    (code ++ [.unary op], constants)
  | binary op l r =>
    let (left, constants) := emit base l
    let (right, more) := emit (base + constants.length) r
    if op.isShortCircuit then
      (left ++ .shortCircuit op (right.length + 1) :: (right ++ [.settle op]), constants ++ more)
    else (left ++ right ++ [.binary op], constants ++ more)

def emitAll (base : Nat) : List Node → List Instr × List Value
  | [] => ([], [])
  | n :: ns =>
    let (code, constants) := emit base n
    let (rest, more) := emitAll (base + constants.length) ns
    (code ++ rest, constants ++ more)
end

end Node

end ExactFormula.Plan
