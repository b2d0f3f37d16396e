import ExactFormula.Formula.Operation
import ExactFormula.Formula.Tree

/-!
Evaluation of a tree whose leaves are outcomes, with a stack of tasks and a stack of values. The
right side of `&&`, `||` and `??` is only looked at when the left side does not decide.
-/

namespace ExactFormula

inductive Task
  | force (t : Tree Outcome)
  | unary (op : UnaryOp)
  | binary (op : BinaryOp)
  | decide (op : BinaryOp) (right : Tree Outcome)
  | settle (op : BinaryOp)

namespace Task

def treeWork : Tree Outcome → Nat
  | .leaf _ => 1
  | .unary _ t => treeWork t + 2
  | .binary _ l r => treeWork l + treeWork r + 3

/-- Bound of the steps that a task takes. -/
def work : Task → Nat
  | force t => treeWork t
  | decide _ right => treeWork right + 2
  | _ => 1

def totalWork : List Task → Nat
  | [] => 0
  | t :: tasks => work t + totalWork tasks

def popped (values : List Value) : Value := values.headD .null

/-- Works through the tasks; the result is the value on top when none is left. -/
def run (numeric : Bool) (tasks : List Task) (values : List Value) : Outcome :=
  match tasks with
  | [] => .ok (popped values)
  | force (.leaf r) :: tasks =>
    match r with
    | .ok v => run numeric tasks (v :: values)
    | .error e => .error e
  | force (.unary op t) :: tasks => run numeric (force t :: unary op :: tasks) values
  | force (.binary op l r) :: tasks =>
    if op.isShortCircuit then run numeric (force l :: decide op r :: tasks) values
    else run numeric (force l :: force r :: binary op :: tasks) values
  | unary op :: tasks => run numeric tasks (op.apply (popped values) :: values.tail)
  | binary op :: tasks =>
    match op.apply numeric (popped values.tail) (popped values) with
    | .ok v => run numeric tasks (v :: values.tail.tail)
    | .error e => .error e
  | decide op right :: tasks =>
    match op.decided? numeric (popped values) with
    | some v => run numeric tasks (v :: values.tail)
    | none => run numeric (force right :: settle op :: tasks) values.tail
  | settle op :: tasks => run numeric tasks (op.settle numeric (popped values) :: values.tail)
termination_by totalWork tasks
decreasing_by all_goals simp only [totalWork, work, treeWork]; omega

end Task

/-- The outcome of a row of parts; an empty row gives null. -/
def interpret (numeric : Bool) (ps : List (Part Outcome)) : Outcome :=
  match Tree.ofParts ps with
  | some t => Task.run numeric [.force t] []
  | none => .ok .null

end ExactFormula
