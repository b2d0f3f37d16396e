import ExactFormula.Formula.Interpreter
import ExactFormula.Proofs.Formula.Folding

/-!
The interpreter with its two stacks computes what direct recursion over the tree of a row computes. An
operator looks at its left operand first, and `&&`, `||` and `??` at their right operand only when the
left one does not decide.
-/

namespace ExactFormula

namespace Outcome

variable {ε α β : Type}

@[simp] theorem ok_bind (a : α) (f : α → Except ε β) : (Except.ok a >>= f) = f a := rfl

@[simp] theorem error_bind (e : ε) (f : α → Except ε β) : (Except.error e >>= f) = .error e := rfl

@[simp] theorem pure_eq_ok (a : α) : (pure a : Except ε α) = .ok a := rfl

end Outcome

/-! ## Operators on outcomes -/

def UnaryOp.ofOutcome (op : UnaryOp) (r : Outcome) : Outcome := do return op.apply (← r)

/-- The right outcome counts only where the left value leaves something to decide. -/
def BinaryOp.ofOutcomes (numeric : Bool) (op : BinaryOp) (l r : Outcome) : Outcome := do
  let left ← l
  if op.isShortCircuit then
    match op.decided? numeric left with
    | some v => return v
    | none => return op.settle numeric (← r)
  else op.apply numeric left (← r)

/-- Direct recursion over a tree of outcomes. -/
def Tree.evaluator (numeric : Bool) : Folder Outcome Outcome where
  leaf r := r
  unary op r := op.ofOutcome r
  binary op l r := op.ofOutcomes numeric l r

def Tree.evaluate (numeric : Bool) (t : Tree Outcome) : Outcome := (Tree.evaluator numeric).ofTree t

variable {numeric : Bool}

/-- On two values the operator is the one that the plan folds constants with. -/
theorem BinaryOp.ofOutcomes_ok (op : BinaryOp) (l r : Value) :
    op.ofOutcomes numeric (.ok l) (.ok r) = op.apply numeric l r := by
  simp only [ofOutcomes, Outcome.ok_bind]
  split
  · rename_i h
    rw [apply, if_pos h]
    cases op.decided? numeric l <;> rfl
  · rfl

namespace Task

/-- Forcing a tree puts its value on the stack, or ends the run with its error. -/
theorem run_force (t : Tree Outcome) (tasks : List Task) (values : List Value) :
    run numeric (force t :: tasks) values = t.evaluate numeric >>= fun v => run numeric tasks (v :: values) := by
  induction t generalizing tasks values with
  | leaf r => cases r <;> simp only [run, Tree.evaluate, Folder.ofTree, Tree.evaluator] <;> rfl
  | unary op t ih =>
    have inner : (Tree.unary op t).evaluate numeric = op.ofOutcome (t.evaluate numeric) := rfl
    rw [run, ih, inner]
    cases t.evaluate numeric with
    | error e => rfl
    | ok v => simp only [Outcome.ok_bind, run]; rfl
  | binary op l r ihl ihr =>
    have inner : (Tree.binary op l r).evaluate numeric
        = op.ofOutcomes numeric (l.evaluate numeric) (r.evaluate numeric) := rfl
    rw [run, inner, BinaryOp.ofOutcomes]
    split
    · rw [ihl]
      cases l.evaluate numeric with
      | error e => rfl
      | ok left =>
        simp only [Outcome.ok_bind, run, popped, List.headD_cons, List.tail_cons]
        cases op.decided? numeric left with
        | some v => rfl
        | none =>
          simp only [ihr]
          cases r.evaluate numeric with
          | error e => rfl
          | ok right => simp only [Outcome.ok_bind, run]; rfl
    · rw [ihl]
      cases l.evaluate numeric with
      | error e => rfl
      | ok left =>
        simp only [Outcome.ok_bind, ihr]
        cases r.evaluate numeric with
        | error e => rfl
        | ok right =>
          simp only [Outcome.ok_bind, run, popped, List.headD_cons, List.tail_cons]
          cases op.apply numeric left right <;> rfl

end Task

theorem interpret_eq_evaluate (ps : List (Part Outcome)) :
    interpret numeric ps = ((Tree.evaluator numeric).fold ps).getD (.ok .null) := by
  rw [interpret, Folder.fold_eq_map_ofTree]
  cases Tree.ofParts ps with
  | none => rfl
  | some t =>
    simp only [Task.run_force, Task.run, Task.popped, List.headD_cons, Option.map_some, Option.getD_some]
    exact bind_pure (Tree.evaluate numeric t)

end ExactFormula
