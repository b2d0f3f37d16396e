import ExactFormula.Formula.Operator
import ExactFormula.Value

/-!
What the operators compute. In numeric mode every operand is read as a number first; otherwise `+`
joins texts, comparisons tell text from numbers, and a deciding operand is kept as it is.
-/

namespace ExactFormula

def UnaryOp.apply (op : UnaryOp) (v : Value) : Value :=
  match op with
  | not => .bool !v.isTruthy
  | negate => .number (-v.toNumber)
  | plus => .number v.toNumber

namespace BinaryOp

/-- The result when the left operand alone decides it. -/
def decided? (numeric : Bool) (op : BinaryOp) (left : Value) : Option Value :=
  let left := if numeric && !(op == coalesce && left.isNull) then .number left.toNumber else left
  let decides := match op with
    | and => !left.isTruthy
    | or => left.isTruthy
    | _ => !left.isNull
  if decides then some left else none

/-- The result when the left operand has left the decision to the right one. -/
def settle (numeric : Bool) (op : BinaryOp) (right : Value) : Value :=
  if !numeric || (op == coalesce && right.isNull) then right else .number right.toNumber

/-- Whether a comparison that came out in this way makes the operator true. -/
def holds (op : BinaryOp) (o : Ordering) : Bool :=
  match op with
  | less => o == .lt
  | lessEqual => o != .gt
  | greater => o == .gt
  | greaterEqual => o != .lt
  | equal => o == .eq
  | _ => o != .eq

def arithmetic (op : BinaryOp) (l r : Decimal) : Outcome :=
  match op with
  | power => (FormulaError.ofDecimal (l.pow r)).map .number
  | multiply => .ok (.number (l.mul r))
  | divide => (FormulaError.ofDecimal (l.div r)).map .number
  | modulo => (FormulaError.ofDecimal (l.rem r)).map .number
  | add => .ok (.number (l + r))
  | subtract => .ok (.number (l - r))
  | _ => .ok (.bool (op.holds (compare l r)))

/-- Text that is no decimal. -/
def isWords : Value → Bool
  | .string s => !Decimal.isNumeral (Text.trim s.toList)
  | _ => false

/-- Two strings compare by their characters, other values by their numbers. -/
def compareValues : Value → Value → Ordering
  | .string l, .string r => compare l r
  | l, r => compare l.toNumber r.toNumber

def textual (op : BinaryOp) (l r : Value) : Outcome :=
  match op with
  | add =>
    if isWords l || isWords r then .ok (.string (l.toText ++ r.toText))
    else arithmetic op l.toNumber r.toNumber
  | equal => .ok (.bool (l.same r))
  | notEqual => .ok (.bool !l.same r)
  | less | lessEqual | greater | greaterEqual => .ok (.bool (op.holds (compareValues l r)))
  | _ => arithmetic op l.toNumber r.toNumber

def apply (numeric : Bool) (op : BinaryOp) (l r : Value) : Outcome :=
  if op.isShortCircuit then .ok ((op.decided? numeric l).getD (op.settle numeric r))
  else if numeric then arithmetic op l.toNumber r.toNumber
  else textual op l r

end BinaryOp

end ExactFormula
