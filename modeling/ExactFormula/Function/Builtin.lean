import ExactFormula.Function.Table

/-!
The functions that every formula may call: rounding, the least, greatest, sum and mean of numbers,
and choices.
-/

namespace ExactFormula.Builtin

def argument (function : String) (args : List Value) (index : Nat) : Outcome :=
  match args[index]? with
  | some v => .ok v
  | none => .error (.function function ("missing argument " ++ toString (index + 1)))

/-- The numeric readings of the arguments; arrays count with their items. -/
def numbers (args : List Value) : List Decimal :=
  args.flatMap fun
    | .array items => items.filterMap Value.number?
    | v => v.number?.toList

def abs : Function := fun args _ => do
  return .number (← argument "abs" args 0).toNumber.abs

/-- Places of a rounding: a whole number below 2³². -/
def places? (v : Value) : Option Nat :=
  v.toNumber.toInt64?.bind fun i => if 0 ≤ i.toInt && i.toInt < 1 <<< 32 then some i.toInt.toNat else none

def round : Function := fun args _ => do
  let v ← argument "round" args 0
  match args[1]? with
  | none => return .number (v.toNumber.roundTo .halfUp 0)
  | some arg =>
    match places? arg with
    | some places => return .number (v.toNumber.roundTo .halfUp places)
    | none => throw (.function "round" "places must be a non-negative integer")

/-- The whole part towards zero. -/
def truncate (d : Decimal) : Decimal := ⟨d.units - d.units.tmod Decimal.whole⟩

def floorOf (d : Decimal) : Decimal :=
  if d.isNegative && truncate d != d then truncate d - .one else truncate d

def ceilOf (d : Decimal) : Decimal :=
  if !d.isNegative && truncate d != d then truncate d + .one else truncate d

def floor : Function := fun args _ => do
  return .number (floorOf (← argument "floor" args 0).toNumber)

def ceil : Function := fun args _ => do
  return .number (ceilOf (← argument "ceil" args 0).toNumber)

def min : Function := fun args _ =>
  match numbers args with
  | [] => .ok .null
  | d :: ds => .ok (.number (ds.foldl Decimal.min d))

def max : Function := fun args _ =>
  match numbers args with
  | [] => .ok .null
  | d :: ds => .ok (.number (ds.foldl Decimal.max d))

def sumOf (ds : List Decimal) : Decimal := ds.foldl (· + ·) .zero

def sum : Function := fun args _ => .ok (.number (sumOf (numbers args)))

def avg : Function := fun args _ =>
  match numbers args with
  | [] => .ok .null
  | ds => (FormulaError.ofDecimal ((sumOf ds).div (.ofInt ds.length))).map .number

def choose : Function := fun args _ => do
  if (← argument "if" args 0).isTruthy then argument "if" args 1
  else return args[2]?.getD (.bool false)

def not : Function := fun args _ => do
  return .bool !(← argument "not" args 0).isTruthy

def coalesce : Function := fun args _ => .ok ((args.find? (!·.isNull)).getD .null)

def defs : List FunctionDef := [
  ⟨"abs", 1, some 1, abs⟩,
  ⟨"round", 1, some 2, round⟩,
  ⟨"floor", 1, some 1, floor⟩,
  ⟨"ceil", 1, some 1, ceil⟩,
  ⟨"min", 1, none, min⟩,
  ⟨"max", 1, none, max⟩,
  ⟨"sum", 0, none, sum⟩,
  ⟨"avg", 1, none, avg⟩,
  ⟨"if", 2, some 3, choose⟩,
  ⟨"not", 1, some 1, not⟩,
  ⟨"coalesce", 1, none, coalesce⟩]

def table : FunctionTable := defs.foldl (fun t f => t.register f) .empty

end ExactFormula.Builtin
