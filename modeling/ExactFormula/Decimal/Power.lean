import ExactFormula.Binary64.Shortest
import ExactFormula.Decimal.Text

/-!
Conversions between decimals and binary numbers, and powers. A whole exponent gives the exact power
rounded once; any other exponent goes through binary numbers.
-/

namespace ExactFormula.Decimal

/-- The nearest binary number. -/
def toBinary64 (a : Decimal) : Binary64 :=
  Binary64.nearest a.isNegative a.units.natAbs (Nat.pow 10 scale)

/-- The decimal of the shortest digits that read back as the binary number. -/
def ofBinary64 (x : Binary64) : Except DecimalError Decimal :=
  if x.isFinite then parseChars x.plainChars else .error .nonFinite

def maxPowerExponent : Int64 := 10000

/-- Most bits that an exact power may take. -/
def maxPowerBits : Nat := 1 <<< 22

def bitLength (n : Nat) : Nat := if n = 0 then 0 else n.log2 + 1

def fractionalPower (a b : Decimal) : Except DecimalError Decimal :=
  if a.isNegative then
    .error (.unsupported (a.toText ++ " raised to non-integer power " ++ b.toText))
  else ofBinary64 (a.toBinary64.pow b.toBinary64)

/-- A whole exponent whose power is small enough to be computed exactly. -/
def powerExponent? (a b : Decimal) : Option Int64 :=
  b.toInt64?.filter fun n =>
    n.abs ≤ maxPowerExponent && bitLength a.units.natAbs * n.toInt.natAbs ≤ maxPowerBits

def pow (a b : Decimal) : Except DecimalError Decimal :=
  if !b.isInteger then fractionalPower a b
  else match powerExponent? a b with
    | none => .error (.exponentOutOfRange b.toText)
    | some n =>
      let m := n.toInt.natAbs
      if n = 0 then .ok one
      else if 0 < n then .ok ⟨RoundingMode.halfEven.divide (a.units.pow m) (Nat.pow 10 (scale * (m - 1)))⟩
      else if a.isZero then .error .divideByZero
      else .ok ⟨RoundingMode.halfEven.divide (Nat.pow 10 (scale * (m + 1))) (a.units.pow m)⟩

example : (pow (ofInt 2) (ofInt (-2))).map toText = .ok "0.25" := by rfl
example : pow zero (ofInt (-1)) = .error .divideByZero := by rfl
example : pow one (ofInt 10001) = .error (.exponentOutOfRange "10001") := by rfl
example : (ofBinary64 ⟨0xbfb999999999999a⟩).map toText = .ok "-0.1" := by rfl

end ExactFormula.Decimal
