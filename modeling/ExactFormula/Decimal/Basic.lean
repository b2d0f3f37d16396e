import ExactFormula.Decimal.Error
import ExactFormula.Decimal.Rounding

/-!
Decimals with twenty fraction digits, kept as a whole number of units of 10⁻²⁰, and their exact
arithmetic. Sums are exact; products and quotients are rounded once.
-/

namespace ExactFormula

structure Decimal where
  units : Int
  deriving DecidableEq, Inhabited, Repr

namespace Decimal

/-- Fraction digits of every decimal. -/
def scale : Nat := 20

/-- The units of one. -/
def whole : Int := Nat.pow 10 scale

def ofInt (i : Int) : Decimal := ⟨i * whole⟩

def zero : Decimal := ⟨0⟩

def one : Decimal := ⟨whole⟩

instance : Add Decimal := ⟨fun a b => ⟨a.units + b.units⟩⟩
instance : Sub Decimal := ⟨fun a b => ⟨a.units - b.units⟩⟩
instance : Neg Decimal := ⟨fun a => ⟨-a.units⟩⟩
instance : Ord Decimal := ⟨fun a b => compare a.units b.units⟩

@[simp] theorem units_add (a b : Decimal) : (a + b).units = a.units + b.units := rfl
@[simp] theorem units_sub (a b : Decimal) : (a - b).units = a.units - b.units := rfl
@[simp] theorem units_neg (a : Decimal) : (-a).units = -a.units := rfl

def isZero (a : Decimal) : Bool := a.units == 0

def isNegative (a : Decimal) : Bool := a.units < 0

def isInteger (a : Decimal) : Bool := a.units.tmod whole == 0

def abs (a : Decimal) : Decimal := ⟨a.units.natAbs⟩

def signum (a : Decimal) : Decimal := ofInt a.units.sign

def mulWith (mode : RoundingMode) (a b : Decimal) : Decimal := ⟨mode.divide (a.units * b.units) whole⟩

def mul (a b : Decimal) : Decimal := mulWith .halfEven a b

def divWith (mode : RoundingMode) (a b : Decimal) : Except DecimalError Decimal :=
  if b.isZero then .error .divideByZero else .ok ⟨mode.divide (a.units * whole) b.units⟩

def div (a b : Decimal) : Except DecimalError Decimal := divWith .halfEven a b

/-- The remainder has the sign of the dividend. -/
def rem (a b : Decimal) : Except DecimalError Decimal :=
  if b.isZero then .error .divideByZero else .ok ⟨a.units.tmod b.units⟩

def roundTo (mode : RoundingMode) (places : Nat) (a : Decimal) : Decimal :=
  if scale ≤ places then a
  else ⟨mode.divide a.units (Nat.pow 10 (scale - places)) * Nat.pow 10 (scale - places)⟩

/-- A whole number `mantissa` moved `places` digits behind the point. -/
def ofMantissa (mantissa : Int) (places : Nat) : Decimal :=
  if places ≤ scale then ⟨mantissa * Nat.pow 10 (scale - places)⟩
  else ⟨RoundingMode.halfEven.divide mantissa (Nat.pow 10 (places - scale))⟩

def toInt64? (a : Decimal) : Option Int64 :=
  let i := a.units.tdiv whole
  if a.isInteger && Int64.minValue.toInt ≤ i && i ≤ Int64.maxValue.toInt then some (Int64.ofInt i)
  else none

def min (a b : Decimal) : Decimal := if b.units < a.units then b else a

def max (a b : Decimal) : Decimal := if b.units < a.units then a else b

end Decimal

end ExactFormula
