/-!
Division of whole numbers, rounded to the nearest whole number.
-/

namespace ExactFormula

inductive RoundingMode
  | halfEven
  | halfUp
  deriving DecidableEq, Repr, Inhabited

/-- The truncated quotient moves one step away from zero when the remainder is more than half the
divisor, or exactly half and the mode asks for it. -/
def RoundingMode.divide (mode : RoundingMode) (n d : Int) : Int :=
  let q := n.tdiv d
  let r := n.tmod d
  let away := match compare (2 * r.natAbs) d.natAbs with
    | .gt => true
    | .lt => false
    | .eq => mode == .halfUp || q % 2 != 0
  if r = 0 || !away then q
  else if (n < 0) = (d < 0) then q + 1
  else q - 1

example : (RoundingMode.halfEven.divide 5 2, RoundingMode.halfEven.divide (-7) 2) = (2, -4) := by decide
example : (RoundingMode.halfUp.divide 5 (-2), RoundingMode.halfUp.divide 1 3) = (-3, 0) := by decide

end ExactFormula
