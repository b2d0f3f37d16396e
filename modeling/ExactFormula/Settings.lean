import ExactFormula.Function.Builtin
import ExactFormula.Formula.Reference
import ExactFormula.Text.Pattern

/-!
How formulas are read: the functions and constants they may use, how their references are resolved,
and the mode they are evaluated in.
-/

namespace ExactFormula

/-- Gives a reference its resolver, or refuses the name. -/
abbrev ReferenceFactory := String → Except FormulaError Resolver

structure Settings where
  functions : FunctionTable := Builtin.table
  constants : Entries Value := []
  reference : Option ReferenceFactory := none
  numeric : Bool := true
  compile : Bool := true
  tokenPattern : Option Text.Pattern := none
  default : Option Value := none
  wrapCalls : Bool := true

/-- The first in order of the constants that are no scalars. -/
def Settings.invalidConstant? (s : Settings) : Option String :=
  ((Entries.names (s.constants.filter fun e => !e.2.isScalar)).mergeSort (· ≤ ·)).head?

end ExactFormula
