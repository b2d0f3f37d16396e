/-!
What can go wrong while a decimal is read or computed.
-/

namespace ExactFormula

inductive DecimalError
  | empty
  | invalid (text : String)
  | exponentOutOfRange (text : String)
  | divideByZero
  | nonFinite
  | unsupported (reason : String)
  deriving DecidableEq, Repr

def DecimalError.message : DecimalError → String
  | .empty => "Empty number"
  | .invalid text => "Invalid number: " ++ text
  | .exponentOutOfRange text => "Exponent out of range: " ++ text
  | .divideByZero => "Division by zero"
  | .nonFinite => "Number is not finite"
  | .unsupported reason => "Unsupported operation: " ++ reason

end ExactFormula
