import ExactFormula.Decimal.Error

/-!
What can go wrong with a formula, while it is read or while it is evaluated.
-/

namespace ExactFormula

inductive Phase
  | reading
  | evaluation
  deriving DecidableEq, Repr

inductive FormulaError
  | unknownOperator (symbol : String)
  | operatorPosition (symbol : String)
  | missingOperator
  | trailingOperator
  | unmatchedDelimiter (delimiter : Char)
  | invalidToken (text : String)
  | invalidReference (name : String)
  | unknownFunction (name : String)
  | invalidArguments (function reason : String)
  | emptyExpression
  | invalidConstant (name : String)
  | nestingTooDeep (limit : Nat)
  | invalidPattern (pattern : String)
  | unknownReference (name : String)
  | arithmetic (cause : DecimalError)
  | unsupportedOperator (symbol : String)
  | function (name reason : String)
  | invalidContext (reason : String)
  deriving DecidableEq, Repr

namespace FormulaError

def phase : FormulaError → Phase
  | unknownOperator _ | operatorPosition _ | missingOperator | trailingOperator | unmatchedDelimiter _
  | invalidToken _ | invalidReference _ | unknownFunction _ | invalidArguments _ _ | emptyExpression
  | invalidConstant _ | nestingTooDeep _ | invalidPattern _ => .reading
  | unknownReference _ | arithmetic _ | unsupportedOperator _ | function _ _ | invalidContext _ =>
    .evaluation

def message : FormulaError → String
  | unknownOperator symbol => "Formula contains an unknown operator " ++ symbol
  | operatorPosition symbol => "Formula contains an operator in invalid position: " ++ symbol
  | missingOperator => "Formula missing expected operator"
  | trailingOperator => "Formula contains invalid trailing operator"
  | unmatchedDelimiter c => "Formula contains unmatched '" ++ c.toString ++ "'"
  | invalidToken text => "Formula contains invalid token: " ++ text
  | invalidReference name => "Formula contains invalid reference " ++ name
  | unknownFunction name => "Formula contains unknown function " ++ name
  | invalidArguments name reason =>
    "Formula contains function " ++ name ++ " with invalid arguments: " ++ reason
  | emptyExpression => "Formula is empty"
  | invalidConstant name => "Formula constant " ++ name ++ " contains an invalid value type"
  | nestingTooDeep limit => "Formula nests deeper than " ++ toString limit ++ " levels"
  | invalidPattern pattern => "Invalid token pattern: " ++ pattern
  | unknownReference name => "Unknown reference " ++ name
  | arithmetic cause => "Arithmetic error: " ++ cause.message
  | unsupportedOperator symbol => "Unsupported operator: " ++ symbol
  | function name reason => "Function " ++ name ++ " failed: " ++ reason
  | invalidContext reason => "Invalid context: " ++ reason

/-- A computation with decimals as a part of a formula. -/
def ofDecimal {α : Type} (r : Except DecimalError α) : Except FormulaError α := r.mapError arithmetic

end FormulaError

end ExactFormula
