/-!
The written form of decimals: an optional sign, digits with `_` between them and at most one point,
and an optional exponent. At least one digit stands before the exponent, and one in it.
-/

namespace ExactFormula.Decimal

def dropSign : List Char → List Char
  | '+' :: cs => cs
  | '-' :: cs => cs
  | cs => cs

theorem dropSign_cons {c : Char} (plus : c ≠ '+') (minus : c ≠ '-') (cs : List Char) :
    dropSign (c :: cs) = c :: cs := by
  unfold dropSign
  split <;> simp_all

def isDigitOrGap (c : Char) : Bool := c.isDigit || c == '_'

def isExponentMark (c : Char) : Bool := c == 'e' || c == 'E'

def isExponent (cs : List Char) : Bool :=
  (dropSign cs).all isDigitOrGap && (dropSign cs).any Char.isDigit

/-- Whether the text finishes a numeral that has so far shown a digit, and a point, or not. -/
def finishesNumeral (digit point : Bool) : List Char → Bool
  | [] => digit
  | c :: cs =>
    if c.isDigit then finishesNumeral true point cs
    else if c == '_' then finishesNumeral digit point cs
    else if c == '.' && !point then finishesNumeral digit true cs
    else isExponentMark c && digit && isExponent cs

def isNumeral (cs : List Char) : Bool :=
  match dropSign cs with
  | [] => false
  | c :: cs => (c.isDigit || c == '.') && finishesNumeral false false (c :: cs)

example : ["1_000.50", "-.5e-3", "5.", "1e1_0", "+7"].all (isNumeral ·.toList) = true := by decide
example : ["", "+", ".", "_1", "1e", "1.2.3", "0x10", "1e+", "NaN"].any (isNumeral ·.toList) = false := by decide

end ExactFormula.Decimal
