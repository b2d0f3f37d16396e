import ExactFormula.Decimal.Basic
import ExactFormula.Decimal.Numeral
import ExactFormula.Text.Blank

/-!
Reading decimals from text and writing them. A text denotes one rational number, which is rounded
half to even to twenty fraction digits; the written form is canonical.
-/

namespace ExactFormula.Decimal

/-- The last `count` decimal digits of a number, with leading zeros. -/
def fixedDigits : (count : Nat) → Nat → List Char
  | 0, _ => []
  | count + 1, n => fixedDigits count (n / 10) ++ [Nat.digitChar (n % 10)]

/-- The last `2 ^ level` decimal digits. Halving the number instead of taking off one digit at a time
keeps this fast for numbers of many thousand digits. -/
def digitBlock : (level : Nat) → Nat → List Char
  | 0, n => [Nat.digitChar (n % 10)]
  | level + 1, n =>
    let half := Nat.pow 10 (1 <<< level)
    digitBlock level (n / half) ++ digitBlock level (n % half)

/-- The decimal digits without leading zeros. Three bits give at most one digit. -/
def wholeDigits (n : Nat) : List Char :=
  match (digitBlock ((n.log2 / 3 + 1).log2 + 1) n).dropWhile (· == '0') with
  | [] => ['0']
  | digits => digits

def trimZeros (cs : List Char) : List Char := (cs.reverse.dropWhile (· == '0')).reverse

def chars (a : Decimal) : List Char :=
  let n := a.units.natAbs
  let fraction := trimZeros (fixedDigits scale (n % Nat.pow 10 scale))
  (if a.isNegative then ['-'] else []) ++ wholeDigits (n / Nat.pow 10 scale)
    ++ (if fraction.isEmpty then [] else '.' :: fraction)

def toText (a : Decimal) : String := String.ofList a.chars

/-- Largest magnitude of a written exponent. -/
def maxExponent : Nat := 1000000

/-- The exponent behind its mark, or nothing when it is too long or too large. -/
def readExponent (cs : List Char) : Option Int :=
  let digits := dropSign cs
  let value := Nat.ofDigitChars 10 digits 0
  if 9 < digits.length || maxExponent < value then none
  else if cs.head? = some '-' then some (-value) else some value

/-- The units of a numeral free of gaps, or nothing when its exponent is out of range. -/
def readUnits (cs : List Char) : Option Int := do
  let body := dropSign cs
  let mantissa := body.takeWhile (!isExponentMark ·)
  let exponent ← match body.dropWhile (!isExponentMark ·) with
    | [] => some 0
    | _ :: tail => readExponent tail
  let fraction := (mantissa.dropWhile (· != '.')).drop 1
  let significand : Int := Nat.ofDigitChars 10 (mantissa.takeWhile (· != '.') ++ fraction) 0
  let shift : Int := scale - fraction.length + exponent
  if shift < -4294967295 then none
  let magnitude := if 0 ≤ shift then significand * Nat.pow 10 shift.toNat
    else RoundingMode.halfEven.divide significand (Nat.pow 10 (-shift).toNat)
  return if cs.head? = some '-' then -magnitude else magnitude

def parseChars (cs : List Char) : Except DecimalError Decimal :=
  let text := Text.trim cs
  if text.isEmpty then .error .empty
  else if !isNumeral text then .error (.invalid (String.ofList text))
  else match readUnits (text.filter (· != '_')) with
    | some units => .ok ⟨units⟩
    | none => .error (.exponentOutOfRange (String.ofList text))

def parse (text : String) : Except DecimalError Decimal := parseChars text.toList

example : (parse "1_000.50").map toText = .ok "1000.5" := by rfl
example : (parse " -.5e-3 ").map toText = .ok "-0.0005" := by rfl
example : (parse "0.000000000000000000015").map toText = .ok "0.00000000000000000002" := by rfl
example : parse "1e1000001" = .error (.exponentOutOfRange "1e1000001") := by rfl

end ExactFormula.Decimal
