import ExactFormula.Binary64.Basic

/-!
The shortest decimal digits that read back as a given binary number. For each count of digits the
number has two neighbours with that many digits; the first count with a neighbour inside the interval
of numbers that round to the given one wins, and of two such neighbours the nearer one.
-/

namespace ExactFormula.Binary64

/-- Which neighbour wins when both are equally near. -/
inductive Tie
  | up
  | even
  deriving DecidableEq, Repr

/-- Digits `d` with the point `point` places after their start: `0.d * 10 ^ point`. -/
structure Digits where
  digits : List Char
  point : Int
  deriving DecidableEq, Repr

/-- `a * 2 ^ q` compared with `b * 10 ^ e`. -/
def comparePowers (a : Nat) (q : Int) (b : Nat) (e : Int) : Ordering :=
  compare (a <<< q.toNat * Nat.pow 10 (-e).toNat) (b <<< (-q).toNat * Nat.pow 10 e.toNat)

/-- Least `k` with `m * 2 ^ q < 10 ^ k`, searched upwards from a bound below it. -/
def decimalPoint (m : Nat) (q : Int) : Int :=
  let estimate := ((m.log2 : Int) + q) * 30103 / 100000 - 1
  if comparePowers m q 1 estimate = .lt then estimate
  else if comparePowers m q 1 (estimate + 1) = .lt then estimate + 1
  else if comparePowers m q 1 (estimate + 2) = .lt then estimate + 2
  else estimate + 3

/-- Whether `d * 10 ^ e` rounds to the number; all sizes are counted in quarters of its last place. -/
def readsBack (x : Binary64) (d : Nat) (e : Int) : Bool :=
  let m := x.mantissa
  let q := x.exponent - 2
  let low := if x.magnitude % (1 <<< 52) = 0 && 1 <<< 53 ≤ x.magnitude then 4 * m - 1 else 4 * m - 2
  let high := 4 * m + 2
  let below := comparePowers low q d e
  let above := comparePowers high q d e
  (below == .lt || (below == .eq && m % 2 == 0)) && (above == .gt || (above == .eq && m % 2 == 0))

/-- The nearer of the neighbours `d` and `d + 1`, counted in `10 ^ e`. -/
def nearer (tie : Tie) (x : Binary64) (d : Nat) (e : Int) : Nat :=
  match comparePowers (2 * x.mantissa) x.exponent (2 * d + 1) e with
  | .lt => d
  | .gt => d + 1
  | .eq => if tie = .up || d % 2 = 1 then d + 1 else d

/-- The digits chosen on the grid of multiples of `10 ^ e`, if one of them reads back. -/
def onGrid (tie : Tie) (x : Binary64) (e : Int) : Option Nat :=
  let d := (x.mantissa <<< x.exponent.toNat * Nat.pow 10 (-e).toNat)
    / (1 <<< (-x.exponent).toNat * Nat.pow 10 e.toNat)
  match readsBack x d e, readsBack x (d + 1) e with
  | true, true => some (nearer tie x d e)
  | true, false => some d
  | false, true => some (d + 1)
  | false, false => none

/-- Tries one digit more each time, `remaining` times. -/
def search (tie : Tie) (x : Binary64) (point : Int) : (remaining : Nat) → (count : Nat) → Digits
  | 0, count => ⟨Nat.toDigits 10 x.mantissa, point - count⟩
  | remaining + 1, count =>
    match onGrid tie x (point - count) with
    | some d =>
      let written := Nat.toDigits 10 d
      ⟨(written.reverse.dropWhile (· == '0')).reverse, point + (written.length - count)⟩
    | none => search tie x point remaining (count + 1)

def shortest (tie : Tie) (x : Binary64) : Digits :=
  search tie x (decimalPoint x.mantissa x.exponent) 17 1

def signChars (x : Binary64) : List Char := if x.isNegative then ['-'] else []

/-- Digits and point without an exponent: `12.5`, `0.001`, `1200`. -/
def Digits.positional (d : Digits) : List Char :=
  if d.point ≤ 0 then '0' :: '.' :: (List.replicate (-d.point).toNat '0' ++ d.digits)
  else if d.digits.length ≤ d.point.toNat then
    d.digits ++ List.replicate (d.point.toNat - d.digits.length) '0'
  else d.digits.take d.point.toNat ++ '.' :: d.digits.drop d.point.toNat

/-- One digit, the others behind a point, and a signed exponent: `1.5e-7`. -/
def Digits.scientific (d : Digits) : List Char :=
  let e := d.point - 1
  d.digits.take 1 ++ (if d.digits.length ≤ 1 then [] else '.' :: d.digits.drop 1)
    ++ ['e', if e < 0 then '-' else '+'] ++ Nat.toDigits 10 e.natAbs

/-- The text without an exponent, whatever its length. -/
def plainChars (x : Binary64) : List Char :=
  x.signChars ++ if x.isZero then ['0'] else (x.shortest .up).positional

/-- The text of a JSON number: positional for sizes between 10⁻⁵ and 10¹⁶, always with a point or an
exponent. -/
def jsonChars (x : Binary64) : List Char :=
  let d := x.shortest .even
  x.signChars ++
    if x.isZero then ['0', '.', '0']
    else if -5 < d.point && d.point ≤ 16 then
      d.positional ++ (if d.digits.length ≤ d.point.toNat then ['.', '0'] else [])
    else d.scientific

example : [plainChars ⟨0x3fb999999999999a⟩, jsonChars ⟨0x4629bbe0b2ab2b2f⟩, jsonChars ⟨0x3ff0000000000000⟩,
      plainChars ⟨0x8000000000000000⟩].map String.ofList
      = ["0.1", "1.0194247014077663e+30", "1.0", "-0"] := by rfl

end ExactFormula.Binary64
