/-!
Binary floating point numbers of 64 bits, read as a sign and a whole number of powers of two, and
the number nearest to a fraction.
-/

namespace ExactFormula

structure Binary64 where
  bits : UInt64
  deriving DecidableEq, Inhabited, Repr

namespace Binary64

def isNegative (x : Binary64) : Bool := 1 <<< 63 ≤ x.bits.toNat

def magnitude (x : Binary64) : Nat := x.bits.toNat % (1 <<< 63)

def isFinite (x : Binary64) : Bool := x.magnitude < 2047 <<< 52

def isZero (x : Binary64) : Bool := x.magnitude == 0

/-- A finite number has the size `mantissa * 2 ^ exponent`. -/
def mantissa (x : Binary64) : Nat :=
  if x.magnitude < 1 <<< 52 then x.magnitude else (1 <<< 52) + x.magnitude % (1 <<< 52)

def exponent (x : Binary64) : Int :=
  if x.magnitude < 1 <<< 52 then -1074 else (x.magnitude >>> 52 : Nat) - 1075

def ofMagnitude (negative : Bool) (magnitude : Nat) : Binary64 :=
  ⟨UInt64.ofNat (if negative then (1 <<< 63) + magnitude else magnitude)⟩

/-- The binary exponent `k` of a positive fraction: it lies between `2 ^ k` and `2 ^ (k + 1)`. -/
def binaryExponent (num den : Nat) : Int :=
  let k : Int := num.log2 - den.log2
  if den <<< num.log2 ≤ num <<< den.log2 then k else k - 1

/-- The number nearest to `num / den`, a tie going to the even neighbour; infinity past the range. -/
def nearest (negative : Bool) (num den : Nat) : Binary64 :=
  if num = 0 then ofMagnitude negative 0
  else
    let e := max (-1074) (binaryExponent num den - 52)
    let n := num <<< (-e).toNat
    let d := den <<< e.toNat
    let q := n / d
    let r := n % d
    let rounded := if d < 2 * r || (2 * r = d && q % 2 = 1) then q + 1 else q
    ofMagnitude negative (min (((e + 1074).toNat <<< 52) + rounded) (2047 <<< 52))

def toFloat (x : Binary64) : Float := Float.ofBits x.bits

def ofFloat (x : Float) : Binary64 := ⟨x.toBits⟩

/-- Power as the platform's mathematics library computes it. -/
def pow (x y : Binary64) : Binary64 := ofFloat (x.toFloat.pow y.toFloat)

example : nearest false 1 10 = ⟨0x3fb999999999999a⟩ := by rfl

end Binary64

end ExactFormula
