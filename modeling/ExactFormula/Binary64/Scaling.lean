import ExactFormula.Binary64.Basic

/-!
Products and quotients of binary numbers, and their scaling by powers of ten. The power is a binary
number itself and the scaled number is rounded again, so its last place may differ from that of the
number nearest to the exact value.
-/

namespace ExactFormula.Binary64

/-- The product of finite numbers, rounded once. -/
def mul (x y : Binary64) : Binary64 :=
  let e := x.exponent + y.exponent
  nearest (x.isNegative != y.isNegative) ((x.mantissa * y.mantissa) <<< e.toNat) (1 <<< (-e).toNat)

/-- The quotient of finite numbers, rounded once; the divisor is not zero. -/
def div (x y : Binary64) : Binary64 :=
  let e := x.exponent - y.exponent
  nearest (x.isNegative != y.isNegative) (x.mantissa <<< e.toNat) (y.mantissa <<< (-e).toNat)

def infinity (negative : Bool) : Binary64 := ofMagnitude negative (2047 <<< 52)

def tenPower (n : Nat) : Binary64 := nearest false (Nat.pow 10 n) 1

/-- Exponent of the greatest power of ten in the range. -/
def maxTenPower : Nat := 308

/-- Only zero stays finite under a power past the range. -/
def scaleUp (x : Binary64) (places : Nat) : Binary64 :=
  if places ≤ maxTenPower then x.mul (tenPower places)
  else if x.isZero then x
  else infinity x.isNegative

/-- Past the range the power is divided off in two steps, of which the second one leaves nothing of a
number of 64 bits when it is as great as the first. -/
def scaleDown (x : Binary64) (places : Nat) : Binary64 :=
  if places ≤ maxTenPower then x.div (tenPower places)
  else (x.div (tenPower maxTenPower)).div (tenPower (min (places - maxTenPower) maxTenPower))

/-- A significand of at most 64 bits, rounded and then scaled by a power of ten. -/
def scaled (negative : Bool) (significand : Nat) (exponent : Int) : Binary64 :=
  let x := nearest negative significand 1
  if 0 ≤ exponent then x.scaleUp exponent.toNat else x.scaleDown (-exponent).toNat

example : scaled true 15 (-1) = ⟨0xbff8000000000000⟩ := by rfl
example : (scaled false 83357736589430185 (-132), nearest false 83357736589430185 (Nat.pow 10 132))
    = (⟨0x280a46940a89ce5c⟩, ⟨0x280a46940a89ce5b⟩) := by decide +kernel

end ExactFormula.Binary64
