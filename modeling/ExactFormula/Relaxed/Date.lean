import ExactFormula.Text.DecimalDigit

/-!
Dates and timestamps: year, month and day between `-`, `/` or `.`, then perhaps a time of day behind
`T` and a zone. Digits of every script count.
-/

namespace ExactFormula.Relaxed

/-- What follows a run of digits of which at least `least` and at most `most` are taken. -/
def dropDigits (least most : Nat) (cs : List Char) : Option (List Char) :=
  let n := ((cs.take most).takeWhile Text.isDecimalDigit).length
  if n < least then none else some (cs.drop n)

def dropDatePart : List Char → Option (List Char)
  | c :: cs => if c == '-' || c == '/' || c == '.' then dropDigits 1 2 cs else none
  | [] => none

def isZone : List Char → Bool
  | [] => true
  | c :: cs =>
    if c == 'Z' || c == 'z' then cs.isEmpty
    else if c == '+' || c == '-' then
      match dropDigits 2 2 cs with
      | some (':' :: cs) => dropDigits 2 2 cs == some []
      | some cs => dropDigits 2 2 cs == some []
      | none => false
    else false

def isSecondsAndZone : List Char → Bool
  | ':' :: cs =>
    match dropDigits 2 2 cs with
    | some ('.' :: cs) => (dropDigits 1 9 cs).any isZone
    | some cs => isZone cs
    | none => false
  | cs => isZone cs

def isTimeOfDay (cs : List Char) : Bool :=
  match dropDigits 2 2 cs with
  | some (':' :: cs) => (dropDigits 2 2 cs).any isSecondsAndZone
  | _ => false

def isDate (cs : List Char) : Bool :=
  match (dropDigits 4 4 cs).bind dropDatePart |>.bind dropDatePart with
  | some [] => true
  | some ('T' :: cs) => isTimeOfDay cs
  | _ => false

example : ["2025-8-1", "2025/12.31", "2025-08-01T00:00:00z", "2025-08-01T00:00:00.123456789-0500"].all
    (isDate ·.toList) = true := by decide
example : ["2025", "25-8-1", "2025-8-1T1:00", "2025-8-1x", "2025-123-1", "2025-8-1T10:00:00.1234567890"].any
    (isDate ·.toList) = false := by decide

end ExactFormula.Relaxed
