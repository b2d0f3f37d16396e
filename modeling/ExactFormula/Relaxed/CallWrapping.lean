import ExactFormula.Relaxed.Character
import ExactFormula.Text.Blank
import ExactFormula.Text.Quotation
import ExactFormula.Text.Quoted
import ExactFormula.Text.Scan

/-!
Values that call a function, such as `sum(a, b) * 2`, hold commas and brackets of their own. Wrapping
replaces each of them as a whole by one quoted string with a marker in front.
-/

namespace ExactFormula.Relaxed

/-- Whether a name with an opening parenthesis behind it stands outside all quotations. -/
def hasCall : (skip : Nat) → List Char → Bool
  | _, [] => false
  | skip + 1, _ :: cs => hasCall skip cs
  | 0, c :: cs =>
    if Text.isQuote c then hasCall (Text.quotationLength c cs) cs
    else if isNameStart c then
      let name := cs.takeWhile isNamePart
      ((cs.drop name.length).dropWhile isSpace).head? == some '(' || hasCall name.length cs
    else hasCall 0 cs

/-- Characters of the value that starts here. It ends at a comma or a closing bracket that no opening
one inside it accounts for; quotations do not count. -/
def valueLength : (skip parens braces brackets : Nat) → List Char → Nat
  | _, _, _, _, [] => 0
  | skip + 1, p, b, k, _ :: cs => valueLength skip p b k cs + 1
  | 0, p, b, k, c :: cs =>
    if Text.isQuote c then valueLength (Text.quotationLength c cs) p b k cs + 1
    else
      let p := if c == '(' then p + 1 else if c == ')' then p - 1 else p
      let b := if c == '{' then b + 1 else if c == '}' then b - 1 else b
      let k := if c == '[' then k + 1 else if c == ']' then k - 1 else k
      if p == 0 && b == 0 && k == 0 && (c == ',' || c == '}' || c == ']') then 0
      else valueLength 0 p b k cs + 1

/-- Turns the single quotes outside double-quoted strings into double quotes. -/
def requoteSingles (inSingle inDouble escaped : Bool) : List Char → List Char
  | [] => []
  | c :: cs =>
    if escaped then c :: requoteSingles inSingle inDouble false cs
    else if c == '\\' then c :: requoteSingles inSingle inDouble true cs
    else if c == '"' then c :: requoteSingles inSingle (if inSingle then inDouble else !inDouble) false cs
    else if c == '\'' && !inDouble then '"' :: requoteSingles (!inSingle) inDouble false cs
    else c :: requoteSingles inSingle inDouble false cs

/-- The quoted string that stands for a value with a call. -/
def wrapValue (marker value : List Char) : List Char :=
  let literal := value.any fun c => c == '{' || c == '['
  Text.quote (marker ++ if literal then requoteSingles false false false value else value)

/-- The structures around a place, the innermost first, `true` for an object; and whether a key or a
value comes next. -/
structure WrapState where
  structures : List Bool
  atKey : Bool
  atValue : Bool
  deriving DecidableEq, Repr

def WrapState.inObject (s : WrapState) : Bool := s.structures.head? == some true

def WrapState.afterComma (s : WrapState) : WrapState :=
  match s.structures with
  | [] => s
  | object :: _ => { s with atKey := object, atValue := !object }

def wrapStep (marker : List Char) (s : WrapState) (c : Char) (cs : List Char) :
    Text.Step WrapState Char :=
  if Text.isQuote c && (s.atKey || !s.atValue) then
    let n := Text.quotationLength c cs
    .swallow (c :: cs.take n) n s
  else if c == '{' then .emit [c] ⟨true :: s.structures, true, false⟩
  else if c == '[' then .emit [c] ⟨false :: s.structures, false, true⟩
  else if c == '}' || c == ']' then .emit [c] ⟨s.structures.tail, false, false⟩
  else if c == ':' then .emit [c] { s with atKey := false, atValue := true }
  else if c == ',' then .emit [c] s.afterComma
  else if isSpace c || s.atKey || !s.atValue then .emit [c] s
  else
    let text := (c :: cs).take (valueLength 0 0 0 0 (c :: cs))
    let value := Text.trim text
    .swallow (if hasCall 0 value then wrapValue marker value else text) (text.length - 1)
      { s with atKey := s.inObject, atValue := false }

def wrapCalls (marker text : List Char) : List Char :=
  Text.scan (wrapStep marker) (fun _ => []) ⟨[], false, false⟩ text

example : ["\x7btotal: sum(a, b) * 2, n: 1\x7d", "[1, f (x), 3]", "\x7bf(x): 1\x7d",
      "\x7ba: 'q' + max(1,2), b: 'r'\x7d"].map
    (fun s => String.ofList (wrapCalls ['#'] s.toList))
    = ["\x7btotal: \"#sum(a, b) * 2\", n: 1\x7d", "[1, \"#f (x)\", 3]", "\x7bf(x): 1\x7d",
      "\x7ba: \"#'q' + max(1,2)\", b: 'r'\x7d"] := by decide +kernel

end ExactFormula.Relaxed
