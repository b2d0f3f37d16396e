import ExactFormula.Decimal.Numeral
import ExactFormula.Json.Reader
import ExactFormula.Relaxed.CallWrapping
import ExactFormula.Relaxed.Date

/-!
Relaxed documents: JSON with bare keys and values, three kinds of quotes, comments and trailing
commas. Normalizing gives strict JSON text, in which bare numbers and dates are strings and every
other bare value is a string with a marker in front.
-/

namespace ExactFormula.Relaxed

/-! ## Quotations -/

/-- The content of a quotation in strict form, with the count of characters up to its closing quote,
that one included. Escapes stay as they are, but an escaped quote loses its backslash. -/
def requote (quote : Char) : List Char → List Char × Nat
  | [] => ([], 0)
  | c :: cs =>
    if c == '\\' then
      match cs with
      | [] => ([], 1)
      | d :: cs =>
        let (content, n) := requote quote cs
        (if d == quote then d :: content else c :: d :: content, n + 2)
    else if c == quote then ([], 1)
    else
      let (content, n) := requote quote cs
      (if c == '"' then '\\' :: '"' :: content else c :: content, n + 1)

/-! ## Dates -/

def isDateChar (c : Char) : Bool :=
  c.isDigit || c == '-' || c == '.' || c == '/' || c == 'T' || c == ':' || c == 'Z' || c == 'z' || c == '+'

/-- Whether a bare date may end before these characters. -/
def endsDate (cs : List Char) : Bool :=
  match cs with
  | [] => true
  | c :: _ =>
    !isNameStart c &&
      match cs.dropWhile (· == ' ') with
      | [] => true
      | d :: _ => d == ',' || d == '}' || d == ']' || d == ':'

/-- The bare date or timestamp that starts here. -/
def bareDate? (cs : List Char) : Option (List Char) :=
  let text := cs.takeWhile isDateChar
  if (cs.take 4).all Char.isDigit && 8 ≤ text.length && text.length ≤ 35 && isDate text
      && endsDate (cs.drop text.length) then some text
  else none

/-! ## Bare keys and values -/

def bareKey : List Char → List Char
  | [] => []
  | c :: cs =>
    if isSpace c || isStructural c || Text.isQuote c || (c == '/' && opensComment cs) then []
    else c :: bareKey cs

/-- The text of a bare value. It ends before a quote, a comment, or a comma or closing bracket of the
structure around it; brackets opened inside belong to it. -/
def bareValue (nested : Bool) (braces brackets parens : Nat) : List Char → List Char
  | [] => []
  | c :: cs =>
    if c == '{' then c :: bareValue nested (braces + 1) brackets parens cs
    else if c == '[' then c :: bareValue nested braces (brackets + 1) parens cs
    else if c == '(' then c :: bareValue nested braces brackets (parens + 1) cs
    else if c == '}' && 0 < braces then c :: bareValue nested (braces - 1) brackets parens cs
    else if c == '}' && brackets == 0 && parens == 0 then []
    else if c == ']' && 0 < brackets then c :: bareValue nested braces (brackets - 1) parens cs
    else if c == ']' && braces == 0 && parens == 0 then []
    else if c == ')' && 0 < parens then c :: bareValue nested braces brackets (parens - 1) cs
    else if c == ',' && nested && braces == 0 && brackets == 0 && parens == 0 then []
    else if Text.isQuote c then []
    else if c == '/' && opensComment cs then []
    else c :: bareValue nested braces brackets parens cs

/-- A decimal loses its plus sign and its gaps. -/
def plainNumeral (cs : List Char) : List Char :=
  (if cs.head? == some '+' then cs.drop 1 else cs).filter (· != '_')

def isJsonWord (cs : List Char) : Bool :=
  cs == ['t', 'r', 'u', 'e'] || cs == ['f', 'a', 'l', 's', 'e'] || cs == ['n', 'u', 'l', 'l']

/-- The strict form of a bare value without blanks around it. -/
def strictValue (marker value : List Char) : List Char :=
  if Decimal.isNumeral value then '"' :: (plainNumeral value ++ ['"'])
  else if isDate value then Text.quote value
  else if isJsonWord value then value
  else Text.quote (marker ++ value)

/-- The strict form of a bare value with the blanks behind it kept; nothing but blanks stays as it is. -/
def strictText (marker raw : List Char) : List Char :=
  let token := Text.trimStart raw
  let value := Text.trimEnd token
  if token.isEmpty then raw else strictValue marker value ++ token.drop value.length

/-! ## The whole document -/

/-- The structures around a place, the innermost first, `true` for an object; and whether a bare word
is a key here. -/
structure NormalState where
  structures : List Bool
  atKey : Bool
  deriving DecidableEq, Repr

def inObject (structures : List Bool) : Bool := structures.head? == some true

/-- A comma is dropped when nothing but spaces and comments separates it from a closing bracket. -/
def commaStep (s : NormalState) (cs : List Char) : Text.Step NormalState Char :=
  let gap := gapLength 0 cs
  match cs.drop gap with
  | '}' :: _ => .swallow [] gap s
  | ']' :: _ => .swallow [] gap s
  | _ => .emit [','] { s with atKey := inObject s.structures }

def bareStep (marker : List Char) (s : NormalState) (c : Char) (cs : List Char) :
    Text.Step NormalState Char :=
  match if c.isDigit && !s.atKey then bareDate? (c :: cs) else none with
  | some date => .swallow ('"' :: (date ++ ['"'])) (date.length - 1) s
  | none =>
    if s.atKey then
      let key := bareKey (c :: cs)
      if key.isEmpty then .emit [c] s else .swallow (Text.quote key) (key.length - 1) s
    else
      let raw := bareValue (!s.structures.isEmpty) 0 0 0 (c :: cs)
      if raw.isEmpty then .emit [c] s else .swallow (strictText marker raw) (raw.length - 1) s

def normalStep (marker : List Char) (s : NormalState) (c : Char) (cs : List Char) :
    Text.Step NormalState Char :=
  if isSpace c then .emit [c] s
  else if c == '/' && opensComment cs then .swallow [] (commentLength cs) s
  else if c == '{' then .emit [c] ⟨true :: s.structures, true⟩
  else if c == '[' then .emit [c] ⟨false :: s.structures, false⟩
  else if c == ':' then .emit [c] { s with atKey := false }
  else if c == ',' then commaStep s cs
  else if c == '}' || c == ']' then .emit [c] ⟨s.structures.tail, inObject s.structures.tail⟩
  else if c == '"' then
    let n := Text.quotationLength c cs
    .swallow (c :: cs.take n) n s
  else if Text.isQuote c then
    let (content, n) := requote c cs
    .swallow ('"' :: (content ++ ['"'])) n s
  else bareStep marker s c cs

def normalizeChars (marker : List Char) (wrap : Bool) (text : List Char) : List Char :=
  let text := if wrap then wrapCalls marker text else text
  Text.trim (Text.scan (normalStep marker) (fun _ => []) ⟨[], false⟩ text)

def normalize (text marker : String) (wrap : Bool) : String :=
  String.ofList (normalizeChars marker.toList wrap text.toList)

/-- The strict JSON value of a relaxed document. -/
def parseChars (marker : List Char) (wrap : Bool) (text : List Char) : Except Json.Fault Json :=
  Json.ofChars (normalizeChars marker wrap text)

def parse (text marker : String) (wrap : Bool) : Except Json.Fault Json :=
  parseChars marker.toList wrap text.toList

example : ["\x7ba: b, $k: 'it\\'s \"x\"', n: [1_0, +3, 0x10,],\x7d", "\x7bd: 2025-8-1 , e: 2025-8-1 + 1\x7d",
      "\x7b // note\n a: x y , /* in */ b: max(1, 2)\x7d"].map (normalize · "#" false)
    = ["\x7b\"a\": \"#b\", \"$k\": \"it's \\\"x\\\"\", \"n\": [\"10\", \"3\", \"#0x10\"]\x7d",
      "\x7b\"d\": \"2025-8-1\" , \"e\": \"#2025-8-1 + 1\"\x7d",
      "\x7b \n \"a\": \"#x y\" ,  \"b\": \"#max(1, 2)\"\x7d"] := by decide +kernel

end ExactFormula.Relaxed
