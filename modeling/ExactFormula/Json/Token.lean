import ExactFormula.Binary64.Scaling
import ExactFormula.Json.Basic
import ExactFormula.Text.Scan

/-!
The tokens of JSON text. The first piece that is no token ends the list and says what is wrong with
it: the text stops inside the piece, or the piece is malformed.
-/

namespace ExactFormula.Json

inductive Fault
  | truncated
  | malformed
  deriving DecidableEq, Repr

/-- A closed string may still hold an escape that denotes no character. A broken piece is a string
or something else; text that is only skipped is checked less closely, so it has a fault of its own. -/
inductive Token
  | openBrace
  | closeBrace
  | openBracket
  | closeBracket
  | colon
  | comma
  | null
  | bool (b : Bool)
  | number (text : List Char)
  | string (content : Except Fault (List Char))
  | broken (isString : Bool) (fault skippedFault : Fault)

def isSpace (c : Char) : Bool := c == ' ' || c == '\t' || c == '\n' || c == '\r'

/-! ## Strings -/

def hexDigit? (c : Char) : Option Nat :=
  if c.isDigit then some (c.toNat - 48)
  else if 'a' ≤ c && c ≤ 'f' then some (c.toNat - 87)
  else if 'A' ≤ c && c ≤ 'F' then some (c.toNat - 55)
  else none

/-- The number written by four hexadecimal digits. Fewer than four bytes are a truncated escape. -/
def hexNumber (cs : List Char) : Except Fault Nat :=
  match (cs.take 4).mapM hexDigit? with
  | some [a, b, c, d] => .ok (((a * 16 + b) * 16 + c) * 16 + d)
  | _ => if (String.ofList (cs.take 4)).utf8ByteSize < 4 then .error .truncated else .error .malformed

def isHighSurrogate (n : Nat) : Bool := 0xD800 ≤ n && n ≤ 0xDBFF

def isLowSurrogate (n : Nat) : Bool := 0xDC00 ≤ n && n ≤ 0xDFFF

/-- The character of an escape behind its `\u`, with the count of characters that it takes there. -/
def unicodeEscape (cs : List Char) : Except Fault (Char × Nat) := do
  let high ← hexNumber cs
  if isLowSurrogate high then throw .malformed
  if !isHighSurrogate high then return (Char.ofNat high, 4)
  match cs.drop 4 with
  | [] => throw .truncated
  | ['\\'] => throw .truncated
  | '\\' :: 'u' :: cs =>
    let low ← hexNumber cs
    if !isLowSurrogate low then throw .malformed
    return (Char.ofNat (0x10000 + (high - 0xD800) * 0x400 + (low - 0xDC00)), 10)
  | _ => throw .malformed

def simpleEscape? (c : Char) : Option Char :=
  match c with
  | '"' => some '"'
  | '\\' => some '\\'
  | '/' => some '/'
  | 'b' => some '\x08'
  | 'f' => some '\x0c'
  | 'n' => some '\n'
  | 'r' => some '\r'
  | 't' => some '\t'
  | _ => none

/-- The content of a string up to its closing quote. -/
def content : (skip : Nat) → List Char → Except Fault (List Char)
  | _, [] => .error .truncated
  | skip + 1, _ :: cs => content skip cs
  | 0, c :: cs =>
    if c == '"' then .ok []
    else if c == '\\' then
      match cs with
      | [] => .error .truncated
      | 'u' :: hex =>
        match unicodeEscape hex with
        | .ok (c, n) => (content (n + 1) cs).map (c :: ·)
        | .error fault => .error fault
      | e :: _ =>
        match simpleEscape? e with
        | some c => (content 1 cs).map (c :: ·)
        | none => .error .malformed
    else if c.toNat < 0x20 then .error .malformed
    else (content 0 cs).map (c :: ·)

/-- The count of characters up to the closing quote, that one included. An escape need not denote a
character here. -/
def stringLength : (skip : Nat) → List Char → Except Fault Nat
  | _, [] => .error .truncated
  | skip + 1, _ :: cs => (stringLength skip cs).map (· + 1)
  | 0, c :: cs =>
    if c == '"' then .ok 1
    else if c == '\\' then
      match cs with
      | [] => .error .truncated
      | 'u' :: hex =>
        match hexNumber hex with
        | .ok _ => (stringLength 5 cs).map (· + 1)
        | .error fault => .error fault
      | e :: _ =>
        if (simpleEscape? e).isSome then (stringLength 1 cs).map (· + 1) else .error .malformed
    else if c.toNat < 0x20 then .error .malformed
    else (stringLength 0 cs).map (· + 1)

/-! ## Numbers -/

def digitsOf (cs : List Char) : List Char := cs.takeWhile Char.isDigit

/-- Digits that have to be there. -/
def someDigits (cs : List Char) : Except Fault (List Char) :=
  match digitsOf cs, cs with
  | [], [] => .error .truncated
  | [], _ => .error .malformed
  | ds, _ => .ok ds

def signOf : List Char → List Char
  | '+' :: _ => ['+']
  | '-' :: _ => ['-']
  | _ => []

def exponentText : List Char → Except Fault (List Char)
  | c :: cs =>
    if c == 'e' || c == 'E' then
      (someDigits (cs.drop (signOf cs).length)).map fun ds => c :: (signOf cs ++ ds)
    else .ok []
  | [] => .ok []

def fractionText : List Char → Except Fault (List Char)
  | '.' :: cs => (someDigits cs).map ('.' :: ·)
  | _ => .ok []

def wholeText (cs : List Char) : Except Fault (List Char) :=
  match cs with
  | '0' :: c :: _ => if c.isDigit then .error .malformed else .ok ['0']
  | _ => someDigits cs

/-- The text of the number that starts here. -/
def numberText (cs : List Char) : Except Fault (List Char) := do
  let sign := if cs.head? == some '-' then ['-'] else []
  let cs := cs.drop sign.length
  let whole ← wholeText cs
  let fraction ← fractionText (cs.drop whole.length)
  let exponent ← exponentText (cs.drop (whole.length + fraction.length))
  return sign ++ whole ++ fraction ++ exponent

def exponentValue (cs : List Char) : Int :=
  let value : Int := Nat.ofDigitChars 10 (cs.dropWhile (!·.isDigit)) 0
  if cs.contains '-' then -value else value

/-- Puts decimal digits behind a number for as long as it stays below `2 ^ 64`; gives the number and
the count of digits taken. -/
def appendDigits (n : Nat) : List Char → Nat × Nat
  | [] => (n, 0)
  | c :: cs =>
    let m := 10 * n + (c.toNat - 48)
    if m < 1 <<< 64 then
      let (r, taken) := appendDigits m cs
      (r, taken + 1)
    else (n, 0)

/-- The number written by a number's text. A whole number that fits 64 bits is exact. Of another number
the leading digits that fit 64 bits count, as a binary number scaled by a power of ten. Nothing past
the binary range. -/
def Number.ofText? (text : List Char) : Option Number :=
  let negative := text.head? == some '-'
  let body := if negative then text.drop 1 else text
  let whole := digitsOf body
  let rest := body.drop whole.length
  let (n, taken) := appendDigits 0 whole
  let isExact := rest.isEmpty && taken == whole.length
  if isExact && !negative then some (.integer n)
  else if isExact && 0 < n && n ≤ 1 <<< 63 then some (.integer (-n))
  else
    let fraction := match rest with
      | '.' :: cs => digitsOf cs
      | _ => []
    let mark := rest.dropWhile fun c => c != 'e' && c != 'E'
    let (significand, kept) := appendDigits n fraction
    let x := Binary64.scaled negative significand (exponentValue mark + whole.length - taken - kept)
    if x.isFinite then some (.binary x) else none

/-! ## Tokens -/

/-- What is wrong with a word that should go on with the given letters. -/
def wordFault : (expected : List Char) → List Char → Option Fault
  | [], _ => none
  | _, [] => some .truncated
  | e :: es, c :: cs => if e == c then wordFault es cs else some .malformed

def punctuation? (c : Char) : Option Token :=
  match c with
  | '{' => some .openBrace
  | '}' => some .closeBrace
  | '[' => some .openBracket
  | ']' => some .closeBracket
  | ':' => some .colon
  | ',' => some .comma
  | _ => none

/-- The letters of a word behind its first one, and the word's token. -/
def word? (c : Char) : Option (List Char × Token) :=
  match c with
  | 'n' => some (['u', 'l', 'l'], .null)
  | 't' => some (['r', 'u', 'e'], .bool true)
  | 'f' => some (['a', 'l', 's', 'e'], .bool false)
  | _ => none

def tokenStep (_ : Unit) (c : Char) (cs : List Char) : Text.Step Unit Token :=
  if isSpace c then .emit [] ()
  else if c == '"' then
    match stringLength 0 cs, content 0 cs with
    | .ok n, s => .swallow [.string s] n ()
    | .error skippedFault, .error fault => .stop [.broken true fault skippedFault]
    | .error skippedFault, .ok _ => .stop [.broken true skippedFault skippedFault]
  else if c == '-' || c.isDigit then
    match numberText (c :: cs) with
    | .ok text => .swallow [.number text] (text.length - 1) ()
    | .error fault => .stop [.broken false fault .malformed]
  else match punctuation? c, word? c with
    | some t, _ => .emit [t] ()
    | none, some (letters, t) =>
      match wordFault letters cs with
      | none => .swallow [t] letters.length ()
      | some fault => .stop [.broken false fault fault]
    | none, none => .stop [.broken false .malformed .malformed]

def tokens (cs : List Char) : List Token := Text.scan tokenStep (fun _ => []) () cs

end ExactFormula.Json
