import ExactFormula.Decimal.Numeral
import ExactFormula.Formula.Operator
import ExactFormula.Relaxed.Date
import ExactFormula.Text.Blank
import ExactFormula.Text.Quotation
import ExactFormula.Text.Scan

/-!
The lexemes of formula text. A group between delimiters is one lexeme with its inner text, to be read
on its own. A delimiter without its partner ends the list.
-/

namespace ExactFormula

inductive Lexeme
  | word (text : List Char)
  | operator (symbol : List Char)
  | quoted (content : List Char)
  | parens (inner : List Char)
  | brackets (inner : List Char)
  | braces (inner : List Char)
  | unmatched (delimiter : Char)
  deriving DecidableEq, Repr

namespace Lexeme

/-! ## Delimiters -/

def isOpener (c : Char) : Bool := c == '(' || c == '[' || c == '{'

def isCloser (c : Char) : Bool := c == ')' || c == ']' || c == '}'

theorem isOpener_cases {c : Char} (h : isOpener c = true) : c = '(' ∨ c = '[' ∨ c = '{' := by
  simpa only [isOpener, Bool.or_eq_true, beq_iff_eq, or_assoc] using h

theorem isCloser_cases {c : Char} (h : isCloser c = true) : c = ')' ∨ c = ']' ∨ c = '}' := by
  simpa only [isCloser, Bool.or_eq_true, beq_iff_eq, or_assoc] using h

def closer (c : Char) : Char := if c == '(' then ')' else if c == '[' then ']' else '}'

def ofGroup (opener : Char) (inner : List Char) : Lexeme :=
  if opener == '(' then parens inner else if opener == '[' then brackets inner else braces inner

/-- Backslash escapes count in quotations inside brackets or braces, as literals allow them there. -/
def escapesCount (closers : List Char) : Bool := closers.any (· != ')')

/-- Characters up to the delimiter that closes the outermost of the open groups, or the delimiter that
has no partner. The closers still to come are on a stack, the next one first. -/
def groupLength (opener : Char) : (skip : Nat) → (closers : List Char) → List Char → Except Char Nat
  | _, _, [] => .error opener
  | skip + 1, closers, _ :: cs => (groupLength opener skip closers cs).map (· + 1)
  | 0, closers, c :: cs =>
    if Text.isQuote c then
      match Text.closingLength? (escapesCount closers) c cs with
      | some n => (groupLength opener n closers cs).map (· + 1)
      | none => .error c
    else if isOpener c then (groupLength opener 0 (closer c :: closers) cs).map (· + 1)
    else if isCloser c then
      if closers.head? != some c then .error c
      else if closers.tail.isEmpty then .ok 0
      else (groupLength opener 0 closers.tail cs).map (· + 1)
    else (groupLength opener 0 closers cs).map (· + 1)

/-- Splitting of arguments: the closers still to come and the current piece, the last character first. -/
structure SplitState where
  closers : List Char
  piece : List Char

def splitStep (s : SplitState) (c : Char) (cs : List Char) : Text.Step SplitState (List Char) :=
  if Text.isQuote c then
    let n := (Text.closingLength? (escapesCount s.closers) c cs).getD cs.length
    .swallow [] n { s with piece := (cs.take n).reverse ++ c :: s.piece }
  else if isOpener c then .emit [] ⟨closer c :: s.closers, c :: s.piece⟩
  else if isCloser c then .emit [] ⟨s.closers.tail, c :: s.piece⟩
  else if (c == ',' || c == ';') && s.closers.isEmpty then .emit [s.piece.reverse] ⟨[], []⟩
  else .emit [] { s with piece := c :: s.piece }

/-- The texts between the commas and semicolons outside all quotations and groups. -/
def splitArgs (inner : List Char) : List (List Char) :=
  Text.scan splitStep (fun s => [s.piece.reverse]) ⟨[], []⟩ inner

/-- Whether brackets hold a name, not an array. A lone number or date is an array of one. -/
def isBracketName (inner : List Char) : Bool :=
  let name := Text.trim inner
  !name.isEmpty && !Decimal.isNumeral name && !Relaxed.isDate name
    && !name.any fun c => c == ',' || c == '[' || c == ']' || c == '{' || c == '}' || Text.isQuote c

/-! ## The scan -/

def isOperatorChar (c : Char) : Bool :=
  c == '!' || c == '^' || c == '*' || c == '/' || c == '%' || c == '+' || c == '-' || c == '<' || c == '>'
    || c == '=' || c == '&' || c == '|' || c == '?'

/-- The pending word, the last character first, as a lexeme. -/
def flush (pending : List Char) : List Lexeme := if pending.isEmpty then [] else [word pending.reverse]

/-- A sign belongs to the pending word when that is a number up to the mark of its exponent. -/
def continuesExponent (pending : List Char) (c : Char) : Bool :=
  (c == '+' || c == '-') && pending.head?.any Decimal.isExponentMark
    && Decimal.isNumeral ('0' :: pending).reverse

/-- Two characters are one operator wherever they can be. -/
def operatorAt (c : Char) (cs : List Char) : List Char :=
  match cs with
  | d :: _ => if (BinaryOp.ofChars? [c, d]).isSome then [c, d] else [c]
  | [] => [c]

def scanStep (pending : List Char) (c : Char) (cs : List Char) : Text.Step (List Char) Lexeme :=
  if Text.isQuote c then
    match Text.closingLength? false c cs with
    | some n => .swallow (flush pending ++ [quoted (cs.take (n - 1))]) n []
    | none => .stop (flush pending ++ [unmatched c])
  else if isOpener c then
    match groupLength c 0 [closer c] cs with
    | .ok n => .swallow (flush pending ++ [ofGroup c (cs.take n)]) (n + 1) []
    | .error d => .stop (flush pending ++ [unmatched d])
  else if isCloser c then .stop [unmatched c]
  else if Text.isBlank c then .emit (flush pending) []
  else if isOperatorChar c && !continuesExponent pending c then
    let symbol := operatorAt c cs
    .swallow (flush pending ++ [operator symbol]) (symbol.length - 1) []
  else .emit [] (c :: pending)

end Lexeme

def lexemes (text : List Char) : List Lexeme := Text.scan Lexeme.scanStep Lexeme.flush [] text

namespace Lexeme

example : lexemes "a+1e-5 <=f (x)".toList = [word ['a'], operator ['+'], word ['1', 'e', '-', '5'],
    operator ['<', '='], word ['f'], parens ['x']] := by decide +kernel
example : lexemes "(a ')' [c]) ]".toList = [parens "a ')' [c]".toList, unmatched ']'] := by decide +kernel
example : (splitArgs "a, f(b, c); \x7bx: 1, y: 2\x7d, ','".toList).map String.ofList
    = ["a", " f(b, c)", " \x7bx: 1, y: 2\x7d", " ','"] := by decide +kernel

end Lexeme

end ExactFormula
