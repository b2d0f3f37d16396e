import ExactFormula.Cache.Basic
import ExactFormula.Formula.Lexeme
import ExactFormula.Relaxed.Document
import ExactFormula.Settings

/-!
Pieces of a formula: lexemes with their groups, calls and literals read, but operators and names not
yet looked at. Nested texts are read by a given reader.
-/

namespace ExactFormula

inductive Piece
  | operator (symbol : List Char)
  | name (text : String)
  | bracketName (text : String)
  | operand (a : Operand)

abbrev Reading := Caching FormulaError

/-- Reads a nested text, with a plan of its own or without one. -/
abbrev NestedReader := (planned : Bool) → List Char → Reading Formula

/-- What a reading needs to know: the settings and their identity in caches. -/
structure ReadingEnv where
  settings : Settings
  id : Nat

/-! ## Embedded literals -/

/-- Stands in front of the bare values of a literal, which are formulas. -/
def literalMarker : List Char := ['\x1f', '#']

inductive LiteralFault
  | notRelaxed
  | formula (e : FormulaError)

namespace Literal

/-- Text that reads as a decimal is that number. -/
def plainValue (s : String) : Value :=
  if Decimal.isNumeral s.toList then
    match Decimal.parse s with
    | .ok d => .number d
    | .error _ => .string s
  else .string s

/-- The text behind the marker, if there is one. -/
def marked? (s : String) : Option (List Char) :=
  if literalMarker.isPrefixOf s.toList then some (s.toList.drop literalMarker.length) else none

/-- A marked text that is no formula stays text; only nesting too deep is an error. -/
def ofMarked (read : List Char → Reading Formula) (source : List Char) : Reading Literal := do
  match ← Caching.outcome (read source) with
  | .ok f => return .formula f (String.ofList source)
  | .error (.nestingTooDeep limit) => throw (.nestingTooDeep limit)
  | .error _ => return .value (.string (String.ofList source))

mutual
def ofJson (read : List Char → Reading Formula) : Json → Reading Literal
  | .string s =>
    match marked? s with
    | some source => ofMarked read source
    | none => return .value (plainValue s)
  | .array items => do return .array (← ofItems read items)
  | .object members => do return .object (← ofMembers read members)
  | .null => return .value .null
  | .bool b => return .value (.bool b)
  | .number n => return .value (Value.ofNumber n)

def ofItems (read : List Char → Reading Formula) : List Json → Reading (List Literal)
  | [] => return []
  | j :: js => do return (← ofJson read j) :: (← ofItems read js)

def ofMembers (read : List Char → Reading Formula) :
    List (String × Json) → Reading (List (String × Literal))
  | [] => return []
  | (k, j) :: ms => do return (k, ← ofJson read j) :: (← ofMembers read ms)
end

def build (env : ReadingEnv) (nested : NestedReader) (text : List Char) : Caching LiteralFault Literal :=
  match Relaxed.parseChars literalMarker env.settings.wrapCalls text with
  | .ok json => ExceptT.adapt .formula (ofJson (nested env.settings.compile) json)
  | .error _ => throw .notRelaxed

end Literal

/-- The tree of a literal, or its text when that is no relaxed document. -/
def embeddedLiteral (env : ReadingEnv) (nested : NestedReader) (source : List Char) : Reading Operand := do
  match ← Caching.outcome (Cache.literal env.id source (Literal.build env nested)) with
  | .ok (serial, tree) => return .literal serial tree
  | .error .notRelaxed => return .text (String.ofList (Text.trim source))
  | .error (.formula e) => throw e

namespace Piece

/-! ## Words and quotations -/

def isNameChar (c : Char) : Bool :=
  Text.isWordChar c || c == '$' || c == '#' || c == '.' || c == '@' || c == ':'

/-- A word is a number, a constant or a name. -/
def ofWord (s : Settings) (text : List Char) : Except FormulaError Piece :=
  if Decimal.isNumeral text then
    match Decimal.parseChars text with
    | .ok d => .ok (operand (.constant (.number d)))
    | .error _ => .error (.invalidToken (String.ofList text))
  else match s.constants.get? (String.ofList text) with
    | some v => .ok (operand (.constant v))
    | none =>
      if text.all isNameChar then .ok (name (String.ofList text))
      else .error (.invalidToken (String.ofList text))

/-- A quoted decimal is a number. -/
def ofQuoted (content : List Char) : Operand :=
  if Decimal.isNumeral content then
    match Decimal.parseChars content with
    | .ok d => .constant (.number d)
    | .error _ => .text (String.ofList content)
  else .text (String.ofList content)

/-! ## Groups and calls -/

def readArgs (nested : NestedReader) (function : String) (index : Nat) :
    List (List Char) → Reading (List Formula)
  | [] => return []
  | text :: texts => do
    if (Text.trim text).isEmpty then
      throw (.invalidArguments function ("argument " ++ toString index ++ " is empty"))
    return (← nested false text) :: (← readArgs nested function (index + 1) texts)

def readCall (env : ReadingEnv) (nested : NestedReader) (function : String) (inner : List Char) :
    Reading Operand := do
  match env.settings.functions.get? function with
  | none => throw (.unknownFunction function)
  | some f =>
    let texts := if (Text.trim inner).isEmpty then [] else Lexeme.splitArgs inner
    match f.arityFault? texts.length with
    | some reason => throw (.invalidArguments function reason)
    | none => return .call function f.run (← readArgs nested function 1 texts)

def readGroup (nested : NestedReader) (inner : List Char) : Reading Operand := do
  if (Text.trim inner).isEmpty then throw .emptyExpression
  return .group (← nested false inner)

/-- Adds what a lexeme stands for to the pieces before it, the last one first. Parentheses behind a
name are a call. -/
def add (env : ReadingEnv) (nested : NestedReader) (pieces : List Piece) : Lexeme → Reading (List Piece)
  | .word text => do return (← ofWord env.settings text) :: pieces
  | .operator symbol => return operator symbol :: pieces
  | .quoted content => return operand (ofQuoted content) :: pieces
  | .parens inner =>
    match pieces with
    | name function :: pieces => do return operand (← readCall env nested function inner) :: pieces
    | _ => do return operand (← readGroup nested inner) :: pieces
  | .brackets inner =>
    if Lexeme.isBracketName inner then return bracketName (String.ofList (Text.trim inner)) :: pieces
    else do return operand (← embeddedLiteral env nested ('[' :: (inner ++ [']']))) :: pieces
  | .braces inner => do return operand (← embeddedLiteral env nested ('{' :: (inner ++ ['}']))) :: pieces
  | .unmatched delimiter => throw (.unmatchedDelimiter delimiter)

def addAll (env : ReadingEnv) (nested : NestedReader) (pieces : List Piece) :
    List Lexeme → Reading (List Piece)
  | [] => return pieces.reverse
  | l :: ls => do addAll env nested (← add env nested pieces l) ls

/-! ## Operators and references -/

def readReference (env : ReadingEnv) (name : String) : Reading Reference := do
  if env.settings.tokenPattern.any (!·.foundIn name) then throw (.invalidReference name)
  match env.settings.reference with
  | some factory => return ⟨name, .custom (← Cache.resolver env.id name factory)⟩
  | none => return ⟨name, .lookup env.settings.default⟩

/-- The part that an operator is, in the place of an operand or between two. -/
def operatorPart {α : Type} (operandExpected : Bool) (symbol : List Char) : Except FormulaError (Part α) :=
  match operandExpected, UnaryOp.ofChars? symbol, BinaryOp.ofChars? symbol with
  | true, some op, _ => .ok (.unary op)
  | false, _, some op => .ok (.binary op)
  | true, none, some _ => .error (.operatorPosition (String.ofList symbol))
  | false, some _, none => .error (.operatorPosition (String.ofList symbol))
  | _, none, none => .error (.unknownOperator (String.ofList symbol))

/-- The parts that the pieces are. `first` is true before the first of them. -/
def arrange (env : ReadingEnv) (first operandExpected : Bool) : List Piece → Reading (List (Part Operand))
  | [] =>
    if first then throw .emptyExpression
    else if operandExpected then throw .trailingOperator
    else return []
  | operator symbol :: pieces => do
    let part ← operatorPart operandExpected symbol
    return part :: (← arrange env false true pieces)
  | name text :: pieces | bracketName text :: pieces => do
    let r ← readReference env text
    if !operandExpected then throw .missingOperator
    return .operand (.reference r) :: (← arrange env false false pieces)
  | operand a :: pieces => do
    if !operandExpected then throw .missingOperator
    return .operand a :: (← arrange env false false pieces)

end Piece

end ExactFormula
