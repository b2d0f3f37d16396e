import ExactFormula.Binary64.Shortest
import ExactFormula.Entries
import ExactFormula.Text.Quoted

/-!
JSON values and their text, compact or indented. A number is a whole number that fits 64 bits, or a
binary one. Members keep their order.
-/

namespace ExactFormula

inductive Json.Number
  | integer (i : Int)
  | binary (x : Binary64)
  deriving DecidableEq, Repr

inductive Json
  | null
  | bool (b : Bool)
  | number (n : Json.Number)
  | string (s : String)
  | array (items : List Json)
  | object (members : List (String × Json))
  deriving Inhabited

namespace Json

def Number.chars : Number → List Char
  | .integer i => (if i < 0 then ['-'] else []) ++ Nat.toDigits 10 i.natAbs
  | .binary x => x.jsonChars

def boolChars (b : Bool) : List Char := if b then ['t', 'r', 'u', 'e'] else ['f', 'a', 'l', 's', 'e']

def nullChars : List Char := ['n', 'u', 'l', 'l']

mutual
def chars : Json → List Char
  | null => nullChars
  | bool b => boolChars b
  | number n => n.chars
  | string s => Text.quote s.toList
  | array items => '[' :: (itemChars items ++ [']'])
  | object members => '{' :: (memberChars members ++ ['}'])

def itemChars : List Json → List Char
  | [] => []
  | [j] => chars j
  | j :: js => chars j ++ ',' :: itemChars js

def memberChars : List (String × Json) → List Char
  | [] => []
  | [(k, j)] => Text.quote k.toList ++ ':' :: chars j
  | (k, j) :: ms => Text.quote k.toList ++ ':' :: (chars j ++ ',' :: memberChars ms)
end

def toText (j : Json) : String := String.ofList j.chars

def newLine (level : Nat) : List Char := '\n' :: List.replicate (2 * level) ' '

mutual
def prettyChars (level : Nat) : Json → List Char
  | null => nullChars
  | bool b => boolChars b
  | number n => n.chars
  | string s => Text.quote s.toList
  | array [] => ['[', ']']
  | array (j :: js) =>
    '[' :: (newLine (level + 1) ++ prettyItems (level + 1) (j :: js) ++ newLine level ++ [']'])
  | object [] => ['{', '}']
  | object (m :: ms) =>
    '{' :: (newLine (level + 1) ++ prettyMembers (level + 1) (m :: ms) ++ newLine level ++ ['}'])

def prettyItems (level : Nat) : List Json → List Char
  | [] => []
  | [j] => prettyChars level j
  | j :: js => prettyChars level j ++ ',' :: (newLine level ++ prettyItems level js)

def prettyMembers (level : Nat) : List (String × Json) → List Char
  | [] => []
  | [(k, j)] => Text.quote k.toList ++ ':' :: ' ' :: prettyChars level j
  | (k, j) :: ms =>
    Text.quote k.toList ++ ':' :: ' ' :: (prettyChars level j ++ ',' :: (newLine level ++ prettyMembers level ms))
end

def toIndented (j : Json) : String := String.ofList (prettyChars 0 j)

def get? (name : String) : Json → Option Json
  | object members => Entries.get? name members
  | _ => none

example : (object [("a", array [number (.integer 1), null]), ("b", object [])]).toIndented
    = "\x7b\n  \"a\": [\n    1,\n    null\n  ],\n  \"b\": \x7b\x7d\n\x7d" := by rfl

end Json

end ExactFormula
