import ExactFormula.Decimal.Power
import ExactFormula.Error
import ExactFormula.Json.Basic

/-!
The values that formulas compute, their readings as number, truth and text, and the contexts that
give them names.
-/

namespace ExactFormula

inductive Value
  | null
  | bool (b : Bool)
  | number (d : Decimal)
  | string (s : String)
  | array (items : List Value)
  | object (members : List (String × Value))
  deriving Inhabited

namespace Value

def isNull : Value → Bool
  | null => true
  | _ => false

def isScalar : Value → Bool
  | array _ | object _ => false
  | _ => true

/-- The kind of a value, as error texts and formulas name it. -/
def kind : Value → String
  | null => "null"
  | bool _ => "boolean"
  | number _ => "number"
  | string _ => "string"
  | array _ => "array"
  | object _ => "object"

/-- The numeric reading; nothing for null, structures and text that is no decimal. -/
def number? : Value → Option Decimal
  | number d => some d
  | bool true => some .one
  | bool false => some .zero
  | string s => (Decimal.parse s).toOption
  | _ => none

def toNumber (v : Value) : Decimal := v.number?.getD .zero

def isTruthy : Value → Bool
  | null => false
  | bool b => b
  | number d => !d.isZero
  | string s => !s.isEmpty
  | array _ | object _ => true

mutual
/-- Equality that does not see the order of members. -/
def same : Value → Value → Bool
  | null, null => true
  | bool a, bool b => a == b
  | number a, number b => a == b
  | string a, string b => a == b
  | array as, array bs => sameItems as bs
  | object as, object bs => as.length == bs.length && sameMembers as bs
  | _, _ => false

def sameItems : List Value → List Value → Bool
  | [], [] => true
  | a :: as, b :: bs => same a b && sameItems as bs
  | _, _ => false

/-- Whether each of the first members has an equal one of its name among the second. -/
def sameMembers : List (String × Value) → List (String × Value) → Bool
  | [], _ => true
  | (k, a) :: as, bs =>
    (match Entries.get? k bs with
      | some b => same a b
      | none => false) && sameMembers as bs
end

/-! ## Written forms -/

mutual
def chars : Value → List Char
  | null => Json.nullChars
  | bool b => Json.boolChars b
  | number d => d.chars
  | string s => Text.quote s.toList
  | array items => '[' :: (itemChars items ++ [']'])
  | object members => '{' :: (memberChars members ++ ['}'])

def itemChars : List Value → List Char
  | [] => []
  | [v] => chars v
  | v :: vs => chars v ++ ',' :: ' ' :: itemChars vs

def memberChars : List (String × Value) → List Char
  | [] => []
  | [(k, v)] => Text.quote k.toList ++ ':' :: ' ' :: chars v
  | (k, v) :: ms => Text.quote k.toList ++ ':' :: ' ' :: (chars v ++ ',' :: ' ' :: memberChars ms)
end

/-- The written form, in which strings are quoted. -/
def display (v : Value) : String := String.ofList v.chars

/-- The bare text of a value: a string is itself and null is empty. -/
def toText : Value → String
  | null => ""
  | string s => s
  | v => v.display

/-! ## JSON -/

/-- A whole number that fits 64 bits stays exact, another becomes the nearest binary number, and one
past the binary range its text. -/
def numberJson (d : Decimal) : Json :=
  match d.toInt64? with
  | some i => .number (.integer i.toInt)
  | none => if d.toBinary64.isFinite then .number (.binary d.toBinary64) else .string d.toText

mutual
def toJson : Value → Json
  | null => .null
  | bool b => .bool b
  | number d => numberJson d
  | string s => .string s
  | array items => .array (itemsToJson items)
  | object members => .object (membersToJson members)

def itemsToJson : List Value → List Json
  | [] => []
  | v :: vs => toJson v :: itemsToJson vs

def membersToJson : List (String × Value) → List (String × Json)
  | [] => []
  | (k, v) :: ms => (k, toJson v) :: membersToJson ms
end

/-- A JSON number is read through its text. -/
def ofNumber (n : Json.Number) : Value :=
  match Decimal.parseChars n.chars with
  | .ok d => number d
  | .error _ => string (String.ofList n.chars)

mutual
def ofJson : Json → Value
  | .null => null
  | .bool b => bool b
  | .number n => ofNumber n
  | .string s => string s
  | .array items => array (ofItems items)
  | .object members => object (ofMembers members)

def ofItems : List Json → List Value
  | [] => []
  | j :: js => ofJson j :: ofItems js

def ofMembers : List (String × Json) → List (String × Value)
  | [] => []
  | (k, j) :: ms => (k, ofJson j) :: ofMembers ms
end

/-- The number written by a text. -/
def parseNumber (text : String) : Except FormulaError Value :=
  (FormulaError.ofDecimal (Decimal.parse text)).map number

/-- A binary number by its shortest digits; null when it is not finite. -/
def ofBinary64 (x : Binary64) : Value :=
  match Decimal.ofBinary64 x with
  | .ok d => number d
  | .error _ => null

end Value

/-! ## Contexts -/

/-- The named values that a formula is evaluated with. -/
structure Context where
  values : Entries Value
  deriving Inhabited

namespace Context

def empty : Context := ⟨[]⟩

def get? (name : String) (ctx : Context) : Option Value := ctx.values.get? name

def contains (name : String) (ctx : Context) : Bool := ctx.values.contains name

def insert (name : String) (value : Value) (ctx : Context) : Context := ⟨ctx.values.put name value⟩

def size (ctx : Context) : Nat := ctx.values.length

theorem get?_insert (name n : String) (v : Value) (ctx : Context) :
    (ctx.insert n v).get? name = if name = n then some v else ctx.get? name :=
  Entries.get?_put name n v ctx.values

def ofJson (j : Json) : Except FormulaError Context :=
  match Value.ofJson j with
  | .object members => .ok ⟨members⟩
  | v => .error (.invalidContext ("expected a JSON object, found " ++ v.kind))

end Context

abbrev Outcome := Except FormulaError Value

/-- What a call runs. -/
abbrev Function := List Value → Context → Outcome

end ExactFormula
