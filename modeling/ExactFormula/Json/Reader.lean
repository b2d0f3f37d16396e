import ExactFormula.Json.Token

/-!
JSON values from tokens. The reader keeps the open arrays and objects on a stack, which has to stay
below a limit.
-/

namespace ExactFormula.Json

/-- An array or object that is still open, with what it holds so far; the latest item comes first. -/
inductive Frame
  | array (items : List Json)
  | object (members : Entries Json) (key : String)

/-- What may come next; `next v` when the value `v` has just ended. -/
inductive Expect
  | value
  | firstItem
  | firstKey
  | key
  | colon
  | next (v : Json)

abbrev Place := Expect × List Frame

def startValue (limit : Nat) (outer : List Frame) (t : Token) : Except Fault Place :=
  match t with
  | .null => .ok (.next .null, outer)
  | .bool b => .ok (.next (.bool b), outer)
  | .number text =>
    match Number.ofText? text with
    | some n => .ok (.next (.number n), outer)
    | none => .error .malformed
  | .string (.ok s) => .ok (.next (.string (String.ofList s)), outer)
  | .string (.error fault) => .error fault
  | .broken _ fault _ => .error fault
  | .openBracket =>
    if limit ≤ outer.length + 1 then .error .malformed else .ok (.firstItem, .array [] :: outer)
  | .openBrace =>
    if limit ≤ outer.length + 1 then .error .malformed else .ok (.firstKey, .object [] "" :: outer)
  | _ => .error .malformed

def startKey (members : Entries Json) (outer : List Frame) (t : Token) : Except Fault Place :=
  match t with
  | .string (.ok key) => .ok (.colon, .object members (String.ofList key) :: outer)
  | .string (.error fault) => .error fault
  | .broken true fault _ => .error fault
  | _ => .error .malformed

/-- What one more token does. -/
def step (limit : Nat) : Expect → List Frame → Token → Except Fault Place
  | .value, outer, t => startValue limit outer t
  | .firstItem, .array _ :: outer, .closeBracket => .ok (.next (.array []), outer)
  | .firstItem, outer, t => startValue limit outer t
  | .firstKey, .object _ _ :: outer, .closeBrace => .ok (.next (.object []), outer)
  | .firstKey, .object members _ :: outer, t => startKey members outer t
  | .key, .object members _ :: outer, t => startKey members outer t
  | .colon, outer, .colon => .ok (.value, outer)
  | .next v, .array items :: outer, .comma => .ok (.value, .array (v :: items) :: outer)
  | .next v, .array items :: outer, .closeBracket => .ok (.next (.array (v :: items).reverse), outer)
  | .next v, .object members key :: outer, .comma => .ok (.key, .object (members.put key v) "" :: outer)
  | .next v, .object members key :: outer, .closeBrace =>
    .ok (.next (.object (members.put key v)), outer)
  | _, _, _ => .error .malformed

/-- Reads until the outermost value has ended; gives it and the tokens behind it. -/
def readFrom (limit : Nat) : Place → List Token → Except Fault (Json × List Token)
  | (.next v, []), ts => .ok (v, ts)
  | _, [] => .error .truncated
  | (expect, open_), t :: ts =>
    match step limit expect open_ t with
    | .ok place => readFrom limit place ts
    | .error fault => .error fault

def readValue (limit : Nat) (ts : List Token) : Except Fault (Json × List Token) :=
  readFrom limit (.value, []) ts

/-- A token as it counts in text that is skipped. -/
def Token.skipped : Token → Token
  | .number _ => .number ['0']
  | .string _ => .string (.ok [])
  | .broken isString _ fault => .broken isString fault fault
  | t => t

/-- The tokens behind the first value, which is not looked at closely and may nest to any depth. -/
def skipValue (ts : List Token) : Except Fault (List Token) :=
  (readValue (ts.length + 2) (ts.map Token.skipped)).map fun (_, rest) => ts.drop (ts.length - rest.length)

/-- Arrays and objects have to nest less deep than this. -/
def nestingLimit : Nat := 128

def ofTokens (ts : List Token) : Except Fault Json :=
  match readValue nestingLimit ts with
  | .ok (v, []) => .ok v
  | .ok (_, _ :: _) => .error .malformed
  | .error fault => .error fault

def ofChars (cs : List Char) : Except Fault Json := ofTokens (tokens cs)

def parse (text : String) : Except Fault Json := ofChars text.toList

example : ((parse "[1, -0, \"\\ud83d\\ude00\", \x7b\"a\": 1e2, \"b\": [], \"a\": null\x7d]").map toText).toOption
    = some "[1,-0.0,\"😀\",\x7b\"a\":null,\"b\":[]\x7d]" := by decide +kernel
example : ["[1,", "\"\\ud83d", "tru", "1.", ""].map (fun s => (parse s).map toText)
    = List.replicate 5 (.error .truncated) := by rfl
example : ["[1,]", "\"\\ud83dx", "trx", "1.x", "1 2"].map (fun s => (parse s).map toText)
    = List.replicate 5 (.error .malformed) := by rfl

end ExactFormula.Json
