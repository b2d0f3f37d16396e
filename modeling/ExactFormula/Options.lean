import ExactFormula.Cache.Basic
import ExactFormula.Json.Reader
import ExactFormula.Settings

/-!
Options: the part of the settings that is written as JSON, an object or the values alone in the order
of the fields. Unknown fields are skipped and missing ones have defaults.
-/

namespace ExactFormula

structure Options where
  numericMode : Bool := true
  compile : Bool := true
  wrapFunctionCalls : Bool := true
  constants : Entries Json := []
  tokenPattern : Option String := none
  defaultValue : Option Json := none
  cacheCapacity : Nat := Cache.defaultCapacity

/-- Text that is no JSON, or JSON of the wrong shape. -/
inductive OptionsFault
  | json (fault : Json.Fault)
  | mismatch
  deriving DecidableEq, Repr

namespace Options

inductive Field
  | numericMode
  | compile
  | wrapFunctionCalls
  | constants
  | tokenPattern
  | defaultValue
  | cacheCapacity
  deriving DecidableEq, Repr

def fields : List Field :=
  [.numericMode, .compile, .wrapFunctionCalls, .constants, .tokenPattern, .defaultValue, .cacheCapacity]

/-- The names under which a field may be given, the one it is written with first. -/
def Field.names : Field → List String
  | numericMode => ["numericMode", "evaluateNumbersAsStrings"]
  | compile => ["compile"]
  | wrapFunctionCalls => ["wrapFunctionCalls"]
  | constants => ["constants"]
  | tokenPattern => ["tokenPattern", "tokenRx"]
  | defaultValue => ["defaultValue"]
  | cacheCapacity => ["cacheCapacity"]

def Field.ofName? (name : String) : Option Field := fields.find? (·.names.contains name)

/-! ## Reading -/

abbrev Reader (α : Type) := Except OptionsFault α

def truncated {α : Type} : Reader α := .error (.json .truncated)

def malformed {α : Type} : Reader α := .error (.json .malformed)

def ofJson {α : Type} (r : Except Json.Fault α) : Reader α := r.mapError .json

/-- The fault of a value of another kind than the field wants: its own one if it has one. -/
def wrongKind {α : Type} (t : Json.Token) : Reader α :=
  match t with
  | .null | .bool _ | .openBrace | .openBracket => .error .mismatch
  | .number text => if (Json.Number.ofText? text).isSome then .error .mismatch else malformed
  | .string (.ok _) => .error .mismatch
  | .string (.error fault) => .error (.json fault)
  | .broken _ fault _ => .error (.json fault)
  | .closeBrace | .closeBracket | .colon | .comma => malformed

def readBool (t : Json.Token) : Reader Bool :=
  match t with
  | .bool b => .ok b
  | t => wrongKind t

def readString? (t : Json.Token) : Reader (Option String) :=
  match t with
  | .null => .ok none
  | .string (.ok s) => .ok (some (String.ofList s))
  | t => wrongKind t

/-- A whole number that is not negative. -/
def readCount (t : Json.Token) : Reader Nat :=
  match t with
  | .number text =>
    match Json.Number.ofText? text with
    | some (.integer (.ofNat n)) => .ok n
    | some _ => .error .mismatch
    | none => malformed
  | t => wrongKind t

/-- Reads the value of one field; it stands one level below the nesting limit. -/
def readField (o : Options) (field : Field) : List Json.Token → Reader (Options × List Json.Token)
  | [] => truncated
  | t :: ts =>
    match field with
    | .numericMode => (readBool t).map fun b => ({ o with numericMode := b }, ts)
    | .compile => (readBool t).map fun b => ({ o with compile := b }, ts)
    | .wrapFunctionCalls => (readBool t).map fun b => ({ o with wrapFunctionCalls := b }, ts)
    | .tokenPattern => (readString? t).map fun s => ({ o with tokenPattern := s }, ts)
    | .cacheCapacity => (readCount t).map fun n => ({ o with cacheCapacity := n }, ts)
    | .defaultValue => do
      let (v, ts) ← ofJson (Json.readValue (Json.nestingLimit - 1) (t :: ts))
      return ({ o with defaultValue := some v }, ts)
    | .constants =>
      match t with
      | .openBrace => do
        let (v, ts) ← ofJson (Json.readValue (Json.nestingLimit - 1) (t :: ts))
        match v with
        | .object members => return ({ o with constants := members }, ts)
        | _ => .error .mismatch
      | t => wrongKind t

/-- Reads a field behind its name. A field may be given once only. -/
def readNamed (o : Options) (seen : List Field) (name : String) (ts : List Json.Token) :
    Reader (Options × List Field × List Json.Token) := do
  let field := Field.ofName? name
  if field.any seen.contains then .error .mismatch
  let ts ← match ts with
    | .colon :: ts => .ok ts
    | [] => truncated
    | _ => malformed
  match field with
  | some field =>
    let (o, ts) ← readField o field ts
    return (o, field :: seen, ts)
  | none =>
    let ts ← ofJson (Json.skipValue ts)
    return (o, seen, ts)

def endOfText (o : Options) (ts : List Json.Token) : Reader Options := if ts.isEmpty then .ok o else malformed

def readMember (o : Options) (seen : List Field) : List Json.Token →
    Reader (Options × List Field × List Json.Token)
  | .string (.ok name) :: ts => readNamed o seen (String.ofList name) ts
  | .string (.error fault) :: _ => .error (.json fault)
  | .broken true fault _ :: _ => .error (.json fault)
  | [] => truncated
  | _ => malformed

/-- Reads the members of an object. Each takes at least one token, so `budget` need not exceed their
number. -/
def readMembers : (budget : Nat) → Options → List Field → (first : Bool) → List Json.Token → Reader Options
  | 0, _, _, _, _ => truncated
  | _ + 1, _, _, _, [] => truncated
  | budget + 1, o, seen, first, t :: ts =>
    match t, first with
    | .closeBrace, _ => endOfText o ts
    | .comma, false => do
      let (o, seen, ts) ← readMember o seen ts
      readMembers budget o seen false ts
    | t, true => do
      let (o, seen, ts) ← readMember o seen (t :: ts)
      readMembers budget o seen false ts
    | _, false => malformed

/-- Reads the values of the remaining fields, which stand in an array. -/
def readItems (o : Options) (first : Bool) : List Field → List Json.Token → Reader Options
  | _, [] => truncated
  | [], t :: ts =>
    match t with
    | .closeBracket => endOfText o ts
    | _ => malformed
  | field :: fields, t :: ts =>
    match t, first with
    | .closeBracket, _ => endOfText o ts
    | .comma, false =>
      match ts with
      | .closeBracket :: _ => malformed
      | ts => do
        let (o, ts) ← readField o field ts
        readItems o false fields ts
    | t, true => do
      let (o, ts) ← readField o field (t :: ts)
      readItems o false fields ts
    | _, false => malformed

def readTokens (ts : List Json.Token) : Reader Options :=
  match ts with
  | [] => truncated
  | .openBrace :: ts => readMembers (ts.length + 1) {} [] true ts
  | .openBracket :: ts => readItems {} true fields ts
  | t :: _ => wrongKind t

def parse (text : String) : Reader Options := readTokens (Json.tokens text.toList)

/-! ## Writing and use -/

def toJson (o : Options) : Json :=
  .object ([("numericMode", .bool o.numericMode), ("compile", .bool o.compile),
    ("wrapFunctionCalls", .bool o.wrapFunctionCalls), ("constants", .object o.constants),
    ("tokenPattern", match o.tokenPattern with
      | some p => .string p
      | none => .null)]
    ++ (match o.defaultValue with
      | some v => [("defaultValue", v)]
      | none => [])
    ++ [("cacheCapacity", .number (.integer o.cacheCapacity))])

def toSettings (o : Options) (functions : FunctionTable) : Except FormulaError Settings := do
  let pattern ← match o.tokenPattern with
    | none => .ok none
    | some source =>
      match Text.Pattern.compile? source with
      | some p => .ok (some p)
      | none => .error (.invalidPattern source)
  return {
    functions
    constants := o.constants.map fun (k, v) => (k, Value.ofJson v)
    numeric := o.numericMode
    compile := o.compile
    tokenPattern := pattern
    default := o.defaultValue.map Value.ofJson
    wrapCalls := o.wrapFunctionCalls }

example :
    ((parse "\x7b\"tokenRx\": \"^x$\", \"unknown\": [\"\\ud800\", 1e999], \"defaultValue\": null\x7d").toOption.map
      fun o => (o.tokenPattern, o.defaultValue.map Json.toText)) = some (some "^x$", some "null") := by
  decide +kernel
example : (parse "\x7b\"compile\": 1\x7d").toOption.isNone = true := by decide +kernel

end Options

end ExactFormula
