import ExactFormula.Cache.Basic
import ExactFormula.Settings

/-!
Texts that show how values, formulas, plans, settings and caches are built, in one line each.
-/

namespace ExactFormula.Inspection

/-- Control characters are escaped; the quote and the backslash have a backslash in front. -/
def escape (c : Char) : List Char :=
  if c == '"' then ['\\', '"']
  else if c == '\\' then ['\\', '\\']
  else if c == '\n' then ['\\', 'n']
  else if c == '\r' then ['\\', 'r']
  else if c == '\t' then ['\\', 't']
  else if c.toNat == 0 then ['\\', '0']
  else if c.toNat < 0x20 || c.toNat == 0x7f then "\\u\x7b".toList ++ Nat.toDigits 16 c.toNat ++ ['}']
  else [c]

def text (s : String) : String := String.ofList ('"' :: (s.toList.flatMap escape ++ ['"']))

def list (items : List String) : String := "[" ++ ", ".intercalate items ++ "]"

def braced (members : List (String × String)) : String :=
  "\x7b" ++ ", ".intercalate (members.map fun (k, v) => k ++ ": " ++ v) ++ "\x7d"

def record (name : String) (fields : List (String × String)) : String :=
  name ++ " \x7b " ++ ", ".intercalate (fields.map fun (k, v) => k ++ ": " ++ v) ++ " \x7d"

def option {α : Type} (inspect : α → String) : Option α → String
  | none => "None"
  | some a => "Some(" ++ inspect a ++ ")"

def bool (b : Bool) : String := if b then "true" else "false"

mutual
def value : Value → String
  | .null => "Null"
  | .bool b => "Bool(" ++ bool b ++ ")"
  | .number d => "Number(ScaledDecimal(" ++ d.toText ++ "))"
  | .string s => "String(" ++ text s ++ ")"
  | .array items => "Array(" ++ list (values items) ++ ")"
  | .object members => "Object(" ++ braced (valueMembers members) ++ ")"

def values : List Value → List String
  | [] => []
  | v :: vs => value v :: values vs

def valueMembers : List (String × Value) → List (String × String)
  | [] => []
  | (k, v) :: ms => (text k, value v) :: valueMembers ms
end

def formula (f : Formula) : String :=
  record "Expression" [("source", text f.source), ("numeric", bool f.numeric),
    ("plan", option (fun p => toString p.code.length) f.plan)]

mutual
def literal : Literal → String
  | .value v => "Literal(" ++ value v ++ ")"
  | .array items => "Array(" ++ list (literals items) ++ ")"
  | .object members => "Object(" ++ braced (literalMembers members) ++ ")"
  | .formula f source => record "Expr" [("expression", formula f), ("source", text source)]

def literals : List Literal → List String
  | [] => []
  | l :: ls => literal l :: literals ls

def literalMembers : List (String × Literal) → List (String × String)
  | [] => []
  | (k, l) :: ms => (text k, literal l) :: literalMembers ms
end

def single : Single → String
  | .reference name => "Reference(" ++ text name ++ ")"
  | .value v => "Value(" ++ value v ++ ")"
  | .literal _ tree => "Tree(" ++ literal tree ++ ")"

def binaryOp : BinaryOp → String
  | .power => "Power"
  | .multiply => "Multiply"
  | .divide => "Divide"
  | .modulo => "Modulo"
  | .add => "Add"
  | .subtract => "Subtract"
  | .less => "Less"
  | .lessEqual => "LessEqual"
  | .greater => "Greater"
  | .greaterEqual => "GreaterEqual"
  | .equal => "Equal"
  | .notEqual => "NotEqual"
  | .and => "And"
  | .or => "Or"
  | .coalesce => "Coalesce"

def unaryOp : UnaryOp → String
  | .not => "Not"
  | .negate => "Negate"
  | .plus => "Plus"

/-- A jump shows the place where it ends. -/
def instr (place : Nat) : Instr → String
  | .const i => "Const(" ++ toString i ++ ")"
  | .load i => "Load(" ++ toString i ++ ")"
  | .call f argc => record "Call" [("function", toString f), ("argc", toString argc)]
  | .tree i => "Tree(" ++ toString i ++ ")"
  | .unary op => "Unary(" ++ unaryOp op ++ ")"
  | .binary op => "Binary(" ++ binaryOp op ++ ")"
  | .shortCircuit op skip =>
    record "ShortCircuit" [("op", binaryOp op), ("end", toString (place + 1 + skip))]
  | .settle op => "Settle(" ++ binaryOp op ++ ")"

def reference (r : Reference) : String :=
  record "Reference" [("name", text r.name), ("custom", bool r.isCustom)]

def plan {τ : Type} (p : Plan τ) : String :=
  record "Program" [("code", list (p.code.zipIdx.map fun (i, place) => instr place i)),
    ("constants", list (p.constants.map value)), ("references", list (p.references.map reference)),
    ("functions", list (p.functions.map fun (name, _) => text name)),
    ("trees", toString p.trees.length), ("numeric", bool p.numeric)]

def settings (s : Settings) : String :=
  record "FormulaSettings" [("functions", list (s.functions.names.map text)),
    ("constants", braced (s.constants.map fun (k, v) => (text k, value v))),
    ("reference", bool s.reference.isSome), ("numeric_mode", bool s.numeric),
    ("compile", bool s.compile), ("token_pattern", option (fun p => text p.source) s.tokenPattern),
    ("default_value", option value s.default), ("wrap_function_calls", bool s.wrapCalls)]

def stats (s : CacheStats) : String :=
  record "CacheStats" [("literal_hits", toString s.literalHits), ("literal_misses", toString s.literalMisses),
    ("resolver_hits", toString s.resolverHits), ("resolver_misses", toString s.resolverMisses),
    ("evictions", toString s.evictions)]

def cache (c : Cache) : String :=
  "ParseCache \x7b capacity: " ++ toString c.capacity ++ ", stats: " ++ stats c.stats ++ ", .. \x7d"

end ExactFormula.Inspection
