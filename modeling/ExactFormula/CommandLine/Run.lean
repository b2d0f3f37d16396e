import ExactFormula.CommandLine.Command
import ExactFormula.Workspace

/-!
What a command prints and the status it ends with, given the files that it may read and its input.
-/

namespace ExactFormula.CommandLine

/-- A failure with what led to it, the outermost reason first. -/
structure Failure where
  reason : String
  causes : List String

structure Printed where
  output : String
  errors : String

/-- What a command reads: files by name, where a missing one cannot be read, and the standard input. -/
structure Source where
  file : String → Option String
  input : String

abbrev Run := Except Failure

def fail {α : Type} (reason : String) (causes : List String) : Run α := .error ⟨reason, causes⟩

def jsonCause : Json.Fault → String
  | .truncated => "the text ends inside a JSON value"
  | .malformed => "the text is not JSON"

def formulaCauses (e : FormulaError) : List String :=
  match e with
  | .arithmetic cause => [e.message, cause.message]
  | _ => [e.message]

/-- The result of a step that fails for a given reason. -/
def orFail {α : Type} (reason : String) (r : Except FormulaError α) : Run α :=
  r.mapError fun e => ⟨reason, formulaCauses e⟩

def readOptions (source : Source) : Option String → Run Options
  | none => .ok {}
  | some path =>
    match source.file path with
    | none => fail ("Failed to read options '" ++ path ++ "'") []
    | some text =>
      match Options.parse text with
      | .ok o => .ok o
      | .error (.json fault) => fail ("Invalid options in '" ++ path ++ "'") [jsonCause fault]
      | .error .mismatch => fail ("Invalid options in '" ++ path ++ "'") ["an option has an invalid value"]

def readContext (source : Source) : Option String → Run Context
  | none => .ok .empty
  | some path =>
    match source.file path with
    | none => fail ("Failed to read context '" ++ path ++ "'") []
    | some text =>
      match Json.parse text with
      | .error fault => fail ("Invalid JSON in '" ++ path ++ "'") [jsonCause fault]
      | .ok json => orFail ("Invalid context in '" ++ path ++ "'") (Context.ofJson json)

/-- Sets a variable from `NAME=VALUE`; the value is JSON, or else a string. -/
def setVariable (ctx : Context) (variable_ : String) : Run Context :=
  let cs := variable_.toList
  if !cs.contains '=' then fail ("Expected NAME=VALUE, got '" ++ variable_ ++ "'") []
  else
    let name := String.ofList (Text.trim (cs.takeWhile (· != '=')))
    let raw := String.ofList ((cs.dropWhile (· != '=')).drop 1)
    let value := match Json.parse raw with
      | .ok json => Value.ofJson json
      | .error _ => .string raw
    .ok (ctx.insert name value)

def readFormulaText (o : Options) (formula : String) : Run Formula := do
  let settings ← orFail "Failed to configure formula engine" (o.toSettings Builtin.table)
  let (engine, w) := Workspace.empty.addLoneEngine settings o.cacheCapacity
  let engine ← orFail "Failed to configure formula engine" engine
  orFail ("Failed to parse '" ++ formula ++ "'") (w.read engine formula).1

def lines (ls : List String) : String := String.join (ls.map (· ++ "\n"))

def referencesLine (f : Formula) : String :=
  "References: " ++ if f.references.isEmpty then "none" else ", ".intercalate f.references

def singleLines (f : Formula) : List String :=
  match f.single with
  | some (.reference name) => ["Single reference: " ++ name]
  | some (.value v) => ["Single value: " ++ v.display]
  | some (.literal _ _) => ["Single literal"]
  | none => []

def planLine (f : Formula) : String :=
  match f.plan with
  | none => "Plan: none (interpreted)"
  | some p =>
    if p.isConstant then "Plan: folded to a constant"
    else "Plan: " ++ toString p.code.length ++ " instructions"

namespace Command

/-- The files that a command reads, in order. -/
def files : Command → List String
  | eval _ context options _ _ _ _ => options.toList ++ context.toList
  | check _ options => options.toList
  | _ => []

def readsInput : Command → Bool
  | normalize none _ _ _ => true
  | _ => false

def run (source : Source) : Command → Run Printed
  | version => .ok ⟨lines [versionText], ""⟩
  | help text => .ok ⟨text, ""⟩
  | eval formula context options assignments legacy noCompile json => do
    let o ← readOptions source options
    let o := { o with numericMode := o.numericMode && !legacy, compile := o.compile && !noCompile }
    let ctx ← assignments.foldlM setVariable (← readContext source context)
    let f ← readFormulaText o formula
    let v ← orFail "Evaluation failed" (f.evaluate ctx)
    return ⟨lines [if json then v.toJson.toIndented else v.display], ""⟩
  | check formula options => do
    let f ← readFormulaText (← readOptions source options) formula
    return ⟨lines (referencesLine f :: singleLines f), lines [planLine f]⟩
  | normalize text marker wrap pretty => do
    let text := text.getD source.input
    if !pretty then return ⟨lines [Relaxed.normalize text marker wrap], ""⟩
    match Relaxed.parse text marker wrap with
    | .ok json => return ⟨lines [json.toIndented], ""⟩
    | .error fault => fail "Normalized text is not valid JSON" [jsonCause fault]

end Command

def causeLines : List String → List String
  | [] => []
  | [cause] => ["", "Caused by:", "    " ++ cause]
  | causes => "" :: "Caused by:" :: causes.zipIdx.map fun (cause, i) => "    " ++ toString i ++ ": " ++ cause

def Failure.text (f : Failure) : String := lines (("Error: " ++ f.reason) :: causeLines f.causes)

/-- The status of the whole program: 0 after success, 1 after a failure, 2 for wrong arguments. -/
structure Exit where
  status : Nat
  printed : Printed

def usageText : String :=
  "error: invalid arguments\n\nUsage: scalc <COMMAND>\n\nFor more information, try '--help'.\n"

def exitOf (source : Source) : Option Command → Exit
  | none => ⟨2, "", usageText⟩
  | some command =>
    match command.run source with
    | .ok printed => ⟨0, printed⟩
    | .error failure => ⟨1, "", failure.text⟩

end ExactFormula.CommandLine
