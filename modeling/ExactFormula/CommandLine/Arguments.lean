/-!
Reading of command line arguments: options with long and short names, short ones possibly clustered,
`--` before arguments that are no options, and at most one plain argument.
-/

namespace ExactFormula.CommandLine

/-- An option takes a value or is a switch. A file name must not be empty. -/
structure OptionSpec where
  long : String
  short : Option Char
  takesValue : Bool
  repeatable : Bool
  isFile : Bool

structure CommandSpec where
  options : List OptionSpec
  plainRequired : Bool

/-- The options given, with an empty value for a switch, and the plain argument. -/
structure Given where
  options : List (String × String)
  plain : Option String
  deriving DecidableEq, Repr

inductive Usage
  | wrong
  | help
  deriving DecidableEq, Repr

namespace Given

def has (g : Given) (name : String) : Bool := g.options.any (·.1 == name)

def values (g : Given) (name : String) : List String :=
  g.options.filterMap fun (n, v) => if n == name then some v else none

def value? (g : Given) (name : String) : Option String := (g.values name).head?

def add (g : Given) (o : OptionSpec) (value : String) : Except Usage Given :=
  if (g.has o.long && !o.repeatable) || (o.isFile && value.isEmpty) then .error .wrong
  else .ok { g with options := g.options ++ [(o.long, value)] }

end Given

/-- What has been read so far; `pending` is an option whose value comes next. -/
structure ArgState where
  given : Given
  pending : Option OptionSpec
  onlyPlain : Bool

namespace ArgState

def plain (s : ArgState) (arg : String) : Except Usage ArgState :=
  if s.pending.isSome || s.given.plain.isSome then .error .wrong
  else .ok { s with given := { s.given with plain := some arg } }

def add (s : ArgState) (o : OptionSpec) (value : String) : Except Usage ArgState :=
  (s.given.add o value).map fun given => { s with given, pending := none }

def long (spec : CommandSpec) (s : ArgState) (body : List Char) : Except Usage ArgState :=
  let name := String.ofList (body.takeWhile (· != '='))
  let value := (body.dropWhile (· != '=')).drop 1
  let hasValue := body.contains '='
  if s.pending.isSome then .error .wrong
  else if name == "help" && !hasValue then .error .help
  else match spec.options.find? (·.long == name) with
    | none => .error .wrong
    | some o =>
      if o.takesValue then
        if hasValue then s.add o (String.ofList value) else .ok { s with pending := some o }
      else if hasValue then .error .wrong
      else s.add o ""

/-- A cluster of switches; the rest behind an option with a value is that value. -/
def short (spec : CommandSpec) (s : ArgState) : List Char → Except Usage ArgState
  | [] => .ok s
  | c :: cs =>
    if s.pending.isSome then .error .wrong
    else if c == 'h' then .error .help
    else match spec.options.find? (·.short == some c) with
      | none => .error .wrong
      | some o =>
        if !o.takesValue then do short spec (← s.add o "") cs
        else match cs with
          | [] => .ok { s with pending := some o }
          | '=' :: value => s.add o (String.ofList value)
          | value => s.add o (String.ofList value)

def step (spec : CommandSpec) (s : ArgState) (arg : String) : Except Usage ArgState :=
  if s.onlyPlain then s.plain arg
  else match arg.toList with
    | ['-', '-'] => .ok { s with onlyPlain := true }
    | '-' :: '-' :: body => s.long spec body
    | '-' :: c :: cs => s.short spec (c :: cs)
    | _ =>
      match s.pending with
      | some o => s.add o arg
      | none => s.plain arg

end ArgState

def readArguments (spec : CommandSpec) (args : List String) : Except Usage Given := do
  let s ← args.foldlM (ArgState.step spec) ⟨⟨[], none⟩, none, false⟩
  if s.pending.isSome || (spec.plainRequired && s.given.plain.isNone) then throw .wrong
  return s.given

end ExactFormula.CommandLine
