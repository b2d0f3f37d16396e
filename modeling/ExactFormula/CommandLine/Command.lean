import ExactFormula.CommandLine.Arguments

/-!
The commands of the command line and their help texts.
-/

namespace ExactFormula.CommandLine

inductive Command
  | eval (formula : String) (context options : Option String) (assignments : List String)
      (legacy noCompile json : Bool)
  | check (formula : String) (options : Option String)
  | normalize (text : Option String) (marker : String) (wrap pretty : Bool)
  | version
  | help (text : String)
  deriving DecidableEq, Repr

def programName : String := "scalc"

def versionText : String := programName ++ " 0.1.0"

def evalSpec : CommandSpec := {
  options := [⟨"context", some 'c', true, false, true⟩, ⟨"var", some 'v', true, true, false⟩,
    ⟨"legacy", none, false, false, false⟩, ⟨"no-compile", none, false, false, false⟩,
    ⟨"options", some 'o', true, false, true⟩, ⟨"json", none, false, false, false⟩]
  plainRequired := true }

def checkSpec : CommandSpec := {
  options := [⟨"options", some 'o', true, false, true⟩]
  plainRequired := true }

def normalizeSpec : CommandSpec := {
  options := [⟨"marker", some 'm', true, false, false⟩, ⟨"wrap", some 'w', false, false, false⟩,
    ⟨"pretty", some 'p', false, false, false⟩]
  plainRequired := false }

def mainHelp : String :=
  "Formula evaluator with exact decimal arithmetic\n\nUsage: scalc <COMMAND>\n\nCommands:\n"
    ++ "  eval       Evaluate a formula and print the result\n"
    ++ "  check      Parse a formula and list what it references\n"
    ++ "  normalize  Rewrite relaxed literal text as strict JSON\n"
    ++ "  help       Print this message or the help of the given subcommand(s)\n\nOptions:\n"
    ++ "  -h, --help     Print help\n  -V, --version  Print version\n"

def evalHelp : String :=
  "Evaluate a formula and print the result\n\nUsage: scalc eval [OPTIONS] <FORMULA>\n\nArguments:\n"
    ++ "  <FORMULA>  Formula text\n\nOptions:\n"
    ++ "  -c, --context <CONTEXT>  JSON file holding the context object\n"
    ++ "  -v, --var <NAME=VALUE>   Set a variable; the value is read as JSON, or taken as a string\n"
    ++ "      --legacy             Legacy semantics: `+` concatenates strings\n"
    ++ "      --no-compile         Always use the interpreter\n"
    ++ "  -o, --options <OPTIONS>  JSON options file (numericMode, constants, tokenRx, ...)\n"
    ++ "      --json               Print the result as JSON\n  -h, --help               Print help\n"

def checkHelp : String :=
  "Parse a formula and list what it references\n\nUsage: scalc check [OPTIONS] <FORMULA>\n\nArguments:\n"
    ++ "  <FORMULA>  Formula text\n\nOptions:\n  -o, --options <OPTIONS>  JSON options file\n"
    ++ "  -h, --help               Print help\n"

def normalizeHelp : String :=
  "Rewrite relaxed literal text as strict JSON\n\nUsage: scalc normalize [OPTIONS] [TEXT]\n\nArguments:\n"
    ++ "  [TEXT]  Text to normalize (default: stdin)\n\nOptions:\n"
    ++ "  -m, --marker <MARKER>  Marker put in front of bare values [default: ]\n"
    ++ "  -w, --wrap             Keep `name(...)` values whole\n"
    ++ "  -p, --pretty           Parse the result and pretty-print it\n"
    ++ "  -h, --help             Print help\n"

def helpFor? (command : String) : Option String :=
  [("eval", evalHelp), ("check", checkHelp), ("normalize", normalizeHelp)].lookup command

/-- The command that arguments ask for; nothing when they are wrong. -/
def ofSpec (spec : CommandSpec) (helpText : String) (make : Given → Command) (args : List String) :
    Option Command :=
  match readArguments spec args with
  | .ok g => some (make g)
  | .error .help => some (.help helpText)
  | .error .wrong => none

def evalCommand (g : Given) : Command :=
  .eval (g.plain.getD "") (g.value? "context") (g.value? "options") (g.values "var") (g.has "legacy")
    (g.has "no-compile") (g.has "json")

def checkCommand (g : Given) : Command := .check (g.plain.getD "") (g.value? "options")

def normalizeCommand (g : Given) : Command :=
  .normalize g.plain ((g.value? "marker").getD "") (g.has "wrap") (g.has "pretty")

def Command.ofArgs? : List String → Option Command
  | "eval" :: args => ofSpec evalSpec evalHelp evalCommand args
  | "check" :: args => ofSpec checkSpec checkHelp checkCommand args
  | "normalize" :: args => ofSpec normalizeSpec normalizeHelp normalizeCommand args
  | ["help"] => some (.help mainHelp)
  | ["help", command] => (helpFor? command).map .help
  | "--version" :: _ => some .version
  | "--help" :: _ => some (.help mainHelp)
  | arg :: _ =>
    match arg.toList with
    | '-' :: 'V' :: _ => some .version
    | '-' :: 'h' :: _ => some (.help mainHelp)
    | _ => none
  | [] => none

example : Command.ofArgs? ["eval", "x", "-vx=1", "--var=y=2", "-v", "z=3", "--legacy"]
    = some (.eval "x" none none ["x=1", "y=2", "z=3"] true false false) := by decide +kernel
example : Command.ofArgs? ["normalize", "-wpm=@", "--", "-a"] = some (.normalize (some "-a") "@" true true) := by
  decide +kernel
example : [["eval"], ["eval", "-1 + 2"], ["check", "a", "b"], ["eval", "a", "-c"], []].all
    (Command.ofArgs? · |>.isNone) = true := by decide +kernel

end ExactFormula.CommandLine
