import ExactFormula.Formula.Piece
import ExactFormula.Formula.Planning

/-!
Reading of formulas. Groups, arguments and values of embedded literals are read in turn, to a bounded
depth. Groups and arguments get no plan of their own, as the plan around them holds their code.
-/

namespace ExactFormula

/-- Deepest nesting of groups, arguments and embedded literals. -/
def maxNesting : Nat := 128

/-- Reads a text that may hold `levels - 1` levels of nested texts. -/
def readFormula (env : ReadingEnv) : (levels : Nat) → (planned : Bool) → List Char → Reading Formula
  | 0, _, _ => throw (.nestingTooDeep maxNesting)
  | levels + 1, planned, text => do
    let pieces ← Piece.addAll env (readFormula env levels) [] (lexemes text)
    let parts ← Piece.arrange env true true pieces
    let s := env.settings
    let plan :=
      if planned && s.compile && (Single.ofParts parts).isNone then Plan.ofParts? s.numeric parts else none
    return ⟨String.ofList text, parts, s.numeric, plan⟩

def ReadingEnv.read (env : ReadingEnv) (text : String) : Reading Formula :=
  readFormula env (maxNesting + 1) true text.toList

/-- Reads a formula on its own, without a memory of earlier readings. -/
def Settings.read (s : Settings) (text : String) : Except FormulaError Formula :=
  ((ReadingEnv.read ⟨s, 0⟩ text).run (Cache.empty 0 0)).1

end ExactFormula
