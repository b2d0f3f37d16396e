import ExactFormula.Formula.Basic
import ExactFormula.Formula.Interpreter

/-!
Evaluation of formulas and embedded literals in a context, by the plan where there is one. Inside a
literal, a formula that mentions an unknown name evaluates to its own text.
-/

namespace ExactFormula

def Outcome.all : List Outcome → Except FormulaError (List Value)
  | [] => .ok []
  | r :: rs => do return (← r) :: (← all rs)

def Outcome.allMembers : List (String × Outcome) → Except FormulaError (List (String × Value))
  | [] => .ok []
  | (k, r) :: rs => do return (k, ← r) :: (← allMembers rs)

/-- An unknown name leaves the text as it was written. -/
def Outcome.orText (source : String) (r : Outcome) : Outcome :=
  match r with
  | .error (.unknownReference _) => .ok (.string source)
  | r => r

mutual
def Formula.evaluate (ctx : Context) : Formula → Outcome
  | ⟨_, parts, numeric, none⟩ => ExactFormula.interpret numeric (Part.evaluateAll ctx parts)
  | ⟨_, _, _, some ⟨code, constants, references, functions, trees, numeric⟩⟩ =>
    (⟨code, constants, references, functions, trees, numeric⟩ : Plan Literal).run ctx
      (Literal.evaluateAll ctx trees)

def Part.evaluateAll (ctx : Context) : List (Part Operand) → List (Part Outcome)
  | [] => []
  | p :: ps => Part.evaluate ctx p :: Part.evaluateAll ctx ps

def Part.evaluate (ctx : Context) : Part Operand → Part Outcome
  | .operand a => .operand (Operand.evaluate ctx a)
  | .unary op => .unary op
  | .binary op => .binary op

def Operand.evaluate (ctx : Context) : Operand → Outcome
  | .text s => .ok (.string s)
  | .constant v => .ok v
  | .reference r => r.resolve ctx
  | .call _ function args => do function (← Outcome.all (Formula.evaluateAll ctx args)) ctx
  | .group f => Formula.evaluate ctx f
  | .literal _ tree => Literal.evaluate ctx tree

def Formula.evaluateAll (ctx : Context) : List Formula → List Outcome
  | [] => []
  | f :: fs => Formula.evaluate ctx f :: Formula.evaluateAll ctx fs

def Literal.evaluate (ctx : Context) : Literal → Outcome
  | .value v => .ok v
  | .array items => (Outcome.all (Literal.evaluateAll ctx items)).map .array
  | .object members => (Outcome.allMembers (Literal.evaluateMembers ctx members)).map .object
  | .formula f source => (Formula.evaluate ctx f).orText source

def Literal.evaluateAll (ctx : Context) : List Literal → List Outcome
  | [] => []
  | l :: ls => Literal.evaluate ctx l :: Literal.evaluateAll ctx ls

def Literal.evaluateMembers (ctx : Context) : List (String × Literal) → List (String × Outcome)
  | [] => []
  | (k, l) :: ls => (k, Literal.evaluate ctx l) :: Literal.evaluateMembers ctx ls
end

/-- The outcome without the formula's own plan. -/
def Formula.interpret (ctx : Context) (f : Formula) : Outcome :=
  ExactFormula.interpret f.numeric (Part.evaluateAll ctx f.parts)

theorem Formula.evaluate_eq_interpret {ctx : Context} {f : Formula} (h : f.plan = none) :
    f.evaluate ctx = f.interpret ctx := by
  obtain ⟨source, parts, numeric, plan⟩ := f
  subst h
  simp [Formula.evaluate, Formula.interpret]

theorem Formula.evaluate_eq_run {ctx : Context} {f : Formula} {p : Plan Literal} (h : f.plan = some p) :
    f.evaluate ctx = p.run ctx (Literal.evaluateAll ctx p.trees) := by
  obtain ⟨source, parts, numeric, plan⟩ := f
  subst h
  obtain ⟨⟩ := p
  simp [Formula.evaluate]

end ExactFormula
