import ExactFormula.Formula.Tree
import ExactFormula.Plan.Basic

/-!
Formulas that have been read: a row of operands and operators, with a plan where one was made. An
operand may hold formulas of its own, as a group, as the arguments of a call, or as values of an
embedded literal.
-/

namespace ExactFormula

/-- Tells apart trees that were built apart: the cache they were built for, and a number there. -/
abbrev Serial := Nat × Nat

mutual
structure Formula where
  source : String
  parts : List (Part Operand)
  numeric : Bool
  plan : Option (Plan Literal)

inductive Operand
  | text (s : String)
  | constant (v : Value)
  | reference (r : Reference)
  | call (name : String) (function : Function) (args : List Formula)
  | group (f : Formula)
  | literal (serial : Serial) (tree : Literal)

inductive Literal
  | value (v : Value)
  | array (items : List Literal)
  | object (members : List (String × Literal))
  | formula (f : Formula) (source : String)
end

/-- A formula that is one operand and nothing else. -/
inductive Single
  | reference (name : String)
  | value (v : Value)
  | literal (serial : Serial) (tree : Literal)

def Single.ofParts : List (Part Operand) → Option Single
  | [.operand (.reference r)] => some (.reference r.name)
  | [.operand (.text s)] => some (.value (.string s))
  | [.operand (.constant v)] => some (.value v)
  | [.operand (.literal serial tree)] => some (.literal serial tree)
  | _ => none

def Formula.single (f : Formula) : Option Single := Single.ofParts f.parts

/-! ## Literals without formulas -/

mutual
def Literal.isConstant : Literal → Bool
  | .value _ => true
  | .array items => Literal.areConstant items
  | .object members => Literal.areMembersConstant members
  | .formula _ _ => false

def Literal.areConstant : List Literal → Bool
  | [] => true
  | l :: ls => l.isConstant && Literal.areConstant ls

def Literal.areMembersConstant : List (String × Literal) → Bool
  | [] => true
  | (_, l) :: ls => l.isConstant && Literal.areMembersConstant ls
end

/-! ## Names that a formula refers to -/

mutual
def Formula.mentions : Formula → List String
  | ⟨_, parts, _, _⟩ => Part.mentionsAll parts

def Part.mentionsAll : List (Part Operand) → List String
  | [] => []
  | p :: ps => p.mentions ++ Part.mentionsAll ps

def Part.mentions : Part Operand → List String
  | .operand a => a.mentions
  | .unary _ => []
  | .binary _ => []

def Operand.mentions : Operand → List String
  | .text _ => []
  | .constant _ => []
  | .reference r => [r.name]
  | .call _ _ args => Formula.mentionsAll args
  | .group f => f.mentions
  | .literal _ tree => tree.mentions

def Formula.mentionsAll : List Formula → List String
  | [] => []
  | f :: fs => f.mentions ++ Formula.mentionsAll fs

def Literal.mentions : Literal → List String
  | .value _ => []
  | .array items => Literal.mentionsAll items
  | .object members => Literal.mentionsMembers members
  | .formula f _ => f.mentions

def Literal.mentionsAll : List Literal → List String
  | [] => []
  | l :: ls => l.mentions ++ Literal.mentionsAll ls

def Literal.mentionsMembers : List (String × Literal) → List String
  | [] => []
  | (_, l) :: ls => l.mentions ++ Literal.mentionsMembers ls
end

/-- The distinct names, in the order of their first mention. -/
def Formula.references (f : Formula) : List String := f.mentions.eraseDups

end ExactFormula
