import ExactFormula.Formula.Operator

/-!
Formulas as flat rows of operands and operators, and the trees that the precedence of the operators
makes of them. One pass from left to right keeps a stack of operands and a stack of operators that
still wait for their right side.
-/

namespace ExactFormula

inductive Part (α : Type)
  | operand (a : α)
  | unary (op : UnaryOp)
  | binary (op : BinaryOp)

inductive Tree (α : Type)
  | leaf (a : α)
  | unary (op : UnaryOp) (t : Tree α)
  | binary (op : BinaryOp) (l r : Tree α)

/-- What to make of operands and of operators applied to results. -/
structure Folder (α β : Type) where
  leaf : α → β
  unary : UnaryOp → β → β
  binary : BinaryOp → β → β → β

namespace Folder

variable {α β : Type}

/-- The two latest operands become one; an operator without a left operand is dropped. -/
def apply (F : Folder α β) (op : BinaryOp) : List β → List β
  | r :: l :: rest => F.binary op l r :: rest
  | operands => operands

/-- Applies the waiting operators that bind at least as tightly as the given level. -/
def reduce (F : Folder α β) (level : Nat) : List β → List BinaryOp → List β × List BinaryOp
  | operands, [] => (operands, [])
  | operands, op :: ops =>
    if level ≤ op.precedence then reduce F level (F.apply op operands) ops else (operands, op :: ops)

/-- The operators in front of an operand, the innermost first. -/
def applySigns (F : Folder α β) (signs : List UnaryOp) (b : β) : β :=
  signs.foldl (fun b op => F.unary op b) b

def foldFrom (F : Folder α β) (signs : List UnaryOp) (operands : List β) (operators : List BinaryOp) :
    List (Part α) → Option β
  | [] => (F.reduce 0 operands operators).1.head?
  | .unary op :: ps => foldFrom F (op :: signs) operands operators ps
  | .operand a :: ps => foldFrom F [] (F.applySigns signs (F.leaf a) :: operands) operators ps
  | .binary op :: ps =>
    let (operands, operators) := F.reduce op.precedence operands operators
    foldFrom F signs operands (op :: operators) ps

def fold (F : Folder α β) (ps : List (Part α)) : Option β := F.foldFrom [] [] [] ps

end Folder

namespace Tree

variable {α : Type}

def folder : Folder α (Tree α) := ⟨leaf, unary, binary⟩

def ofParts (ps : List (Part α)) : Option (Tree α) := folder.fold ps

end Tree

end ExactFormula
