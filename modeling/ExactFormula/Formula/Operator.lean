/-!
The operators of formulas, their symbols and how tightly they bind.
-/

namespace ExactFormula

inductive BinaryOp
  | power
  | multiply
  | divide
  | modulo
  | add
  | subtract
  | less
  | lessEqual
  | greater
  | greaterEqual
  | equal
  | notEqual
  | and
  | or
  | coalesce
  deriving DecidableEq, Repr

namespace BinaryOp

def chars : BinaryOp → List Char
  | power => ['^']
  | multiply => ['*']
  | divide => ['/']
  | modulo => ['%']
  | add => ['+']
  | subtract => ['-']
  | less => ['<']
  | lessEqual => ['<', '=']
  | greater => ['>']
  | greaterEqual => ['>', '=']
  | equal => ['=', '=']
  | notEqual => ['!', '=']
  | and => ['&', '&']
  | or => ['|', '|']
  | coalesce => ['?', '?']

def symbol (op : BinaryOp) : String := String.ofList op.chars

def all : List BinaryOp :=
  [power, multiply, divide, modulo, add, subtract, less, lessEqual, greater, greaterEqual, equal,
    notEqual, and, or, coalesce]

def ofChars? (cs : List Char) : Option BinaryOp := all.find? (·.chars == cs)

/-- A higher level binds more tightly. -/
def precedence : BinaryOp → Nat
  | power => 7
  | multiply | divide | modulo => 6
  | add | subtract => 5
  | less | lessEqual | greater | greaterEqual => 4
  | equal | notEqual => 3
  | and => 2
  | or | coalesce => 1

/-- Whether the left operand alone may decide the result. -/
def isShortCircuit : BinaryOp → Bool
  | and | or | coalesce => true
  | _ => false

theorem ofChars?_chars (op : BinaryOp) : ofChars? op.chars = some op := by cases op <;> rfl

theorem ofChars?_eq_some_iff {cs : List Char} {op : BinaryOp} : ofChars? cs = some op ↔ cs = op.chars := by
  constructor
  · intro h
    rw [ofChars?] at h
    have found := List.find?_some h
    exact (eq_of_beq found).symm
  · rintro rfl
    exact ofChars?_chars op

theorem ofChars?_eq_none_iff {cs : List Char} : ofChars? cs = none ↔ ∀ op : BinaryOp, cs ≠ op.chars := by
  rw [Option.eq_none_iff_forall_ne_some]
  exact forall_congr' fun op => not_congr ofChars?_eq_some_iff

end BinaryOp

inductive UnaryOp
  | not
  | negate
  | plus
  deriving DecidableEq, Repr

namespace UnaryOp

def chars : UnaryOp → List Char
  | not => ['!']
  | negate => ['-']
  | plus => ['+']

def symbol (op : UnaryOp) : String := String.ofList op.chars

def all : List UnaryOp := [not, negate, plus]

def ofChars? (cs : List Char) : Option UnaryOp := all.find? (·.chars == cs)

theorem ofChars?_chars (op : UnaryOp) : ofChars? op.chars = some op := by cases op <;> rfl

theorem ofChars?_eq_some_iff {cs : List Char} {op : UnaryOp} : ofChars? cs = some op ↔ cs = op.chars := by
  constructor
  · intro h
    rw [ofChars?] at h
    have found := List.find?_some h
    exact (eq_of_beq found).symm
  · rintro rfl
    exact ofChars?_chars op

theorem ofChars?_eq_none_iff {cs : List Char} : ofChars? cs = none ↔ ∀ op : UnaryOp, cs ≠ op.chars := by
  rw [Option.eq_none_iff_forall_ne_some]
  exact forall_congr' fun op => not_congr ofChars?_eq_some_iff

end UnaryOp

end ExactFormula
