/-!
Classes of the characters that steer the reading of relaxed text, and its comments. All are ASCII.
-/

namespace ExactFormula.Relaxed

def isSpace (c : Char) : Bool := c == ' ' || c == '\t' || c == '\n' || c == '\r'

theorem isSpace_cases {c : Char} (h : isSpace c = true) : c = ' ' ∨ c = '\t' ∨ c = '\n' ∨ c = '\r' := by
  simpa only [isSpace, Bool.or_eq_true, beq_iff_eq, or_assoc] using h

def isStructural (c : Char) : Bool :=
  c == '{' || c == '}' || c == '[' || c == ']' || c == ':' || c == ','

def isNameStart (c : Char) : Bool := c.isAlpha || c == '_' || c == '$'

def isNamePart (c : Char) : Bool := isNameStart c || c.isDigit

/-- Whether a comment starts at `/` when these characters follow it. -/
def opensComment : List Char → Bool
  | c :: _ => c == '/' || c == '*'
  | [] => false

/-- Characters of a block comment behind its opening, the closing `*/` included. -/
def blockLength : List Char → Nat
  | [] => 0
  | c :: cs => if c == '*' && cs.head? == some '/' then 2 else blockLength cs + 1

/-- Characters of a comment behind its first `/`. A line comment ends before the line does. -/
def commentLength : List Char → Nat
  | '*' :: cs => blockLength cs + 1
  | cs => (cs.takeWhile (· != '\n')).length

/-- Characters of spaces and comments, of which `skip` are already counted. -/
def gapLength : (skip : Nat) → List Char → Nat
  | _, [] => 0
  | skip + 1, _ :: cs => gapLength skip cs + 1
  | 0, c :: cs =>
    if isSpace c then gapLength 0 cs + 1
    else if c == '/' && opensComment cs then gapLength (commentLength cs) cs + 1
    else 0

end ExactFormula.Relaxed
