import ExactFormula.Formula.Reading
import ExactFormula.Proofs.Formula.Bare

/-!
Reading without a memory, as a function of the settings and the text alone. The formulas it gives are
bare. Readings with a cache are measured against it. More levels of nesting only ever turn "too deep"
into something else.
-/

namespace ExactFormula

/-- The error of a text that nests too deep. -/
abbrev tooDeep : FormulaError := .nestingTooDeep maxNesting

namespace Direct

abbrev Nested := List Char → Except FormulaError Formula

/-! ## Embedded literals -/

def ofMarked (nested : Nested) (source : List Char) : Except FormulaError Literal :=
  match nested source with
  | .ok f => .ok (.formula f (String.ofList source))
  | .error (.nestingTooDeep limit) => .error (.nestingTooDeep limit)
  | .error _ => .ok (.value (.string (String.ofList source)))

mutual
def ofJson (nested : Nested) : Json → Except FormulaError Literal
  | .string s =>
    match Literal.marked? s with
    | some source => ofMarked nested source
    | none => .ok (.value (Literal.plainValue s))
  | .array items => do return .array (← ofItems nested items)
  | .object members => do return .object (← ofMembers nested members)
  | .null => .ok (.value .null)
  | .bool b => .ok (.value (.bool b))
  | .number n => .ok (.value (Value.ofNumber n))

def ofItems (nested : Nested) : List Json → Except FormulaError (List Literal)
  | [] => .ok []
  | j :: js => do return (← ofJson nested j) :: (← ofItems nested js)

def ofMembers (nested : Nested) : List (String × Json) → Except FormulaError (List (String × Literal))
  | [] => .ok []
  | (k, j) :: ms => do return (k, ← ofJson nested j) :: (← ofMembers nested ms)
end

/-- The tree of a trimmed text, or nothing when that is no relaxed document. -/
def tree? (s : Settings) (nested : Nested) (text : List Char) : Option (Except FormulaError Literal) :=
  match Relaxed.parseChars literalMarker s.wrapCalls text with
  | .ok json => some (ofJson nested json)
  | .error _ => none

def literal (s : Settings) (nested : Nested) (source : List Char) : Except FormulaError Operand :=
  match tree? s nested (Text.trim source) with
  | some tree => do return .literal (0, 0) (← tree)
  | none => .ok (.text (String.ofList (Text.trim source)))

/-! ## Pieces -/

def args (nested : Nested) (function : String) (index : Nat) :
    List (List Char) → Except FormulaError (List Formula)
  | [] => .ok []
  | text :: texts =>
    if (Text.trim text).isEmpty then
      .error (.invalidArguments function ("argument " ++ toString index ++ " is empty"))
    else do return (← nested text) :: (← args nested function (index + 1) texts)

def call (s : Settings) (nested : Nested) (function : String) (inner : List Char) :
    Except FormulaError Operand :=
  match s.functions.get? function with
  | none => .error (.unknownFunction function)
  | some f =>
    let texts := if (Text.trim inner).isEmpty then [] else Lexeme.splitArgs inner
    match f.arityFault? texts.length with
    | some reason => .error (.invalidArguments function reason)
    | none => do return .call function f.run (← args nested function 1 texts)

def group (nested : Nested) (inner : List Char) : Except FormulaError Operand :=
  if (Text.trim inner).isEmpty then .error .emptyExpression else do return .group (← nested inner)

def add (s : Settings) (nested : Nested) (pieces : List Piece) : Lexeme → Except FormulaError (List Piece)
  | .word text => do return (← Piece.ofWord s text) :: pieces
  | .operator symbol => .ok (.operator symbol :: pieces)
  | .quoted content => .ok (.operand (Piece.ofQuoted content) :: pieces)
  | .parens inner =>
    match pieces with
    | .name function :: pieces => do return .operand (← call s nested function inner) :: pieces
    | _ => do return .operand (← group nested inner) :: pieces
  | .brackets inner =>
    if Lexeme.isBracketName inner then .ok (.bracketName (String.ofList (Text.trim inner)) :: pieces)
    else do return .operand (← literal s nested ('[' :: (inner ++ [']']))) :: pieces
  | .braces inner => do return .operand (← literal s nested ('{' :: (inner ++ ['}']))) :: pieces
  | .unmatched delimiter => .error (.unmatchedDelimiter delimiter)

def addAll (s : Settings) (nested : Nested) (pieces : List Piece) :
    List Lexeme → Except FormulaError (List Piece)
  | [] => .ok pieces.reverse
  | l :: ls => do addAll s nested (← add s nested pieces l) ls

/-! ## Parts and formulas -/

def reference (s : Settings) (name : String) : Except FormulaError Reference :=
  if s.tokenPattern.any (!·.foundIn name) then .error (.invalidReference name)
  else match s.reference with
    | some factory => do return ⟨name, .custom (← factory name)⟩
    | none => .ok ⟨name, .lookup s.default⟩

def arrange (s : Settings) (first operandExpected : Bool) :
    List Piece → Except FormulaError (List (Part Operand))
  | [] =>
    if first then .error .emptyExpression
    else if operandExpected then .error .trailingOperator
    else .ok []
  | .operator symbol :: pieces => do
    let part ← Piece.operatorPart operandExpected symbol
    return part :: (← arrange s false true pieces)
  | .name text :: pieces | .bracketName text :: pieces => do
    let r ← reference s text
    if operandExpected then return .operand (.reference r) :: (← arrange s false false pieces)
    else .error .missingOperator
  | .operand a :: pieces =>
    if operandExpected then do return .operand a :: (← arrange s false false pieces)
    else .error .missingOperator

def formula (s : Settings) : (levels : Nat) → List Char → Except FormulaError Formula
  | 0, _ => .error tooDeep
  | levels + 1, text => do
    let pieces ← addAll s (formula s levels) [] (lexemes text)
    let parts ← arrange s true true pieces
    return ⟨String.ofList text, parts, s.numeric, none⟩

/-! ## More levels -/

variable {α β : Type}

/-- The two outcomes are one, unless the first is that the text nests too deep. -/
def Approximates (a b : Except FormulaError α) : Prop := a = .error tooDeep ∨ a = b

theorem Approximates.refl (a : Except FormulaError α) : Approximates a a := .inr rfl

theorem Approximates.bind {a b : Except FormulaError α} {f g : α → Except FormulaError β}
    (h : Approximates a b) (hfg : ∀ x, Approximates (f x) (g x)) : Approximates (a >>= f) (b >>= g) := by
  rcases h with rfl | rfl
  · exact .inl rfl
  · cases a with
    | error e => exact .inr rfl
    | ok x => exact hfg x

/-- Outcomes by the number of levels: once it is no longer too deep, more levels change nothing. -/
def Rising (direct : Nat → Except FormulaError α) : Prop :=
  ∀ m n, m ≤ n → Approximates (direct m) (direct n)

theorem Rising.const (a : Except FormulaError α) : Rising fun _ => a := fun _ _ _ => .refl a

theorem Rising.ok {direct : Nat → Except FormulaError α} (rising : Rising direct) {m n : Nat} (more : m ≤ n)
    {a : α} (h : direct m = .ok a) : direct n = .ok a := by
  rcases rising m n more with deep | same
  · rw [h] at deep
    cases deep
  · exact same.symm.trans h

theorem Rising.deep {direct : Nat → Except FormulaError α} (rising : Rising direct) {m n : Nat}
    (more : m ≤ n) (h : direct n = .error tooDeep) : direct m = .error tooDeep := by
  rcases rising m n more with deep | same
  · exact deep
  · exact same.trans h

variable {s : Settings} {nested nested' : Nested}

theorem ofMarked_approximates (h : ∀ text, Approximates (nested text) (nested' text)) (source : List Char) :
    Approximates (ofMarked nested source) (ofMarked nested' source) := by
  rw [ofMarked, ofMarked]
  rcases h source with deep | same
  · rw [deep]
    exact .inl rfl
  · rw [same]
    exact .refl _

mutual
theorem ofJson_approximates (h : ∀ text, Approximates (nested text) (nested' text)) :
    (j : Json) → Approximates (ofJson nested j) (ofJson nested' j)
  | .string s => by
      rw [ofJson, ofJson]
      cases Literal.marked? s with
      | some source => exact ofMarked_approximates h source
      | none => exact .refl _
  | .array items => by
      rw [ofJson, ofJson]
      exact (ofItems_approximates h items).bind fun _ => .refl _
  | .object members => by
      rw [ofJson, ofJson]
      exact (ofMembers_approximates h members).bind fun _ => .refl _
  | .null => by rw [ofJson, ofJson]; exact .refl _
  | .bool _ => by rw [ofJson, ofJson]; exact .refl _
  | .number _ => by rw [ofJson, ofJson]; exact .refl _

theorem ofItems_approximates (h : ∀ text, Approximates (nested text) (nested' text)) :
    (js : List Json) → Approximates (ofItems nested js) (ofItems nested' js)
  | [] => by rw [ofItems, ofItems]; exact .refl _
  | j :: js => by
      rw [ofItems, ofItems]
      exact (ofJson_approximates h j).bind fun _ => (ofItems_approximates h js).bind fun _ => .refl _

theorem ofMembers_approximates (h : ∀ text, Approximates (nested text) (nested' text)) :
    (ms : List (String × Json)) → Approximates (ofMembers nested ms) (ofMembers nested' ms)
  | [] => by rw [ofMembers, ofMembers]; exact .refl _
  | (_, j) :: ms => by
      rw [ofMembers, ofMembers]
      exact (ofJson_approximates h j).bind fun _ => (ofMembers_approximates h ms).bind fun _ => .refl _
end

/-- Whether a text is a relaxed document does not depend on the levels. -/
theorem tree?_approximates (h : ∀ text, Approximates (nested text) (nested' text)) {text : List Char}
    {tree : Except FormulaError Literal} (found : tree? s nested text = some tree) :
    ∃ tree', tree? s nested' text = some tree' ∧ Approximates tree tree' := by
  rw [tree?] at found ⊢
  split at found
  · cases found
    exact ⟨_, rfl, ofJson_approximates h _⟩
  · cases found

theorem tree?_eq_none (found : tree? s nested text = none) : tree? s nested' text = none := by
  rw [tree?] at found ⊢
  split at found
  · cases found
  · rfl

theorem literal_approximates (h : ∀ text, Approximates (nested text) (nested' text)) (source : List Char) :
    Approximates (literal s nested source) (literal s nested' source) := by
  rw [literal, literal]
  cases found : tree? s nested (Text.trim source) with
  | some tree =>
    obtain ⟨tree', found', near⟩ := tree?_approximates h found
    rw [found']
    exact near.bind fun _ => .refl _
  | none =>
    rw [tree?_eq_none found]
    exact .refl _

theorem args_approximates (h : ∀ text, Approximates (nested text) (nested' text)) (function : String)
    (index : Nat) (texts : List (List Char)) :
    Approximates (args nested function index texts) (args nested' function index texts) := by
  induction texts generalizing index with
  | nil => exact .refl _
  | cons text texts ih =>
    rw [args, args]
    split
    · exact .refl _
    · exact (h text).bind fun _ => (ih (index + 1)).bind fun _ => .refl _

theorem call_approximates (h : ∀ text, Approximates (nested text) (nested' text)) (function : String)
    (inner : List Char) : Approximates (call s nested function inner) (call s nested' function inner) := by
  rw [call, call]
  split
  · exact .refl _
  · dsimp only
    split
    · exact .refl _
    · exact (args_approximates h function 1 _).bind fun _ => .refl _

theorem group_approximates (h : ∀ text, Approximates (nested text) (nested' text)) (inner : List Char) :
    Approximates (group nested inner) (group nested' inner) := by
  rw [group, group]
  split
  · exact .refl _
  · exact (h inner).bind fun _ => .refl _

theorem add_approximates (h : ∀ text, Approximates (nested text) (nested' text)) (pieces : List Piece)
    (l : Lexeme) : Approximates (add s nested pieces l) (add s nested' pieces l) := by
  cases l with
  | word text => exact .refl _
  | operator symbol => exact .refl _
  | quoted content => exact .refl _
  | parens inner =>
    match pieces with
    | .name function :: _ => exact (call_approximates h function inner).bind fun _ => .refl _
    | [] | .operator _ :: _ | .bracketName _ :: _ | .operand _ :: _ =>
      exact (group_approximates h inner).bind fun _ => .refl _
  | brackets inner =>
    rw [add, add]
    split
    · exact .refl _
    · exact (literal_approximates h _).bind fun _ => .refl _
  | braces inner => exact (literal_approximates h _).bind fun _ => .refl _
  | unmatched delimiter => exact .refl _

theorem addAll_approximates (h : ∀ text, Approximates (nested text) (nested' text)) (pieces : List Piece)
    (ls : List Lexeme) : Approximates (addAll s nested pieces ls) (addAll s nested' pieces ls) := by
  induction ls generalizing pieces with
  | nil => exact .refl _
  | cons l ls ih => exact (add_approximates h pieces l).bind ih

theorem formula_approximates {m n : Nat} (more : m ≤ n) (text : List Char) :
    Approximates (formula s m text) (formula s n text) := by
  induction m generalizing n text with
  | zero => exact .inl rfl
  | succ m ih =>
    obtain ⟨n, rfl⟩ : ∃ n', n = n' + 1 := ⟨n - 1, by omega⟩
    have deeper (text : List Char) : Approximates (formula s m text) (formula s n text) :=
      ih (by omega) text
    exact (addAll_approximates deeper [] (lexemes text)).bind fun _ => .refl _

/-- Two depths that both are enough give one formula. -/
theorem formula_ok_unique {m n : Nat} {text : List Char} {f g : Formula} (hf : formula s m text = .ok f)
    (hg : formula s n text = .ok g) : f = g := by
  have rising : Rising fun n => formula s n text := fun _ _ more => formula_approximates more text
  have hf := rising.ok (Nat.le_max_left m n) hf
  have hg := rising.ok (Nat.le_max_right m n) hg
  exact Except.ok.inj (hf.symm.trans hg)

end Direct

end ExactFormula
