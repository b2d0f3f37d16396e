import ExactFormula.Proofs.Formula.Failures
import ExactFormula.Proofs.Reading.Nesting

/-!
The errors that readings fail with: the rule of induction over failing readings. They are those of the phase of
reading, and a delimiter without its partner is found by the lexemes only.
-/

namespace ExactFormula.Direct

/-- Texts of a class hold no delimiter without a partner for which no error is allowed, their groups and
arguments are of the class, too, and every other error of reading is allowed. -/
structure Failing (texts : List Char → Prop) (allowed : FormulaError → Prop) : Prop where
  reading : ∀ e : FormulaError, e.phase = .reading → (∀ d, e ≠ .unmatchedDelimiter d) → allowed e
  unmatched : ∀ text d, texts text → .unmatched d ∈ lexemes text → allowed (.unmatchedDelimiter d)
  inside : ∀ text inner, texts text → .parens inner ∈ lexemes text → texts inner
  argument : ∀ inner arg, texts inner → arg ∈ Lexeme.splitArgs inner → texts arg

variable {s : Settings} {nested : Nested} {texts : List Char → Prop} {allowed : FormulaError → Prop}

namespace Failing

/-! ## Embedded literals -/

theorem ofMarked (failing : Failing texts allowed) (nested : Nested) (source : List Char) :
    FailsWith allowed (Direct.ofMarked nested source) := by
  rw [Direct.ofMarked]
  split
  · exact .ok _
  · exact .error (failing.reading _ rfl (by simp))
  · exact .ok _

mutual
theorem ofJson (failing : Failing texts allowed) (nested : Nested) :
    (j : Json) → FailsWith allowed (Direct.ofJson nested j)
  | .string s => by
      rw [Direct.ofJson]
      cases Literal.marked? s with
      | some source => exact ofMarked failing nested source
      | none => exact .ok _
  | .array items => by
      rw [Direct.ofJson]
      exact (ofItems failing nested items).map _
  | .object members => by
      rw [Direct.ofJson]
      exact (ofMembers failing nested members).map _
  | .null => by rw [Direct.ofJson]; exact .ok _
  | .bool _ => by rw [Direct.ofJson]; exact .ok _
  | .number _ => by rw [Direct.ofJson]; exact .ok _

theorem ofItems (failing : Failing texts allowed) (nested : Nested) :
    (js : List Json) → FailsWith allowed (Direct.ofItems nested js)
  | [] => by rw [Direct.ofItems]; exact .ok _
  | j :: js => by
      rw [Direct.ofItems]
      exact (ofJson failing nested j).bind fun _ => (ofItems failing nested js).map _

theorem ofMembers (failing : Failing texts allowed) (nested : Nested) :
    (ms : List (String × Json)) → FailsWith allowed (Direct.ofMembers nested ms)
  | [] => by rw [Direct.ofMembers]; exact .ok _
  | (_, j) :: ms => by
      rw [Direct.ofMembers]
      exact (ofJson failing nested j).bind fun _ => (ofMembers failing nested ms).map _
end

section

variable (failing : Failing texts allowed) (reads : ∀ text, texts text → FailsWith allowed (nested text))

include failing

/-- A formula in a literal that fails, but for its depth, is text instead. -/
theorem literal (nested : Nested) (source : List Char) : FailsWith allowed (Direct.literal s nested source) := by
  rw [Direct.literal, tree?]
  cases Relaxed.parseChars literalMarker s.wrapCalls (Text.trim source) with
  | ok json => exact (ofJson failing nested json).map _
  | error e => exact .ok _

/-! ## Pieces -/

include reads in
theorem args (function : String) (index : Nat) {args : List (List Char)} (inside : ∀ arg ∈ args, texts arg) :
    FailsWith allowed (Direct.args nested function index args) := by
  induction args generalizing index with
  | nil => exact .ok _
  | cons arg args ih =>
    obtain ⟨first, later⟩ := List.forall_mem_cons.1 inside
    rw [Direct.args]
    split
    · exact .error (failing.reading _ rfl (by simp))
    · exact (reads arg first).bind fun _ => (ih (index + 1) later).map _

include reads in
theorem call (function : String) {inner : List Char} (inside : texts inner) :
    FailsWith allowed (Direct.call s nested function inner) := by
  rw [Direct.call]
  split
  · exact .error (failing.reading _ rfl (by simp))
  · dsimp only
    split
    · exact .error (failing.reading _ rfl (by simp))
    · refine (args failing reads function 1 ?_).map _
      split
      · exact List.forall_mem_nil _
      · exact fun arg => failing.argument inner arg inside

include reads in
theorem group (inner : List Char) (inside : texts inner) : FailsWith allowed (Direct.group nested inner) := by
  rw [Direct.group]
  split
  · exact .error (failing.reading _ rfl (by simp))
  · exact (reads inner inside).map _

theorem ofWord (text : List Char) : FailsWith allowed (Piece.ofWord s text) := by
  rw [Piece.ofWord]
  split
  · split
    · exact .ok _
    · exact .error (failing.reading _ rfl (by simp))
  · split
    · exact .ok _
    · split
      · exact .ok _
      · exact .error (failing.reading _ rfl (by simp))

include reads in
theorem add {text : List Char} (good : texts text) (pieces : List Piece) {l : Lexeme} (mem : l ∈ lexemes text) :
    FailsWith allowed (Direct.add s nested pieces l) := by
  cases l with
  | word word => exact (ofWord failing word).map _
  | operator symbol => exact .ok _
  | quoted content => exact .ok _
  | parens inner =>
    have inside := failing.inside text inner good mem
    rcases add_parens s pieces inner with ⟨function, ps, -, called⟩ | ⟨-, grouped⟩
    · rw [called]
      exact (call failing reads function inside).map _
    · rw [grouped]
      exact (group failing reads inner inside).map _
  | brackets inner =>
    rw [Direct.add]
    split
    · exact .ok _
    · exact (literal failing nested _).map _
  | braces inner => exact (literal failing nested _).map _
  | unmatched delimiter => exact .error (failing.unmatched text delimiter good mem)

include reads in
theorem addAll {text : List Char} (good : texts text) (pieces : List Piece) {ls : List Lexeme}
    (mem : ∀ l ∈ ls, l ∈ lexemes text) : FailsWith allowed (Direct.addAll s nested pieces ls) := by
  induction ls generalizing pieces with
  | nil => exact .ok _
  | cons l ls ih =>
    obtain ⟨first, later⟩ := List.forall_mem_cons.1 mem
    exact (add failing reads good pieces first).bind fun pieces' => ih pieces' later

/-! ## Parts and formulas -/

theorem operatorPart {α : Type} (operandExpected : Bool) (symbol : List Char) :
    FailsWith allowed (Piece.operatorPart (α := α) operandExpected symbol) := by
  unfold Piece.operatorPart
  split
  · exact .ok _
  · exact .ok _
  · exact .error (failing.reading _ rfl (by simp))
  · exact .error (failing.reading _ rfl (by simp))
  · exact .error (failing.reading _ rfl (by simp))

/-- Only a resolver of one's own could fail with another error. -/
theorem reference (plain : s.reference = none) (name : String) : FailsWith allowed (Direct.reference s name) := by
  rw [Direct.reference, plain]
  split
  · exact .error (failing.reading _ rfl (by simp))
  · exact .ok _

theorem arrange (plain : s.reference = none) (first operandExpected : Bool) (pieces : List Piece) :
    FailsWith allowed (Direct.arrange s first operandExpected pieces) := by
  induction pieces generalizing first operandExpected with
  | nil =>
    rw [Direct.arrange]
    split
    · exact .error (failing.reading _ rfl (by simp))
    · split
      · exact .error (failing.reading _ rfl (by simp))
      · exact .ok _
  | cons p pieces ih =>
    cases p with
    | operator symbol => exact (operatorPart failing operandExpected symbol).bind fun _ => (ih false true).map _
    | name text | bracketName text =>
      refine (reference failing plain text).bind fun r => ?_
      split
      · exact (ih false false).map _
      · exact .error (failing.reading _ rfl (by simp))
    | operand a =>
      rw [Direct.arrange]
      split
      · exact (ih false false).map _
      · exact .error (failing.reading _ rfl (by simp))

end

theorem formula (failing : Failing texts allowed) (plain : s.reference = none) (levels : Nat) {text : List Char}
    (good : texts text) : FailsWith allowed (Direct.formula s levels text) := by
  induction levels generalizing text with
  | zero => exact .error (failing.reading _ rfl (by simp))
  | succ levels ih =>
    rw [Direct.formula]
    refine (addAll failing (fun _ => ih) good [] fun _ => id).bind fun pieces => ?_
    exact (arrange failing plain true true pieces).map _

end Failing

/-- Reading fails with errors of its own phase. -/
theorem formula_fails (plain : s.reference = none) (levels : Nat) (text : List Char) :
    FailsWith (·.phase = .reading) (formula s levels text) :=
  Failing.formula ⟨fun _ phase _ => phase, fun _ _ _ _ => rfl, fun _ _ _ _ => trivial, fun _ _ _ _ => trivial⟩ plain
    levels trivial

end ExactFormula.Direct
