import ExactFormula.Proofs.Reading.Running
import ExactFormula.Proofs.Text.Trimming

/-!
A text in parentheses reads as the text does one level down: it is accepted when that is, fails as that
does, and leaves the cache that that leaves.
-/

namespace ExactFormula

namespace Lexeme

/-- The groups of the text are closed in it, so that a group around it closes behind it. -/
def Enclosed (text : List Char) : Prop :=
  ∀ opener closers rest, closers ≠ [] → groupLength opener 0 closers (text ++ rest) =
    (groupLength opener 0 closers rest).map (· + text.length)

theorem Enclosed.nil : Enclosed [] := by
  intro opener closers rest _
  rw [List.nil_append]
  cases groupLength opener 0 closers rest <;> rfl

theorem Enclosed.cons {c : Char} {text : List Char} (quote : Text.isQuote c = false)
    (opens : isOpener c = false) (closes : isCloser c = false) (h : Enclosed text) :
    Enclosed (c :: text) := by
  intro opener closers rest nonempty
  rw [List.cons_append, groupLength, quote, opens, closes]
  simp only [Bool.false_eq_true, ↓reduceIte]
  rw [h opener closers rest nonempty]
  cases groupLength opener 0 closers rest <;> rfl

/-- A closer ends the innermost group. -/
theorem groupLength_closer {c : Char} (hc : isOpener c = true) (opener : Char) (closers : List Char)
    (rest : List Char) : groupLength opener 0 (closer c :: closers) (closer c :: rest) =
      if closers.isEmpty then .ok 0 else (groupLength opener 0 closers rest).map (· + 1) := by
  rw [groupLength]
  rcases isOpener_cases hc with rfl | rfl | rfl <;> rfl

theorem groupLength_opener {c : Char} (hc : isOpener c = true) (opener : Char) (closers : List Char)
    (rest : List Char) : groupLength opener 0 closers (c :: rest) =
      (groupLength opener 0 (closer c :: closers) rest).map (· + 1) := by
  rw [groupLength]
  rcases isOpener_cases hc with rfl | rfl | rfl <;> rfl

theorem Enclosed.group {c : Char} {text : List Char} (hc : isOpener c = true) (h : Enclosed text) :
    Enclosed (c :: (text ++ [closer c])) := by
  intro opener closers rest nonempty
  have more : closers.isEmpty = false := by simpa using nonempty
  rw [List.cons_append, List.append_assoc, groupLength_opener hc,
    h opener (closer c :: closers) _ (List.cons_ne_nil _ _), List.singleton_append,
    groupLength_closer hc, more]
  cases groupLength opener 0 closers rest with
  | error d => rfl
  | ok n =>
    simp only [Except.map, Bool.false_eq_true, ↓reduceIte, List.length_cons, List.length_append,
      List.length_nil]
    congr 1
    omega

end Lexeme

/-- The text in a number of parentheses. -/
def parenthesized : Nat → List Char → List Char
  | 0, text => text
  | n + 1, text => '(' :: (parenthesized n text ++ [')'])

theorem parenthesized_enclosed {text : List Char} (h : Lexeme.Enclosed text) (n : Nat) :
    Lexeme.Enclosed (parenthesized n text) := by
  induction n with
  | zero => exact h
  | succ n ih => exact ih.group rfl

/-- A text that is one group and nothing else is one lexeme. -/
theorem lexemes_group {c : Char} (opens : Lexeme.isOpener c = true) {text : List Char}
    (length : Lexeme.groupLength c 0 [Lexeme.closer c] (text ++ [Lexeme.closer c]) = .ok text.length) :
    lexemes (c :: (text ++ [Lexeme.closer c])) = [Lexeme.ofGroup c text] := by
  have quote : Text.isQuote c = false := by
    rcases Lexeme.isOpener_cases opens with rfl | rfl | rfl <;> rfl
  have step : Lexeme.scanStep [] c (text ++ [Lexeme.closer c] ++ []) =
      .swallow [Lexeme.ofGroup c text] (text ++ [Lexeme.closer c]).length [] := by
    simp only [Lexeme.scanStep, quote, opens, List.append_nil, length, Bool.false_eq_true, ↓reduceIte,
      List.take_left, List.length_append]
    rfl
  have scanned : lexemes (c :: (text ++ [Lexeme.closer c] ++ [])) = [Lexeme.ofGroup c text] ++ lexemes [] :=
    Text.scan_swallow step
  rwa [List.append_nil] at scanned

theorem lexemes_parens {text : List Char} (h : Lexeme.Enclosed text) :
    lexemes ('(' :: (text ++ [')'])) = [.parens text] := by
  refine lexemes_group (c := '(') rfl ?_
  rw [h '(' _ _ (List.cons_ne_nil _ _)]
  exact congrArg Except.ok (Nat.zero_add _)

variable {env : ReadingEnv} {text : List Char}

theorem readFormula_parens (enclosed : Lexeme.Enclosed text) (shown : (Text.trim text).isEmpty = false)
    (levels : Nat) (planned : Bool) (c : Cache) :
    SameVerdict ((readFormula env (levels + 1) planned ('(' :: (text ++ [')']))).run c).1
      ((readFormula env levels false text).run c).1 := by
  simp only [readFormula, lexemes_parens enclosed, Piece.addAll, Piece.add, Piece.readGroup, shown,
    Bool.false_eq_true, ↓reduceIte, Caching.run_bind]
  rcases (readFormula env levels false text).run c with ⟨_ | f, c'⟩
  · rfl
  · rfl

/-- However deep the parentheses are, the text in them decides, with as many levels less. -/
theorem readFormula_parenthesized (env : ReadingEnv) (enclosed : Lexeme.Enclosed text)
    (shown : (Text.trim text).isEmpty = false) (n levels : Nat) (planned : Bool) (c : Cache) :
    ∃ planned', SameVerdict ((readFormula env (n + levels) planned (parenthesized n text)).run c).1
      ((readFormula env levels planned' text).run c).1 := by
  induction n generalizing planned with
  | zero =>
    rw [Nat.zero_add]
    exact ⟨planned, rfl⟩
  | succ n ih =>
    obtain ⟨planned', same⟩ := ih false
    rw [Nat.succ_add]
    refine ⟨planned', .trans ?_ same⟩
    refine readFormula_parens (parenthesized_enclosed enclosed n) ?_ (n + levels) planned c
    cases n with
    | zero => exact shown
    | succ n => exact Text.trim_isEmpty_of_mem List.mem_cons_self rfl

end ExactFormula
