import ExactFormula.Proofs.Reading.Braces
import ExactFormula.Proofs.Reading.Nesting

/-!
Tidy text: its quotations and parentheses are closed in it, and no comment starts in it. An accepted formula
without backslashes, braces and brackets is tidy.
-/

namespace ExactFormula

/-- Text that is tidy; `commas` tells whether commas may stand outside all quotations and parentheses. -/
inductive Tidy : (commas : Bool) → List Char → Prop
  | nil {commas : Bool} : Tidy commas []
  | char {commas : Bool} {c : Char} {cs : List Char} (steady : Lexeme.Steady c) (comma : c = ',' → commas = true)
      (slash : c = '/' → ∃ d ds, cs = d :: ds ∧ d ≠ '/' ∧ d ≠ '*') (rest : Tidy commas cs) : Tidy commas (c :: cs)
  | quotation {commas : Bool} {q : Char} {body cs : List Char} (isQuote : Text.isQuote q = true) (apart : q ∉ body)
      (plain : '\\' ∉ body) (rest : Tidy commas cs) : Tidy commas (q :: (body ++ q :: cs))
  | parens {commas : Bool} {inner cs : List Char} (inside : Tidy true inner) (rest : Tidy commas cs) :
      Tidy commas ('(' :: (inner ++ ')' :: cs))

/-- Where there is no backslash, a quotation ends at the next quote of its kind. -/
theorem closingLength?_body {q : Char} (isQuote : Text.isQuote q = true) {body : List Char} (apart : q ∉ body)
    (plain : '\\' ∉ body) (rest : List Char) :
    Text.closingLength? true q (body ++ q :: rest) = some (body.length + 1) := by
  refine Text.closingLength?_content apart (fun _ => ⟨?_, plain⟩) rest
  rintro rfl
  cases isQuote

namespace Tidy

variable {commas : Bool} {cs cs' : List Char}

theorem append (h : Tidy commas cs) (h' : Tidy commas cs') : Tidy commas (cs ++ cs') := by
  induction h with
  | nil => exact h'
  | char steady comma slash rest ih =>
    refine .char steady comma (fun same => ?_) (ih h')
    obtain ⟨d, ds, rfl, apart⟩ := slash same
    exact ⟨d, ds ++ cs', rfl, apart⟩
  | quotation isQuote apart plain rest ih =>
    rw [List.cons_append, List.append_assoc]
    exact .quotation isQuote apart plain (ih h')
  | parens inside rest _ ih =>
    rw [List.cons_append, List.append_assoc]
    exact .parens inside (ih h')

theorem behind {before : List Char} (steady : ∀ c ∈ before, Lexeme.Steady c) (h : Tidy commas (before ++ cs)) :
    Tidy commas cs := by
  induction before with
  | nil => exact h
  | cons c before ih =>
    obtain ⟨first, steady⟩ := List.forall_mem_cons.1 steady
    generalize split : before ++ cs = behind at ih
    rw [List.cons_append, split] at h
    cases h with
    | char _ _ _ rest => exact ih steady rest
    | quotation isQuote => rw [first.quote] at isQuote; cases isQuote
    | parens => cases first.opens

theorem not_comma : ¬Tidy false (',' :: cs) := by
  intro h
  cases h with
  | char _ comma => cases comma rfl
  | quotation isQuote => cases isQuote

theorem separator {c : Char} (h : c = ',' ∨ c = ';') (rest : Tidy true cs) : Tidy true (c :: cs) := by
  refine .char ?_ (fun _ => rfl) ?_ rest
  · rcases h with rfl | rfl <;> exact ⟨rfl, rfl, rfl⟩
  · rcases h with rfl | rfl <;> nofun

theorem blank {c : Char} (h : Text.isBlank c = true) (rest : Tidy commas cs) : Tidy commas (c :: cs) := by
  refine .char (Lexeme.steady_of_apart rfl h) ?_ ?_ rest
  · rintro rfl
    cases h
  · rintro rfl
    cases h

theorem of_blank (h : (Text.trim cs).isEmpty = true) : Tidy commas cs := by
  have all : ∀ c ∈ cs, Text.isBlank c = true := by
    refine List.dropWhile_eq_nil_iff.1 ?_
    cases left : cs.dropWhile Text.isBlank with
    | nil => rfl
    | cons c rest =>
      have shown : Text.isBlank c = false := by
        have first := List.head?_dropWhile_not Text.isBlank cs
        rwa [left] at first
      have start : (c :: rest).dropWhile Text.isBlank = c :: rest := List.dropWhile_cons_of_neg (by simp [shown])
      have same : Text.trim cs = Text.trim (c :: rest) := by
        rw [Text.trim, Text.trim, Text.trimStart, Text.trimStart, left, start]
      rw [same, Text.trim_isEmpty_of_mem List.mem_cons_self shown] at h
      cases h
  clear h
  induction cs with
  | nil => exact .nil
  | cons c cs ih =>
    obtain ⟨first, all⟩ := List.forall_mem_cons.1 all
    exact .blank first (ih all)

theorem joined {texts : List (List Char)} {whole : List Char} (h : Lexeme.Joined texts whole)
    (tidy : ∀ text ∈ texts, Tidy true text) : Tidy true whole := by
  induction h with
  | last => exact tidy _ (List.mem_singleton_self _)
  | more separator rest ih =>
    obtain ⟨first, tidy⟩ := List.forall_mem_cons.1 tidy
    exact first.append (.separator separator (ih tidy))

/-- The scan for a closing delimiter passes over tidy text. -/
theorem passed (h : Tidy commas cs) : Lexeme.Passed cs := by
  induction h with
  | nil => exact .nil
  | char steady comma slash rest ih => exact .cons ⟨steady.quote, steady.opens, steady.closes⟩ ih
  | quotation isQuote apart plain rest ih =>
    rw [List.append_cons, ← List.cons_append]
    exact (Lexeme.passed_quotation isQuote fun rest => closingLength?_body isQuote apart plain rest).append ih
  | parens inside rest ih ih' =>
    rw [List.append_cons, ← List.cons_append]
    exact (Lexeme.Passed.group (c := '(') rfl ih).append ih'

end Tidy

/-! ## Accepted texts -/

namespace Lexeme

/-- What makes the text of these lexemes tidy. -/
structure Readable (commas : Bool) (ls : List Lexeme) : Prop where
  ordered : Ordered ls
  groups : ∀ inner, parens inner ∈ ls → Text.Simple inner → Tidy true inner
  commaless : commas = false → ∀ text, word text ∈ ls → ',' ∉ text

variable {commas : Bool} {ls ls' : List Lexeme} {pending cs : List Char} {c : Char}

theorem Readable.suffix (h : Readable commas ls) (suffix : ls' <:+ ls) : Readable commas ls' where
  ordered := h.ordered.suffix suffix
  groups inner mem := h.groups inner (suffix.subset mem)
  commaless outside text mem := h.commaless outside text (suffix.subset mem)

theorem Readable.behind {l : Lexeme} (h : Readable commas (flush pending ++ l :: ls)) : Readable commas ls :=
  h.suffix ((List.suffix_cons l ls).trans (List.suffix_append _ _))

/-- A slash or a star is an operator on its own. -/
theorem Lexed.operator_of_head (h : Lexed pending (c :: cs) ls) (known : c = '/' ∨ c = '*') :
    ∃ ls', ls = flush pending ++ operator [c] :: ls' := by
  have facts : Text.isQuote c = false ∧ isOpener c = false ∧ Text.isBlank c = false ∧ isOperatorChar c = true ∧
      ∀ d, ∀ op : BinaryOp, op.chars ≠ [c, d] := by
    rcases known with rfl | rfl <;> exact ⟨rfl, rfl, rfl, rfl, fun d op => by cases op <;> simp [BinaryOp.chars]⟩
  obtain ⟨quote, opens, shown, isOperator, single⟩ := facts
  cases h with
  | quotation isQuote => rw [quote] at isQuote; cases isQuote
  | group opening => rw [opens] at opening; cases opening
  | blank blank => rw [shown] at blank; cases blank
  | sign isOperator rest => exact ⟨_, rfl⟩
  | twoSigns chars => exact absurd chars (single _ _)
  | char steady shown word =>
    rcases known with rfl | rfl
    · rcases word isOperator with same | same <;> cases same
    · rcases word isOperator with same | same <;> cases same

/-- Behind the operator `/` there is more, but neither a slash nor a star. -/
theorem Lexed.behind_slash (h : Lexed [] cs ls) (ordered : Ordered (operator ['/'] :: ls)) :
    ∃ d ds, cs = d :: ds ∧ d ≠ '/' ∧ d ≠ '*' := by
  cases cs with
  | nil =>
    cases h
    exact absurd (List.suffix_refl _) (ordered.last ['/'])
  | cons d ds =>
    have apart : ¬(d = '/' ∨ d = '*') := by
      intro known
      obtain ⟨ls', rfl⟩ := h.operator_of_head known
      have sign := ordered.sign ['/'] [d] (List.prefix_append [_, _] ls').isInfix
      rcases known with rfl | rfl <;> cases sign
    exact ⟨d, ds, rfl, fun same => apart (.inl same), fun same => apart (.inr same)⟩

theorem Lexed.tidy (h : Lexed pending cs ls) (simple : Text.Simple cs) (readable : Readable commas ls) :
    Tidy commas cs := by
  induction h with
  | ended => exact .nil
  | quotation isQuote apart rest ih =>
    have inside := simple.subset (List.subset_cons_self _ _)
    refine .quotation isQuote apart (fun mem => ?_) (ih ?_ readable.behind)
    · exact inside _ (List.mem_append_left _ mem) (by simp)
    · exact inside.subset fun x mem => by simp [mem]
  | @group pending inner cs ls c opens rest ih =>
    have round : c = '(' := by
      have simple := simple c List.mem_cons_self
      simp only [isOpener, Bool.or_eq_true, beq_iff_eq, or_assoc] at opens
      grind
    subst round
    have inside := simple.subset (List.subset_cons_self _ _)
    refine .parens (readable.groups inner ?_ ?_) (ih ?_ readable.behind)
    · exact List.mem_append_right _ List.mem_cons_self
    · exact inside.subset (List.subset_append_left _ _)
    · exact inside.subset fun x mem => by simp [mem]
  | blank blank rest ih =>
    exact .blank blank (ih (simple.subset (List.subset_cons_self _ _)) (readable.suffix (List.suffix_append _ _)))
  | sign isOperator rest ih =>
    refine .char (steady_of_apart rfl isOperator) ?_ ?_
      (ih (simple.subset (List.subset_cons_self _ _)) readable.behind)
    · rintro rfl
      cases isOperator
    rintro rfl
    exact rest.behind_slash (readable.ordered.suffix (List.suffix_append _ _))
  | @twoSigns pending cs ls c d op chars rest ih =>
    have facts : (Steady c ∧ c ≠ ',' ∧ c ≠ '/') ∧ Steady d ∧ d ≠ ',' ∧ d ≠ '/' := by
      cases op <;> cases chars <;> exact ⟨⟨⟨rfl, rfl, rfl⟩, by decide⟩, ⟨rfl, rfl, rfl⟩, by decide⟩
    obtain ⟨⟨steady, comma, slash⟩, steady', comma', slash'⟩ := facts
    have rest' := ih (simple.subset fun x mem => by simp [mem]) readable.behind
    exact .char steady (fun same => absurd same comma) (fun same => absurd same slash)
      (.char steady' (fun same => absurd same comma') (fun same => absurd same slash') rest')
  | @char pending cs ls c steady shown isOperator rest ih =>
    refine .char steady (fun same => ?_) ?_ (ih (simple.subset (List.subset_cons_self _ _)) readable)
    · obtain ⟨text, ls', rfl, all⟩ := rest.head (List.cons_ne_nil _ _)
      cases outside : commas with
      | true => rfl
      | false =>
        have comma := readable.commaless outside text List.mem_cons_self
        exact absurd (same ▸ all c List.mem_cons_self) comma
    · rintro rfl
      rcases isOperator rfl with same | same <;> cases same

end Lexeme

namespace Direct

variable {s : Settings} {nested : Nested}

/-- The text of accepted arguments is tidy when each of them is. -/
theorem tidy_of_call {function : String} {inner : List Char} {a : Operand}
    (tidy : ∀ text f, Text.Simple text → nested text = .ok f → Tidy true text) (simple : Text.Simple inner)
    (h : call s nested function inner = .ok a) : Tidy true inner := by
  rw [call] at h
  split at h
  case h_1 => cases h
  case h_2 f known =>
    dsimp only at h
    split at h
    case h_1 => cases h
    case h_2 =>
      obtain ⟨fs, read, -⟩ := exists_of_bind h
      split at read
      case isTrue blank => exact .of_blank blank
      case isFalse =>
        refine .joined (Lexeme.joined_splitArgs inner) fun text mem => ?_
        obtain ⟨f, read⟩ := args_mem read mem
        exact tidy text f (simple_splitArgs simple text mem) read

theorem tidy_of_parens {pieces pieces' : List Piece} {inner : List Char}
    (tidy : ∀ text f, Text.Simple text → nested text = .ok f → Tidy true text) (simple : Text.Simple inner)
    (h : add s nested pieces (.parens inner) = .ok pieces') : Tidy true inner := by
  rcases add_parens s pieces inner with ⟨function, ps, rfl, called⟩ | ⟨-, grouped⟩
  · rw [called] at h
    obtain ⟨a, accepted, -⟩ := exists_of_bind h
    exact tidy_of_call tidy simple accepted
  · rw [grouped] at h
    obtain ⟨a, accepted, -⟩ := exists_of_bind h
    rw [group] at accepted
    split at accepted
    case isTrue => cases accepted
    case isFalse =>
      obtain ⟨f, read, -⟩ := exists_of_bind accepted
      exact tidy inner f simple read

/-- An accepted text is tidy; outside all parentheses it has commas only in words. -/
theorem tidy_of_formula {n : Nat} {commas : Bool} {text : List Char} {f : Formula} (simple : Text.Simple text)
    (commaless : commas = false → ∀ word, .word word ∈ lexemes text → ',' ∉ word)
    (h : formula s n text = .ok f) : Tidy commas text := by
  induction n generalizing commas text f with
  | zero => cases h
  | succ n ih =>
    obtain ⟨pieces, added, -⟩ := formula_ok h
    have lexed := Lexeme.lexed_lexemes (matched_of_addAll added)
    refine lexed.tidy simple ⟨ordered_of_formula h, fun inner mem inside => ?_, commaless⟩
    obtain ⟨before, after, added⟩ := addAll_mem added mem
    exact tidy_of_parens (fun text f simple => ih simple nofun) inside added

end Direct

end ExactFormula
