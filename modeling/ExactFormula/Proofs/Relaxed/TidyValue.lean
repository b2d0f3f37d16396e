import ExactFormula.Proofs.Reading.Tidy
import ExactFormula.Proofs.Relaxed.Calls

/-!
Tidy text as a value of a relaxed document: both scans for the end of the value take all of it, calls in it are
found, and no part of it is taken for a date.
-/

namespace ExactFormula

/-! ## Lengths -/

namespace Tidy

open Relaxed (bareValue valueLength opensComment)

variable {commas : Bool} {cs : List Char}

theorem quotationLength_body {q : Char} (isQuote : Text.isQuote q = true) {body : List Char} (apart : q ∉ body)
    (plain : '\\' ∉ body) (rest : List Char) : Text.quotationLength q (body ++ q :: rest) = body.length + 1 := by
  rw [Text.quotationLength, closingLength?_body isQuote apart plain]
  rfl

/-- A steady character is no bracket of any kind. -/
theorem other_of_steady {c : Char} (h : Lexeme.Steady c) : c ∉ ['(', ')', '[', ']', '{', '}'] := by
  have opens := h.opens
  have closes := h.closes
  simp only [Lexeme.isOpener, Lexeme.isCloser, Bool.or_eq_false_iff, beq_eq_false_iff_ne] at opens closes
  simp [opens, closes]

theorem valueLength_open (p : Nat) (cs : List Char) :
    valueLength 0 p 0 0 ('(' :: cs) = valueLength 0 (p + 1) 0 0 cs + 1 := by
  simp [valueLength, Text.isQuote]

theorem valueLength_close (p : Nat) (cs : List Char) :
    valueLength 0 (p + 1) 0 0 (')' :: cs) = valueLength 0 p 0 0 cs + 1 := by
  simp [valueLength, Text.isQuote]

/-- A value goes on through tidy text, whatever parentheses are around it. -/
theorem valueLength_eq (h : Tidy commas cs) {p : Nat} (inside : commas = true → 0 < p) (rest : List Char) :
    valueLength 0 p 0 0 (cs ++ rest) = cs.length + valueLength 0 p 0 0 rest := by
  induction h generalizing p rest with
  | nil => simp
  | @char commas c cs steady comma slash _ ih =>
    have other := other_of_steady steady
    simp only [List.mem_cons, List.not_mem_nil, or_false, not_or] at other
    have held : ¬(p = 0 ∧ c = ',') := fun both => (Nat.pos_iff_ne_zero.1 (inside (comma both.2))) both.1
    rw [List.cons_append, valueLength]
    simp [steady.quote, other, held, ih inside]
    omega
  | @quotation commas q body cs isQuote apart plain _ ih =>
    have skipped := Relaxed.valueLength_skip (body ++ [q]) (cs ++ rest) p 0 0
    rw [List.append_assoc, List.singleton_append, List.length_append, List.length_singleton] at skipped
    rw [List.cons_append, List.append_assoc, List.cons_append, valueLength, isQuote,
      quotationLength_body isQuote apart plain]
    simp only [↓reduceIte, skipped, ih inside, List.length_cons, List.length_append]
    omega
  | parens _ _ ih ih' =>
    rw [List.cons_append, List.append_assoc, List.cons_append, valueLength_open, ih fun _ => Nat.succ_pos p,
      valueLength_close, ih' inside]
    simp only [List.length_cons, List.length_append]
    omega

theorem bareValue_open (p : Nat) (cs : List Char) :
    bareValue true 0 0 p ('(' :: cs) = '(' :: bareValue true 0 0 (p + 1) cs := by
  simp [bareValue]

theorem bareValue_close (p : Nat) (cs : List Char) :
    bareValue true 0 0 (p + 1) (')' :: cs) = ')' :: bareValue true 0 0 p cs := by
  simp [bareValue]

/-- No comment starts at the first character. -/
theorem not_opens {c : Char} (h : Tidy commas (c :: cs)) (rest : List Char) :
    (c == '/' && opensComment (cs ++ rest)) = false := by
  refine Bool.eq_false_iff.2 fun opens => ?_
  simp only [Bool.and_eq_true, beq_iff_eq] at opens
  obtain ⟨rfl, opens⟩ := opens
  cases h with
  | char _ _ slash =>
    obtain ⟨d, ds, rfl, line, block⟩ := slash rfl
    simp [opensComment, line, block] at opens
  | quotation isQuote => cases isQuote

/-- A bare value goes on through tidy text without quotations. -/
theorem bareValue_eq (h : Tidy commas cs) {p : Nat} (inside : commas = true → 0 < p)
    (quoteless : ∀ c ∈ cs, Text.isQuote c = false) (rest : List Char) :
    bareValue true 0 0 p (cs ++ rest) = cs ++ bareValue true 0 0 p rest := by
  induction h generalizing p rest with
  | nil => rfl
  | @char commas c cs steady comma slash tidy ih =>
    have other := other_of_steady steady
    simp only [List.mem_cons, List.not_mem_nil, or_false, not_or] at other
    have held : ¬(c = ',' ∧ p = 0) := fun both => (Nat.pos_iff_ne_zero.1 (inside (comma both.1))) both.2
    have commentless : ¬(c = '/' ∧ opensComment (cs ++ rest) = true) := by
      simpa using (Tidy.char steady comma slash tidy).not_opens rest
    rw [List.cons_append, bareValue]
    simp [other, held, quoteless c List.mem_cons_self, commentless,
      ih inside fun x mem => quoteless x (List.mem_cons_of_mem c mem)]
  | quotation isQuote =>
    have quote := quoteless _ List.mem_cons_self
    rw [isQuote] at quote
    cases quote
  | parens _ _ ih ih' =>
    have first := ih (fun _ => Nat.succ_pos p) fun x mem => quoteless x (by simp [mem])
    have second := ih' inside fun x mem => quoteless x (by simp [mem])
    simp only [List.cons_append, List.append_assoc, bareValue_open, first, bareValue_close, second]

end Tidy

namespace Relaxed

/-! ## Calls -/

/-- Every quotation that starts in the text is closed in it. -/
inductive QuotesClosed : List Char → Prop
  | nil : QuotesClosed []
  | char {c : Char} {cs : List Char} (plain : Text.isQuote c = false) (rest : QuotesClosed cs) : QuotesClosed (c :: cs)
  | quotation {q : Char} {body cs : List Char} (isQuote : Text.isQuote q = true) (apart : q ∉ body)
      (rest : QuotesClosed cs) : QuotesClosed (q :: (body ++ q :: cs))

/-- Outside all quotations there is a name with an opening parenthesis directly behind it. -/
def DirectCall (text : List Char) : Prop :=
  ∃ before c name rest, text = before ++ c :: (name ++ '(' :: rest) ∧ QuotesClosed before ∧
    isNameStart c = true ∧ ∀ x ∈ name, isNamePart x = true

theorem QuotesClosed.outside {text : List Char} (h : QuotesClosed text) (simple : Text.Simple text) :
    OutsideQuotes text := by
  induction h with
  | nil => exact .nil
  | char plain _ ih => exact .char plain (ih (simple.subset (List.subset_cons_self _ _)))
  | @quotation q body cs isQuote apart _ ih =>
    have plain : '\\' ∉ body := fun mem => simple '\\' (by simp [mem]) (by simp)
    have closes (rest : List Char) : Text.closingLength? true q (body ++ [q] ++ rest) = some (body ++ [q]).length := by
      rw [List.append_assoc, List.singleton_append, closingLength?_body isQuote apart plain, List.length_append]
      rfl
    have whole := OutsideQuotes.quotation isQuote closes (ih (simple.subset fun x mem => by simp [mem]))
    rwa [List.append_assoc] at whole

theorem hasCall_of_directCall {text : List Char} (simple : Text.Simple text) (h : DirectCall text) :
    hasCall 0 text = true := by
  obtain ⟨before, c, name, rest, rfl, closed, start, parts⟩ := h
  exact hasCall_iff.2 ⟨before, c, name, [], rest, rfl,
    closed.outside (simple.subset (List.subset_append_left _ _)), start, parts, List.forall_mem_nil _⟩

/-! ## Dates -/

theorem single_of_isDateChar {c : Char} (h : isDateChar c = true) (d : Char) (op : BinaryOp) : op.chars ≠ [c, d] := by
  intro chars
  cases op <;> cases chars <;> cases h

theorem wordlike_of_isDigit {c : Char} (h : c.isDigit = true) : Lexeme.Wordlike c where
  steady := Lexeme.steady_of_apart rfl h
  shown := by
    have ascii := Text.toNat_of_isDigit h
    simp [Text.isBlank]
    omega
  plain := by
    refine Bool.eq_false_iff.2 fun known => ?_
    simp only [Lexeme.isOperatorChar, Bool.or_eq_true, beq_iff_eq, or_assoc] at known
    rcases known with rfl | rfl | rfl | rfl | rfl | rfl | rfl | rfl | rfl | rfl | rfl | rfl | rfl <;> cases h

theorem wordlike_of_dateEnd {c : Char} (h : isDateChar c = true) (ends : DateEnd c) : Lexeme.Wordlike c := by
  rcases ends with digit | rfl | rfl
  · simp only [isDateChar, Bool.or_eq_true, beq_iff_eq, or_assoc] at h
    rcases h with isDigit | rfl | rfl | rfl | rfl | rfl | rfl | rfl | rfl
    · exact wordlike_of_isDigit isDigit
    all_goals cases digit
  · exact ⟨⟨rfl, rfl, rfl⟩, rfl, rfl⟩
  · exact ⟨⟨rfl, rfl, rfl⟩, rfl, rfl⟩

/-- The scan for lexemes goes on behind the characters of a date. -/
theorem lexed_behind {date cs pending : List Char} {ls : List Lexeme} (all : ∀ x ∈ date, isDateChar x = true)
    (h : Lexeme.Lexed pending (date ++ cs) ls) : ∃ pending' ls', Lexeme.Lexed pending' cs ls' ∧ ls' <:+ ls := by
  induction date generalizing pending ls with
  | nil => exact ⟨pending, ls, h, List.suffix_refl ls⟩
  | cons c date ih =>
    obtain ⟨first, all⟩ := List.forall_mem_cons.1 all
    obtain ⟨_, _, h, suffix⟩ := h.next (Lexeme.steady_of_apart rfl first) (single_of_isDateChar first)
    obtain ⟨pending', ls', h, suffix'⟩ := ih all h
    exact ⟨pending', ls', h, suffix'.trans suffix⟩

/-- Spaces and a colon behind a date make two words in a row. -/
theorem not_lexed_colon {date spaces more : List Char} {ls : List Lexeme} (dated : isDate date = true)
    (all : ∀ x ∈ date, isDateChar x = true) (some : spaces ≠ []) (blank : ∀ x ∈ spaces, Text.isBlank x = true)
    (ordered : Lexeme.Ordered ls) : ¬Lexeme.Lexed [] (date ++ (spaces ++ ':' :: more)) ls := by
  intro h
  have shown : date ≠ [] := by
    rintro rfl
    cases dated
  obtain ⟨date, x, rfl⟩ : ∃ xs x, date = xs ++ [x] := ⟨_, _, (List.dropLast_concat_getLast shown).symm⟩
  obtain ⟨all, last⟩ := List.forall_mem_append.1 all
  have word : Lexeme.Wordlike x := wordlike_of_dateEnd (last x List.mem_cons_self) (dateLike_of_isDate dated).dateEnd
  rw [List.append_assoc] at h
  obtain ⟨pending, ls', behind, suffix⟩ := lexed_behind all h
  obtain ⟨a, b, ls'', rfl⟩ := behind.two_words word ⟨⟨rfl, rfl, rfl⟩, rfl, rfl⟩ some blank
  exact (ordered.suffix suffix).apart a b (List.prefix_append [_, _] ls'').isInfix

/-- Where a date stands at the start of an accepted text, it is all of it. -/
theorem bareDate?_eq_none {text : List Char} {ls : List Lexeme} (h : Lexeme.Lexed [] text ls)
    (ordered : Lexeme.Ordered ls) (tidy : Tidy false text) (simple : Text.Simple text) (solid : Text.Solid text)
    (undated : isDate text = false) (rest : List Char) : bareDate? (text ++ '}' :: rest) = none := by
  cases found : bareDate? (text ++ '}' :: rest) with
  | none => rfl
  | some date =>
    exfalso
    obtain ⟨dated, same | ⟨c, other, d, rfl, all, otherwise, first, mark⟩⟩ := bareDate?_cases solid found
    · have same : date = text ++ [] := same
      rw [List.append_nil] at same
      rw [same, undated] at dated
      cases dated
    · obtain ⟨more, split⟩ := List.head?_eq_some_iff.1 first
      have spaces : ∀ x ∈ (c :: other).takeWhile (· == ' '), (x == ' ') = true := fun _ => List.mem_takeWhile_imp
      have whole : c :: other = (c :: other).takeWhile (· == ' ') ++ d :: more := by
        rw [← split, List.takeWhile_append_dropWhile]
      generalize (c :: other).takeWhile (· == ' ') = w at spaces whole
      rw [whole] at h tidy simple
      have blank (x : Char) (mem : x ∈ w) : Text.isBlank x = true := by
        rw [beq_iff_eq.1 (spaces x mem)]
        rfl
      have outside := simple d (by simp)
      simp only [List.mem_cons, List.not_mem_nil, or_false] at mark
      rcases mark with rfl | rfl | rfl | rfl
      · have steady : ∀ x ∈ date ++ w, Lexeme.Steady x := by
          intro x mem
          rcases List.mem_append.1 mem with mem | mem
          · exact Lexeme.steady_of_apart rfl (all x mem)
          · exact Lexeme.steady_of_apart rfl (blank x mem)
        rw [← List.append_assoc] at tidy
        exact (tidy.behind steady).not_comma
      · exact outside (by simp)
      · exact outside (by simp)
      · refine not_lexed_colon dated all ?_ blank ordered h
        rintro rfl
        cases whole
        cases otherwise

end Relaxed

end ExactFormula
