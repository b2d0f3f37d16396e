import ExactFormula.Proofs.Reading.Pieces

/-!
The scan for lexemes as a relation: which text gives which lexemes, when every delimiter in it has its
partner. Arguments of calls, in the same way, are the text between separators.
-/

namespace ExactFormula

/-! ## Delimiters -/

/-- A quotation that is found is the text up to the next quote of its kind. -/
theorem Text.exists_of_closingLength? {q : Char} {cs : List Char} {n : Nat}
    (h : closingLength? false q cs = some n) :
    ∃ body rest, cs = body ++ q :: rest ∧ q ∉ body ∧ n = body.length + 1 := by
  induction cs generalizing n with
  | nil => cases h
  | cons c cs ih =>
    rw [closingLength?.eq_def] at h
    simp only [Bool.false_and, Bool.false_eq_true, ↓reduceIte, beq_iff_eq] at h
    split at h
    case isTrue same =>
      cases h
      exact ⟨[], cs, by rw [same]; rfl, List.not_mem_nil, rfl⟩
    case isFalse other =>
      obtain ⟨m, found, rfl⟩ := Option.map_eq_some_iff.1 h
      obtain ⟨body, rest, rfl, apart, rfl⟩ := ih found
      exact ⟨c :: body, rest, rfl, List.not_mem_cons_of_ne_of_not_mem (Ne.symm other) apart, rfl⟩

/-- A quotation ends at the next quote of its kind, where no backslash in it takes that along. -/
theorem Text.closingLength?_content {escapes : Bool} {q : Char} {content : List Char} (apart : q ∉ content)
    (plain : escapes = true → q ≠ '\\' ∧ '\\' ∉ content) (rest : List Char) :
    closingLength? escapes q (content ++ q :: rest) = some (content.length + 1) := by
  induction content with
  | nil =>
    have unescaped : (escapes && q == '\\') = false := by
      cases escapes with
      | false => rfl
      | true => exact beq_false_of_ne (plain rfl).1
    rw [List.nil_append, closingLength?.eq_def]
    simp [unescaped]
  | cons c content ih =>
    obtain ⟨other, apart⟩ := List.ne_and_not_mem_of_not_mem_cons apart
    have unescaped : (escapes && c == '\\') = false := by
      cases escapes with
      | false => rfl
      | true => exact beq_false_of_ne fun same => (plain rfl).2 (same ▸ List.mem_cons_self)
    rw [List.cons_append, closingLength?.eq_def]
    have later := ih apart fun on => (plain on).imp_right fun none mem => none (List.mem_cons_of_mem _ mem)
    simp [unescaped, other.symm, later]

namespace Lexeme

theorem exists_of_map_succ {ε : Type} {r : Except ε Nat} {n : Nat} (h : r.map (· + 1) = .ok n) :
    ∃ m, r = .ok m ∧ n = m + 1 := by
  cases r with
  | error e => cases h
  | ok m => exact ⟨m, rfl, (Except.ok.inj h).symm⟩

/-- The group that is found ends before the closer of the outermost of the open ones. -/
theorem head?_of_groupLength {opener : Char} {skip : Nat} {closers cs : List Char} {n : Nat}
    (h : groupLength opener skip closers cs = .ok n) {d : Char} (outermost : closers.getLast? = some d) :
    (cs.drop n).head? = some d := by
  fun_induction groupLength opener skip closers cs generalizing n with
  | case1 | case4 | case6 => cases h
  | case2 _ _ _ _ ih | case3 _ _ _ _ _ _ ih | case9 _ _ _ _ _ _ ih =>
    obtain ⟨m, found, rfl⟩ := exists_of_map_succ h
    exact ih found outermost
  | case5 closers c cs _ _ ih =>
    obtain ⟨m, found, rfl⟩ := exists_of_map_succ h
    refine ih found ?_
    rw [List.getLast?_cons, outermost]
    rfl
  | case7 closers c cs _ _ _ innermost only =>
    cases h
    cases closers with
    | nil => cases outermost
    | cons e closers =>
      simp only [List.head?_cons, bne_iff_ne, ne_eq, Option.some.injEq, Decidable.not_not] at innermost
      cases closers with
      | nil =>
        cases outermost
        rw [innermost]
        rfl
      | cons => cases only
  | case8 closers c cs _ _ _ _ more ih =>
    obtain ⟨m, found, rfl⟩ := exists_of_map_succ h
    refine ih found ?_
    cases closers with
    | nil => cases outermost
    | cons e closers =>
      cases closers with
      | nil => exact absurd rfl more
      | cons e' closers => rwa [List.getLast?_cons_cons] at outermost

theorem exists_of_groupLength {c : Char} {cs : List Char} {n : Nat}
    (h : groupLength c 0 [closer c] cs = .ok n) :
    ∃ inner rest, cs = inner ++ closer c :: rest ∧ n = inner.length := by
  have behind : (cs.drop n).head? = some (closer c) := head?_of_groupLength h rfl
  obtain ⟨rest, split⟩ := List.head?_eq_some_iff.1 behind
  have length : n ≤ cs.length := by
    have left := congrArg List.length split
    rw [List.length_drop, List.length_cons] at left
    omega
  refine ⟨cs.take n, rest, ?_, (List.length_take_of_le length).symm⟩
  rw [← split, List.take_append_drop]

theorem opener_facts {c : Char} (opens : isOpener c = true) : Text.isQuote c = false ∧ isCloser (closer c) = true := by
  rcases isOpener_cases opens with rfl | rfl | rfl <;> exact ⟨rfl, rfl⟩

theorem closer_facts {c : Char} (closes : isCloser c = true) : Text.isQuote c = false ∧ isOpener c = false := by
  rcases isCloser_cases closes with rfl | rfl | rfl <;> exact ⟨rfl, rfl⟩

/-! ## The scan -/

/-- The scan over the whole text, from a place inside. -/
abbrev lexFrom (pending cs : List Char) : List Lexeme := Text.scan scanStep flush pending cs

/-- What is neither a quote nor a delimiter. -/
structure Steady (c : Char) : Prop where
  quote : Text.isQuote c = false
  opens : isOpener c = false
  closes : isCloser c = false

/-- A class of characters without any quote or delimiter is steady. -/
theorem steady_of_apart {p : Char → Bool} {c : Char}
    (apart : ['"', '\'', '`', '(', '[', '{', ')', ']', '}'].any p = false) (h : p c = true) : Steady c := by
  have other : c ∉ ['"', '\'', '`', '(', '[', '{', ')', ']', '}'] := fun mem => List.any_eq_false.1 apart c mem h
  simp only [List.mem_cons, List.not_mem_nil, or_false, not_or] at other
  exact ⟨by simp [Text.isQuote, other], by simp [isOpener, other], by simp [isCloser, other]⟩

/-- A class of characters without any of operators belongs to none. -/
theorem plain_of_apart {p : Char → Bool} {c : Char}
    (apart : ['!', '^', '*', '/', '%', '+', '-', '<', '>', '=', '&', '|', '?'].any p = false) (h : p c = true) :
    isOperatorChar c = false := by
  have other : c ∉ ['!', '^', '*', '/', '%', '+', '-', '<', '>', '=', '&', '|', '?'] := fun mem =>
    List.any_eq_false.1 apart c mem h
  simp only [List.mem_cons, List.not_mem_nil, or_false, not_or] at other
  simp [isOperatorChar, other]

/-- The text, behind the pending characters of a word, is these lexemes. -/
inductive Lexed : (pending : List Char) → List Char → List Lexeme → Prop
  | ended {pending : List Char} : Lexed pending [] (flush pending)
  | quotation {pending body cs : List Char} {ls : List Lexeme} {q : Char} (isQuote : Text.isQuote q = true)
      (apart : q ∉ body) (rest : Lexed [] cs ls) :
      Lexed pending (q :: (body ++ q :: cs)) (flush pending ++ quoted body :: ls)
  | group {pending inner cs : List Char} {ls : List Lexeme} {c : Char} (opens : isOpener c = true)
      (rest : Lexed [] cs ls) :
      Lexed pending (c :: (inner ++ closer c :: cs)) (flush pending ++ ofGroup c inner :: ls)
  | blank {pending cs : List Char} {ls : List Lexeme} {c : Char} (blank : Text.isBlank c = true)
      (rest : Lexed [] cs ls) : Lexed pending (c :: cs) (flush pending ++ ls)
  | sign {pending cs : List Char} {ls : List Lexeme} {c : Char} (isOperator : isOperatorChar c = true)
      (rest : Lexed [] cs ls) : Lexed pending (c :: cs) (flush pending ++ operator [c] :: ls)
  | twoSigns {pending cs : List Char} {ls : List Lexeme} {c d : Char} {op : BinaryOp} (chars : op.chars = [c, d])
      (rest : Lexed [] cs ls) : Lexed pending (c :: d :: cs) (flush pending ++ operator [c, d] :: ls)
  | char {pending cs : List Char} {ls : List Lexeme} {c : Char} (steady : Steady c) (shown : Text.isBlank c = false)
      (isOperator : isOperatorChar c = true → c = '+' ∨ c = '-') (rest : Lexed (c :: pending) cs ls) :
      Lexed pending (c :: cs) ls

section

variable {pending cs : List Char} {c : Char}

theorem lexFrom_stop {ls : List Lexeme} (step : scanStep pending c cs = .stop ls) :
    lexFrom pending (c :: cs) = ls := by
  rw [lexFrom, Text.scan_cons, step]
  exact List.append_nil ls

theorem lexFrom_swallow {l : Lexeme} (skipped : List Char)
    (step : scanStep pending c (skipped ++ cs) = .swallow (flush pending ++ [l]) skipped.length []) :
    lexFrom pending (c :: (skipped ++ cs)) = flush pending ++ l :: lexFrom [] cs := by
  rw [List.append_cons]
  exact Text.scan_swallow step

theorem lexFrom_quotation (quote : Text.isQuote c = true) {n : Nat} (found : Text.closingLength? false c cs = some n) :
    lexFrom pending (c :: cs) = flush pending ++ quoted (cs.take (n - 1)) :: lexFrom [] (cs.drop n) := by
  have length : (cs.take n).length = n := List.length_take_of_le (Text.closingLength?_le found).2
  have scanned := @lexFrom_swallow pending (cs.drop n) c (quoted (cs.take (n - 1))) (cs.take n)
  rw [List.take_append_drop, length] at scanned
  exact scanned (by simp [scanStep, quote, found])

theorem lexFrom_openQuotation (pending : List Char) (quote : Text.isQuote c = true)
    (found : Text.closingLength? false c cs = none) : unmatched c ∈ lexFrom pending (c :: cs) := by
  have stop : scanStep pending c cs = .stop (flush pending ++ [unmatched c]) := by simp [scanStep, quote, found]
  simp [lexFrom_stop stop]

theorem lexFrom_group (opens : isOpener c = true) {n : Nat} (found : groupLength c 0 [closer c] cs = .ok n) :
    lexFrom pending (c :: cs) = flush pending ++ ofGroup c (cs.take n) :: lexFrom [] (cs.drop (n + 1)) := by
  obtain ⟨inner, rest, rfl, rfl⟩ := exists_of_groupLength found
  have scanned := @lexFrom_swallow pending rest c (ofGroup c inner) (inner ++ [closer c])
  rw [← List.append_cons, List.length_append, List.length_singleton] at scanned
  rw [List.take_left, List.drop_append, List.drop_of_length_le (Nat.le_succ _), Nat.add_sub_cancel_left]
  exact scanned (by simp [scanStep, (opener_facts opens).1, opens, found])

theorem lexFrom_openGroup (pending : List Char) (opens : isOpener c = true) {d : Char}
    (found : groupLength c 0 [closer c] cs = .error d) : unmatched d ∈ lexFrom pending (c :: cs) := by
  have stop : scanStep pending c cs = .stop (flush pending ++ [unmatched d]) := by
    simp [scanStep, (opener_facts opens).1, opens, found]
  simp [lexFrom_stop stop]

theorem lexFrom_quote (pending cs : List Char) (quote : Text.isQuote c = true) :
    (∃ d, unmatched d ∈ lexFrom pending (c :: cs)) ∨
    ∃ body rest, cs = body ++ c :: rest ∧ c ∉ body ∧
      lexFrom pending (c :: cs) = flush pending ++ quoted body :: lexFrom [] rest := by
  cases found : Text.closingLength? false c cs with
  | none => exact .inl ⟨c, lexFrom_openQuotation pending quote found⟩
  | some n =>
    have scanned := @lexFrom_quotation pending cs c quote n found
    obtain ⟨body, rest, rfl, apart, rfl⟩ := Text.exists_of_closingLength? found
    refine .inr ⟨body, rest, rfl, apart, ?_⟩
    simpa using scanned

theorem lexFrom_opener (pending cs : List Char) (opens : isOpener c = true) :
    (∃ d, unmatched d ∈ lexFrom pending (c :: cs)) ∨
    ∃ inner rest, cs = inner ++ closer c :: rest ∧
      lexFrom pending (c :: cs) = flush pending ++ ofGroup c inner :: lexFrom [] rest := by
  cases found : groupLength c 0 [closer c] cs with
  | error d => exact .inl ⟨d, lexFrom_openGroup pending opens found⟩
  | ok n =>
    have scanned := @lexFrom_group pending cs c opens n found
    obtain ⟨inner, rest, rfl, rfl⟩ := exists_of_groupLength found
    refine .inr ⟨inner, rest, rfl, ?_⟩
    simpa using scanned

theorem lexFrom_closer (quote : Text.isQuote c = false) (opens : isOpener c = false) (closes : isCloser c = true) :
    unmatched c ∈ lexFrom pending (c :: cs) := by
  have stop : scanStep pending c cs = .stop [unmatched c] := by simp [scanStep, quote, opens, closes]
  rw [lexFrom_stop stop]
  exact List.mem_singleton_self _

theorem lexFrom_blank (steady : Steady c) (blank : Text.isBlank c = true) :
    lexFrom pending (c :: cs) = flush pending ++ lexFrom [] cs := by
  have step : scanStep pending c cs = .emit (flush pending) [] := by
    simp [scanStep, steady.quote, steady.opens, steady.closes, blank]
  exact Text.scan_emit step

theorem operatorAt_cases (c : Char) (cs : List Char) : operatorAt c cs = [c] ∨
    ∃ d rest op, cs = d :: rest ∧ BinaryOp.chars op = [c, d] ∧ operatorAt c cs = [c, d] := by
  cases cs with
  | nil => exact .inl rfl
  | cons d rest =>
    cases known : BinaryOp.ofChars? [c, d] with
    | none => exact .inl (by simp [operatorAt, known])
    | some op =>
      exact .inr ⟨d, rest, op, rfl, (BinaryOp.ofChars?_eq_some_iff.1 known).symm, by simp [operatorAt, known]⟩

/-- The second character of an operator is steady, as the first one is. -/
theorem steady_of_binary {op : BinaryOp} {c d : Char} (chars : op.chars = [c, d]) : Steady d := by
  cases op <;> cases chars <;> exact ⟨rfl, rfl, rfl⟩

theorem lexFrom_symbol {more : List Char} (steady : Steady c) (blank : Text.isBlank c = false)
    (sign : (isOperatorChar c && !continuesExponent pending c) = true)
    (symbol : operatorAt c (more ++ cs) = c :: more) :
    lexFrom pending (c :: (more ++ cs)) = flush pending ++ operator (c :: more) :: lexFrom [] cs := by
  refine lexFrom_swallow more ?_
  simp [scanStep, steady.quote, steady.opens, steady.closes, blank, sign, symbol]

theorem lexFrom_sign (cs : List Char) (steady : Steady c) (blank : Text.isBlank c = false)
    (sign : (isOperatorChar c && !continuesExponent pending c) = true) :
    lexFrom pending (c :: cs) = flush pending ++ operator [c] :: lexFrom [] cs ∨
    ∃ d rest op, cs = d :: rest ∧ BinaryOp.chars op = [c, d] ∧
      lexFrom pending (c :: cs) = flush pending ++ operator [c, d] :: lexFrom [] rest := by
  rcases operatorAt_cases c cs with one | ⟨d, rest, op, rfl, chars, two⟩
  · exact .inl (@lexFrom_symbol pending cs c [] steady blank sign one)
  · exact .inr ⟨d, rest, op, rfl, chars, @lexFrom_symbol pending rest c [d] steady blank sign two⟩

theorem lexFrom_char (steady : Steady c) (blank : Text.isBlank c = false)
    (sign : (isOperatorChar c && !continuesExponent pending c) = false) :
    lexFrom pending (c :: cs) = lexFrom (c :: pending) cs := by
  have step : scanStep pending c cs = .emit [] (c :: pending) := by
    simp [scanStep, steady.quote, steady.opens, steady.closes, blank, sign]
  exact Text.scan_emit step

end

theorem lexed_lexFrom (pending : List Char) : (cs : List Char) →
    (∀ d, unmatched d ∉ lexFrom pending cs) → Lexed pending cs (lexFrom pending cs)
  | [], _ => .ended
  | c :: cs, matched => by
    have behind {l : Lexeme} {ls : List Lexeme} {d : Char} (h : unmatched d ∈ ls) :
        unmatched d ∈ flush pending ++ l :: ls := List.mem_append_right _ (List.mem_cons_of_mem _ h)
    cases quote : Text.isQuote c with
    | true =>
      rcases lexFrom_quote pending cs quote with ⟨d, mem⟩ | ⟨body, rest, rfl, apart, scanned⟩
      · exact absurd mem (matched d)
      · rw [scanned] at matched ⊢
        exact .quotation quote apart (lexed_lexFrom [] rest fun d mem => matched d (behind mem))
    | false =>
    cases opens : isOpener c with
    | true =>
      rcases lexFrom_opener pending cs opens with ⟨d, mem⟩ | ⟨inner, rest, rfl, scanned⟩
      · exact absurd mem (matched d)
      · rw [scanned] at matched ⊢
        exact .group opens (lexed_lexFrom [] rest fun d mem => matched d (behind mem))
    | false =>
    cases closes : isCloser c with
    | true => exact absurd (lexFrom_closer quote opens closes) (matched c)
    | false =>
    have steady : Steady c := ⟨quote, opens, closes⟩
    cases blank : Text.isBlank c with
    | true =>
      rw [lexFrom_blank steady blank] at matched ⊢
      exact .blank blank (lexed_lexFrom [] cs fun d mem => matched d (List.mem_append_right _ mem))
    | false =>
    cases sign : isOperatorChar c && !continuesExponent pending c with
    | true =>
      have isOperator : isOperatorChar c = true := (Bool.and_eq_true_iff.1 sign).1
      rcases lexFrom_sign cs steady blank sign with scanned | ⟨d, rest, op, rfl, chars, scanned⟩
      · rw [scanned] at matched ⊢
        exact .sign isOperator (lexed_lexFrom [] cs fun d mem => matched d (behind mem))
      · rw [scanned] at matched ⊢
        exact .twoSigns chars (lexed_lexFrom [] rest fun d mem => matched d (behind mem))
    | false =>
      rw [lexFrom_char steady blank sign] at matched ⊢
      refine .char steady blank (fun isOperator => ?_) (lexed_lexFrom (c :: pending) cs matched)
      simp only [isOperator, Bool.true_and, Bool.not_eq_false', continuesExponent, Bool.and_eq_true, Bool.or_eq_true,
        beq_iff_eq] at sign
      exact sign.1.1
termination_by cs => cs.length

theorem lexed_lexemes {text : List Char} (matched : ∀ d, unmatched d ∉ lexemes text) :
    Lexed [] text (lexemes text) := lexed_lexFrom [] text matched

variable {pending cs : List Char} {ls : List Lexeme} {c : Char}

/-- The pending word is the first lexeme. -/
theorem Lexed.head (h : Lexed pending cs ls) (more : pending ≠ []) :
    ∃ text ls', ls = word text :: ls' ∧ ∀ x ∈ pending, x ∈ text := by
  have flushed : flush pending = [word pending.reverse] := if_neg (by simpa using more)
  have kept : ∀ x ∈ pending, x ∈ pending.reverse := fun x mem => List.mem_reverse.2 mem
  induction h with
  | ended | quotation | group | blank | sign | twoSigns =>
    rw [flushed]
    exact ⟨_, _, rfl, kept⟩
  | char steady shown isOperator rest ih =>
    obtain ⟨text, ls', split, all⟩ := ih (List.cons_ne_nil _ _) (if_neg Bool.false_ne_true)
      fun x mem => List.mem_reverse.2 mem
    exact ⟨text, ls', split, fun x mem => all x (List.mem_cons_of_mem _ mem)⟩

/-! ## One character -/

/-- Behind a character that starts neither a quotation nor a group the scan goes on with the next one, unless an
operator takes both. -/
theorem Lexed.next (h : Lexed pending (c :: cs) ls) (steady : Steady c)
    (single : ∀ d, ∀ op : BinaryOp, op.chars ≠ [c, d]) : ∃ pending' ls', Lexed pending' cs ls' ∧ ls' <:+ ls := by
  cases h with
  | quotation isQuote => rw [steady.quote] at isQuote; cases isQuote
  | group opens => rw [steady.opens] at opens; cases opens
  | blank blank rest => exact ⟨_, _, rest, List.suffix_append _ _⟩
  | sign isOperator rest => exact ⟨_, _, rest, (List.suffix_cons _ _).trans (List.suffix_append _ _)⟩
  | twoSigns chars => exact absurd chars (single _ _)
  | char steady shown isOperator rest => exact ⟨_, _, rest, List.suffix_refl _⟩

theorem Lexed.next_blank (h : Lexed pending (c :: cs) ls) (blank : Text.isBlank c = true) :
    ∃ ls', ls = flush pending ++ ls' ∧ Lexed [] cs ls' := by
  have steady : Steady c := steady_of_apart rfl blank
  have plain : isOperatorChar c = false := plain_of_apart rfl blank
  cases h with
  | quotation isQuote => rw [steady.quote] at isQuote; cases isQuote
  | group opens => rw [steady.opens] at opens; cases opens
  | blank _ rest => exact ⟨_, rfl, rest⟩
  | sign isOperator => rw [plain] at isOperator; cases isOperator
  | @twoSigns _ _ _ _ d op chars => cases op <;> cases chars <;> cases plain
  | char _ shown => rw [blank] at shown; cases shown

/-- The characters of words. -/
structure Wordlike (c : Char) : Prop where
  steady : Steady c
  shown : Text.isBlank c = false
  plain : isOperatorChar c = false

theorem Lexed.next_char (h : Lexed pending (c :: cs) ls) (word : Wordlike c) : Lexed (c :: pending) cs ls := by
  obtain ⟨steady, shown, plain⟩ := word
  cases h with
  | quotation isQuote => rw [steady.quote] at isQuote; cases isQuote
  | group opens => rw [steady.opens] at opens; cases opens
  | blank blank => rw [shown] at blank; cases blank
  | sign isOperator => rw [plain] at isOperator; cases isOperator
  | @twoSigns _ _ _ _ d op chars => cases op <;> cases chars <;> cases plain
  | char _ _ _ rest => exact rest

theorem Lexed.blanks {blanks : List Char} (all : ∀ x ∈ blanks, Text.isBlank x = true)
    (h : Lexed [] (blanks ++ cs) ls) : Lexed [] cs ls := by
  induction blanks with
  | nil => exact h
  | cons b blanks ih =>
    obtain ⟨first, all⟩ := List.forall_mem_cons.1 all
    obtain ⟨ls', rfl, h⟩ := h.next_blank first
    exact ih all h

/-- Blanks between two characters of words make two words of them. -/
theorem Lexed.two_words {blanks : List Char} {d : Char} (h : Lexed pending (c :: (blanks ++ d :: cs)) ls)
    (hc : Wordlike c) (hd : Wordlike d) (some : blanks ≠ []) (all : ∀ x ∈ blanks, Text.isBlank x = true) :
    ∃ a b ls', ls = word a :: word b :: ls' := by
  obtain ⟨b, blanks, rfl⟩ := List.exists_cons_of_ne_nil some
  obtain ⟨first, all⟩ := List.forall_mem_cons.1 all
  obtain ⟨ls', rfl, behind⟩ := (h.next_char hc).next_blank first
  have second : Lexed [] (d :: cs) ls' := Lexed.blanks all behind
  obtain ⟨text, ls', rfl, -⟩ := (second.next_char hd).head (List.cons_ne_nil _ _)
  exact ⟨_, text, ls', rfl⟩

/-! ## Characters of lexemes -/

/-- The text of a lexeme, with the delimiter that opens it. -/
def chars : Lexeme → List Char
  | word text => text
  | operator symbol => symbol
  | quoted content => content
  | parens inner => '(' :: inner
  | brackets inner => '[' :: inner
  | braces inner => '{' :: inner
  | unmatched delimiter => [delimiter]

theorem chars_ofGroup (opens : isOpener c = true) (inner : List Char) : (ofGroup c inner).chars = c :: inner := by
  rcases isOpener_cases opens with rfl | rfl | rfl <;> rfl

theorem mem_flush_append {l : Lexeme} (mem : l ∈ flush pending ++ ls) : l.chars ⊆ pending ∨ l ∈ ls := by
  refine (List.mem_append.1 mem).imp_left fun flushed => ?_
  rw [flush] at flushed
  split at flushed
  · cases flushed
  · cases List.mem_singleton.1 flushed
    exact fun x inside => List.mem_reverse.1 inside

theorem Lexed.chars_subset (h : Lexed pending cs ls) : ∀ l ∈ ls, l.chars ⊆ pending ++ cs := by
  induction h with
  | @ended pending =>
    intro l mem
    rw [← List.append_nil (flush pending)] at mem
    rcases mem_flush_append mem with inside | mem
    · exact List.subset_append_of_subset_left [] inside
    · cases mem
  | quotation isQuote apart rest ih | group opens rest ih | blank blank rest ih | sign isOperator rest ih
  | twoSigns chars rest ih =>
    intro l mem
    rcases mem_flush_append mem with inside | mem
    · exact List.subset_append_of_subset_left _ inside
    · grind [Lexeme.chars, chars_ofGroup]
  | char steady shown isOperator rest ih => grind

/-! ## Arguments -/

/-- The texts, with commas and semicolons between them, are the whole text. -/
inductive Joined : List (List Char) → List Char → Prop
  | last {text : List Char} : Joined [text] text
  | more {text whole : List Char} {texts : List (List Char)} {c : Char} (separator : c = ',' ∨ c = ';')
      (rest : Joined texts whole) : Joined (text :: texts) (text ++ c :: whole)

/-- A separator outside all groups ends a piece; everything else belongs to it. -/
theorem splitStep_cases (s : SplitState) (c : Char) (cs : List Char) :
    ((c = ',' ∨ c = ';') ∧ splitStep s c cs = .swallow [s.piece.reverse] 0 ⟨[], []⟩) ∨
      ∃ n t, splitStep s c cs = .swallow [] n t ∧ t.piece.reverse ++ cs.drop n = s.piece.reverse ++ c :: cs := by
  rw [splitStep]
  split
  · exact .inr ⟨_, _, rfl, by simp⟩
  split
  · exact .inr ⟨0, _, rfl, by simp⟩
  split
  · exact .inr ⟨0, _, rfl, by simp⟩
  split
  case isTrue separator =>
    simp only [Bool.and_eq_true, Bool.or_eq_true, beq_iff_eq] at separator
    exact .inl ⟨separator.1, rfl⟩
  case isFalse => exact .inr ⟨0, _, rfl, by simp⟩

/-- The splitting of a text, from a place inside. -/
abbrev splitFrom (s : SplitState) (cs : List Char) : List (List Char) :=
  Text.scan splitStep (fun s => [s.piece.reverse]) s cs

theorem joined_splitFrom (s : SplitState) (cs : List Char) : Joined (splitFrom s cs) (s.piece.reverse ++ cs) := by
  match cs with
  | [] =>
    rw [List.append_nil]
    exact .last
  | c :: cs =>
    rw [splitFrom, Text.scan_cons]
    rcases splitStep_cases s c cs with ⟨separator, step⟩ | ⟨n, t, step, whole⟩
    · rw [step]
      exact .more separator (joined_splitFrom ⟨[], []⟩ cs)
    · rw [step, ← whole]
      exact joined_splitFrom t (cs.drop n)
termination_by cs.length

theorem joined_splitArgs (inner : List Char) : Joined (splitArgs inner) inner := joined_splitFrom ⟨[], []⟩ inner

theorem Joined.subset {texts : List (List Char)} {whole : List Char} (h : Joined texts whole) :
    ∀ text ∈ texts, text ⊆ whole := by
  induction h with
  | last => exact fun text mem => List.mem_singleton.1 mem ▸ List.Subset.refl _
  | more separator rest ih =>
    intro text mem
    rcases List.mem_cons.1 mem with rfl | mem
    · exact List.subset_append_left _ _
    · exact fun x inside => List.mem_append_right _ (List.mem_cons_of_mem _ (ih text mem inside))

end Lexeme

end ExactFormula
