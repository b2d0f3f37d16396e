import Mathlib.Data.List.TakeWhile
import ExactFormula.Proofs.Relaxed.Dates
import ExactFormula.Proofs.Relaxed.Source

/-!
Where bare keys and values end. A bare value may be followed by spaces, which are taken along with it, and
then by a comment, a comma, a closing bracket or the end of the text.
-/

namespace ExactFormula.Relaxed

theorem isBlank_of_isSpace {c : Char} (h : isSpace c = true) : Text.isBlank c = true := by
  rcases isSpace_cases h with rfl | rfl | rfl | rfl <;> decide

theorem isSpace_of_shown {c : Char} (h : Text.isBlank c = false) : isSpace c = false := by
  cases space : isSpace c with
  | false => rfl
  | true => rw [isBlank_of_isSpace space] at h; cases h

theorem quote_facts {q : Char} (h : Text.isQuote q = true) :
    Text.isBlank q = false ∧ isStructural q = false ∧ q ≠ '/' := by
  rcases Text.isQuote_cases h with rfl | rfl | rfl <;> decide

/-! ## Blanks -/

/-- A blank is in no class of characters that are not blank. -/
theorem apart_of_blank {c : Char} {p : Char → Bool} (h : Text.isBlank c = true)
    (apart : ∀ d, p d = true → Text.isBlank d = false) : p c = false := by
  refine Bool.eq_false_iff.2 fun known => ?_
  rw [apart c known] at h
  cases h

theorem isDigit_of_blank {c : Char} (h : Text.isBlank c = true) : c.isDigit = false := by
  refine apart_of_blank h fun d digit => ?_
  simp only [Char.isDigit, Bool.and_eq_true, decide_eq_true_eq, ge_iff_le, UInt32.le_iff_toNat_le] at digit
  have range : 48 ≤ d.toNat ∧ d.toNat ≤ 57 := digit
  simp only [Text.isBlank, Bool.or_eq_false_iff, Bool.and_eq_false_iff, decide_eq_false_iff_not, beq_eq_false_iff_ne]
  omega

theorem isStructural_of_blank {c : Char} (h : Text.isBlank c = true) : isStructural c = false := by
  refine apart_of_blank h fun d mark => ?_
  simp only [isStructural, Bool.or_eq_true, beq_iff_eq, or_assoc] at mark
  rcases mark with rfl | rfl | rfl | rfl | rfl | rfl <;> rfl

theorem isDateChar_of_blank {c : Char} (h : Text.isBlank c = true) : isDateChar c = false := by
  refine apart_of_blank h fun d date => ?_
  simp only [isDateChar, Bool.or_eq_true, beq_iff_eq, or_assoc] at date
  rcases date with digit | rfl | rfl | rfl | rfl | rfl | rfl | rfl | rfl
  · refine Bool.eq_false_iff.2 fun blank => ?_
    rw [isDigit_of_blank blank] at digit
    cases digit
  all_goals rfl

theorem isNameStart_of_blank {c : Char} (h : Text.isBlank c = true) : isNameStart c = false := by
  refine apart_of_blank h fun d start => ?_
  simp only [isNameStart, Bool.or_eq_true, beq_iff_eq, or_assoc] at start
  rcases start with alpha | rfl | rfl
  · have range := Text.toNat_of_isAlpha alpha
    simp only [Text.isBlank, Bool.or_eq_false_iff, Bool.and_eq_false_iff, decide_eq_false_iff_not, beq_eq_false_iff_ne]
    omega
  all_goals rfl

theorem plain_of_blank {c : Char} (h : Text.isBlank c = true) :
    Text.isQuote c = false ∧ c ∉ ['(', ')', '{', '}', '[', ']', ','] ∧ c ≠ '/' := by
  refine ⟨apart_of_blank h fun d quote => (quote_facts quote).1, fun mem => ?_, ?_⟩
  · simp only [List.mem_cons, List.not_mem_nil, or_false] at mem
    rcases mem with rfl | rfl | rfl | rfl | rfl | rfl | rfl <;> cases h
  · rintro rfl
    cases h

/-! ## Comments -/

namespace Uncommented

variable {c : Char} {cs rest : List Char}

theorem tail (h : Uncommented (c :: cs)) : Uncommented cs where
  line infix_ := h.line (infix_.trans (List.suffix_cons c cs).isInfix)
  block infix_ := h.block (infix_.trans (List.suffix_cons c cs).isInfix)
  slash suffix := h.slash (suffix.trans (List.suffix_cons c cs))

theorem opensComment_eq (h : Uncommented ('/' :: cs)) (rest : List Char) : opensComment (cs ++ rest) = false := by
  cases cs with
  | nil => exact absurd (List.suffix_refl _) h.slash
  | cons d cs =>
    have line : d ≠ '/' := by
      rintro rfl
      exact h.line (List.prefix_append ['/', '/'] cs).isInfix
    have block : d ≠ '*' := by
      rintro rfl
      exact h.block (List.prefix_append ['/', '*'] cs).isInfix
    simp [opensComment, line, block]

/-- No comment starts at any place of the text, whatever follows. -/
theorem not_opens (h : Uncommented (c :: cs)) (rest : List Char) :
    (c == '/' && opensComment (cs ++ rest)) = false := by
  by_cases slash : c = '/'
  · subst slash
    exact h.opensComment_eq rest
  · simp [slash]

end Uncommented

theorem uncommented_of_slashless {text : List Char} (h : '/' ∉ text) : Uncommented text where
  line infix_ := h (infix_.subset List.mem_cons_self)
  block infix_ := h (infix_.subset List.mem_cons_self)
  slash suffix := h (suffix.subset List.mem_cons_self)

/-! ## Keys -/

/-- A letter on its own is a key. -/
def BareKey.ofLetter (c : Char) (h : c.isAlpha = true) : BareKey where
  text := [c]
  nonempty := List.cons_ne_nil c []
  plain x mem := by
    cases List.mem_singleton.1 mem
    have other {p : Char → Bool} (apart : ∀ d, p d = true → d.isAlpha = false) : p c = false := by
      refine Bool.eq_false_iff.2 fun known => ?_
      rw [apart c known] at h
      cases h
    refine ⟨other fun d known => ?_, other fun d known => ?_, other fun d known => ?_⟩
    · rcases isSpace_cases known with rfl | rfl | rfl | rfl <;> rfl
    · simp only [isStructural, Bool.or_eq_true, beq_iff_eq, or_assoc] at known
      rcases known with rfl | rfl | rfl | rfl | rfl | rfl <;> rfl
    · rcases Text.isQuote_cases known with rfl | rfl | rfl <;> rfl
  uncommented := by
    refine uncommented_of_slashless fun mem => ?_
    cases List.mem_singleton.1 mem
    cases h

/-- A bare key ends here. -/
inductive EndsKey : List Char → Prop
  | space {c : Char} {cs : List Char} (h : isSpace c = true) : EndsKey (c :: cs)
  | comment {cs : List Char} (h : opensComment cs = true) : EndsKey ('/' :: cs)
  | colon {cs : List Char} : EndsKey (':' :: cs)

theorem EndsKey.gap (g : Gap) (rest : List Char) : EndsKey (g.chars ++ ':' :: rest) := by
  cases g with
  | nil => exact .colon
  | cons filler g =>
    cases filler with
    | space c h => exact .space h
    | line text h => exact .comment rfl
    | block text h => exact .comment rfl

theorem EndsKey.bareKey_eq {cs : List Char} (h : EndsKey cs) : bareKey cs = [] := by
  cases h with
  | space h => simp [bareKey, h]
  | comment h => simp [bareKey, h]
  | colon => simp [bareKey, isStructural]

/-- A bare key starts with no space, no mark, no quote and no comment. -/
theorem bareKey_head {c : Char} {cs : List Char} (h : bareKey (c :: cs) ≠ []) : isSpace c = false ∧
    isStructural c = false ∧ Text.isQuote c = false ∧ (c == '/' && opensComment cs) = false := by
  rw [bareKey] at h
  split at h
  case isTrue => exact absurd rfl h
  case isFalse plain => simpa only [Bool.or_eq_true, not_or, Bool.not_eq_true, and_assoc] using plain

theorem bareKey_append {key rest : List Char}
    (plain : ∀ c ∈ key, isSpace c = false ∧ isStructural c = false ∧ Text.isQuote c = false)
    (uncommented : Uncommented key) (h : EndsKey rest) : bareKey (key ++ rest) = key := by
  induction key with
  | nil => exact h.bareKey_eq
  | cons c key ih =>
    obtain ⟨⟨space, structural, quote⟩, plain⟩ := List.forall_mem_cons.1 plain
    rw [List.cons_append, bareKey, space, structural, quote, uncommented.not_opens rest,
      ih plain uncommented.tail]
    rfl

/-! ## Values -/

/-- A bare value ends here, the blanks behind it included. -/
inductive Stops (nested : Bool) : List Char → Prop
  | ended : Stops nested []
  | comment {cs : List Char} (h : opensComment cs = true) : Stops nested ('/' :: cs)
  | closer {c : Char} {cs : List Char} (h : c = '}' ∨ c = ']') : Stops nested (c :: cs)
  | comma {cs : List Char} (h : nested = true) : Stops nested (',' :: cs)

/-- Spaces, and then the end of a bare value. -/
structure Follows (nested : Bool) (cs : List Char) : Prop where
  split : ∃ w rest, cs = w ++ rest ∧ (∀ c ∈ w, isSpace c = true) ∧ Stops nested rest

variable {nested : Bool} {cs rest : List Char}

theorem Stops.follows (h : Stops nested cs) : Follows nested cs := ⟨[], cs, rfl, nofun, h⟩

theorem Follows.gap (g : Gap) (h : Follows nested rest) : Follows nested (g.chars ++ rest) := by
  induction g with
  | nil => exact h
  | cons filler g ih =>
    cases filler with
    | space c space =>
      obtain ⟨w, rest', split, spaces, stops⟩ := ih.split
      refine ⟨c :: w, rest', ?_, List.forall_mem_cons.2 ⟨space, spaces⟩, stops⟩
      exact congrArg (c :: ·) split
    | line text h => exact (Stops.comment rfl).follows
    | block text h => exact (Stops.comment rfl).follows

theorem Stops.bareValue_eq (h : Stops nested cs) : bareValue nested 0 0 0 cs = [] := by
  cases h with
  | ended => rfl
  | comment h => simp [bareValue, h, Text.isQuote]
  | closer h => rcases h with rfl | rfl <;> simp [bareValue]
  | comma h => simp [bareValue, h]

/-- A bare value starts with no quote and no comment. -/
theorem bareValue_head {c : Char} {b k p : Nat} (h : bareValue nested b k p (c :: cs) ≠ []) :
    Text.isQuote c = false ∧ (c == '/' && opensComment cs) = false := by
  constructor
  · refine Bool.eq_false_iff.2 fun quote => h ?_
    rcases Text.isQuote_cases quote with rfl | rfl | rfl <;> simp [bareValue, Text.isQuote]
  · refine Bool.eq_false_iff.2 fun comment => h ?_
    rw [Bool.and_eq_true, beq_iff_eq] at comment
    obtain ⟨rfl, opens⟩ := comment
    simp [bareValue, opens]

/-- Nothing of a bare value opens or closes anything. -/
theorem bareValue_cons {c : Char} (plain : Text.isQuote c = false ∧ c ∉ ['(', ')', '{', '}', '[', ']', ','])
    (commentless : (c == '/' && opensComment cs) = false) :
    bareValue nested 0 0 0 (c :: cs) = c :: bareValue nested 0 0 0 cs := by
  obtain ⟨quote, other⟩ := plain
  simp only [List.mem_cons, List.not_mem_nil, or_false, not_or] at other
  rw [bareValue]
  simp [quote, other, commentless]

theorem bareValue_blanks {w : List Char} (blank : ∀ c ∈ w, Text.isBlank c = true)
    (ends : bareValue nested 0 0 0 rest = []) : bareValue nested 0 0 0 (w ++ rest) = w := by
  induction w with
  | nil => exact ends
  | cons c w ih =>
    obtain ⟨first, blank⟩ := List.forall_mem_cons.1 blank
    obtain ⟨quote, other, slash⟩ := plain_of_blank first
    rw [List.cons_append, bareValue_cons ⟨quote, other⟩ (by simp [slash]), ih blank]

theorem bareValue_spaces {w : List Char} (spaces : ∀ c ∈ w, isSpace c = true) (h : Stops nested rest) :
    bareValue nested 0 0 0 (w ++ rest) = w :=
  bareValue_blanks (fun c mem => isBlank_of_isSpace (spaces c mem)) h.bareValue_eq

theorem bareValue_append {text w : List Char}
    (plain : ∀ c ∈ text, Text.isQuote c = false ∧ c ∉ ['(', ')', '{', '}', '[', ']', ','])
    (uncommented : Uncommented text) (blank : ∀ c ∈ w, Text.isBlank c = true) (h : Stops nested rest) :
    bareValue nested 0 0 0 (text ++ (w ++ rest)) = text ++ w := by
  induction text with
  | nil => exact bareValue_blanks blank h.bareValue_eq
  | cons c text ih =>
    obtain ⟨plain, plains⟩ := List.forall_mem_cons.1 plain
    rw [List.cons_append, bareValue_cons plain (uncommented.not_opens _), ih plains uncommented.tail,
      List.cons_append]

theorem strictText_append (marker : List Char) {text w : List Char} (solid : Text.Solid text)
    (blank : ∀ c ∈ w, Text.isBlank c = true) :
    strictText marker (text ++ w) = strictValue marker text ++ w := by
  obtain ⟨c, text, rfl, shown⟩ := solid.head
  have start : Text.trimStart (c :: text ++ w) = c :: text ++ w :=
    List.dropWhile_cons_of_neg (by simp [shown])
  simp only [strictText, start, Text.trimEnd_append_blanks _ blank, solid.trimEnd_eq]
  simp

/-- Blanks behind a text of any kind are kept. -/
theorem strictText_blanks (marker text : List Char) {w : List Char} (blank : ∀ c ∈ w, Text.isBlank c = true) :
    strictText marker (text ++ w) = strictText marker text ++ w := by
  cases start : Text.trimStart text with
  | nil =>
    have none : Text.trimStart (text ++ w) = [] := by
      rw [Text.trimStart, List.dropWhile_eq_nil_iff] at start ⊢
      exact List.forall_mem_append.2 ⟨start, blank⟩
    simp [strictText, start, none]
  | cons c cs =>
    have start' : Text.trimStart (text ++ w) = c :: cs ++ w := by
      rw [Text.trimStart] at start ⊢
      rw [List.dropWhile_append, start]
      rfl
    have shorter : (Text.trimEnd (c :: cs)).length ≤ (c :: cs).length := Text.length_trimEnd_le (c :: cs)
    rw [strictText, strictText, start, start', Text.trimEnd_append_blanks _ blank,
      List.drop_append_of_le_length shorter]
    simp

/-! ## Dates -/

/-- No date goes on here. -/
def BreaksDate (cs : List Char) : Prop :=
  cs.takeWhile isDateChar = [] ∨ ∃ more, cs = '/' :: more ∧ opensComment more = true

theorem Follows.breaksDate (h : Follows nested rest) : BreaksDate rest := by
  obtain ⟨w, stop, rfl, spaces, stops⟩ := h.split
  clear h
  cases w with
  | nil =>
    cases stops with
    | ended => exact .inl rfl
    | comment h => exact .inr ⟨_, rfl, h⟩
    | closer h => rcases h with rfl | rfl <;> exact .inl rfl
    | comma h => exact .inl rfl
  | cons c w =>
    have space := spaces c List.mem_cons_self
    left
    rcases isSpace_cases space with rfl | rfl | rfl | rfl <;> rfl

/-- A slash that opens a comment belongs to no date. -/
theorem not_dateLike_comment {before : List Char} (h : opensComment cs = true) :
    ¬DateLike (before ++ ('/' :: cs).takeWhile isDateChar) := by
  intro like
  obtain ⟨d, rest, split, digit⟩ := like.behind_slash
  have head : cs.head? = some d := by
    cases cs with
    | nil => cases split
    | cons c cs =>
      rw [List.takeWhile_cons] at split
      split at split
      · cases split
        rfl
      · cases split
  cases cs with
  | nil => cases h
  | cons c cs =>
    cases head
    simp only [opensComment, Bool.or_eq_true, beq_iff_eq] at h
    rcases h with rfl | rfl <;> cases digit

/-- What is read as a date at the start of the text is all of it, spaces behind it apart. -/
def Undivided (text rest : List Char) : Prop :=
  ∀ date, bareDate? (text ++ rest) = some date → ∃ spaces, text = date ++ spaces ∧ ∀ c ∈ spaces, c = ' '

theorem isDate_of_bareDate? {date : List Char} (h : bareDate? cs = some date) :
    isDate date = true ∧ date ≠ [] ∧ date = cs.takeWhile isDateChar := by
  simp only [bareDate?] at h
  split at h
  case isFalse => cases h
  case isTrue conditions =>
    simp only [Bool.and_eq_true, decide_eq_true_eq] at conditions
    obtain ⟨⟨⟨⟨-, long⟩, -⟩, isDate⟩, -⟩ := conditions
    cases h
    refine ⟨isDate, ?_, rfl⟩
    rintro none
    rw [none] at long
    exact absurd long (by decide)

/-- Where a date ends before blanks and a mark, the mark is the first of what is not blank. -/
theorem endsDate_shown {text : List Char} (shown : ∃ c ∈ text, Text.isBlank c = false)
    (h : endsDate (text ++ rest) = true) :
    ∃ d, (text.dropWhile (· == ' ')).head? = some d ∧ d ∈ [',', '}', ']', ':'] := by
  obtain ⟨c, mem, shown⟩ := shown
  cases left : text.dropWhile (· == ' ') with
  | nil =>
    have spaces := List.dropWhile_eq_nil_iff.1 left c mem
    rw [beq_iff_eq.1 spaces] at shown
    cases shown
  | cons d ds =>
    obtain ⟨x, text, rfl⟩ := List.exists_cons_of_ne_nil (List.ne_nil_of_mem mem)
    rw [List.cons_append, endsDate, ← List.cons_append, List.dropWhile_append, left, Bool.and_eq_true] at h
    refine ⟨d, rfl, ?_⟩
    simpa [or_assoc] using h.2

/-- What a date leaves of a token: nothing, or it starts with a character that dates have only as a digit. -/
theorem exists_takeWhile_isDateChar (text : List Char) : (∀ c ∈ text, isDateChar c = true) ∨
    ∃ date c other, text = date ++ c :: other ∧ (∀ c ∈ date, isDateChar c = true) ∧ isDateChar c = false := by
  cases left : text.dropWhile isDateChar with
  | nil => exact .inl (List.dropWhile_eq_nil_iff.1 left)
  | cons c other =>
    refine .inr ⟨text.takeWhile isDateChar, c, other, ?_, fun _ => List.mem_takeWhile_imp, ?_⟩
    · rw [← left, List.takeWhile_append_dropWhile]
    · have first := List.head?_dropWhile_not isDateChar text
      rwa [left] at first

/-- What is read as a date at the start of a text is all of it, or a mark stands behind it, spaces apart. -/
theorem bareDate?_cases {text date : List Char} (solid : Text.Solid text) (h : bareDate? (text ++ rest) = some date) :
    isDate date = true ∧ (date = text ++ rest.takeWhile isDateChar ∨
      ∃ c other d, text = date ++ c :: other ∧ (∀ x ∈ date, isDateChar x = true) ∧ isDateChar c = false ∧
        ((c :: other).dropWhile (· == ' ')).head? = some d ∧ d ∈ [',', '}', ']', ':']) := by
  simp only [bareDate?] at h
  split at h
  case isFalse => cases h
  case isTrue conditions =>
    simp only [Bool.and_eq_true] at conditions
    obtain ⟨⟨-, isDate⟩, ends⟩ := conditions
    cases h
    refine ⟨isDate, ?_⟩
    rcases exists_takeWhile_isDateChar text with all | ⟨date, c, other, rfl, all, otherwise⟩
    · exact .inl (List.takeWhile_append_of_pos all)
    · have cut : (date ++ c :: other ++ rest).takeWhile isDateChar = date := by
        rw [List.append_assoc, List.takeWhile_append_of_pos all, List.cons_append,
          List.takeWhile_cons_of_neg (by simp [otherwise]), List.append_nil]
      rw [cut, List.append_assoc, List.drop_left] at ends
      obtain ⟨d, first, mark⟩ := endsDate_shown (solid.exists_shown (List.cons_ne_nil c other)) ends
      exact .inr ⟨c, other, d, by rw [cut], by rwa [cut], otherwise, first, mark⟩

/-- What follows a text adds nothing to a date. -/
theorem BreaksDate.eq {text date : List Char} (h : BreaksDate rest) (same : date = text ++ rest.takeWhile isDateChar)
    (isDate : isDate date = true) : date = text := by
  rcases h with none | ⟨more, rfl, opens⟩
  · rw [same, none, List.append_nil]
  · exact absurd (same ▸ dateLike_of_isDate isDate) (not_dateLike_comment opens)

/-- What is read as a date at the start of a bare value is all of it. -/
theorem BareValue.bareDate?_eq (token : BareValue) {date : List Char} (follows : Follows nested rest)
    (h : bareDate? (token.text ++ rest) = some date) : date = token.text := by
  obtain ⟨isDate, same | ⟨c, other, d, split, all, otherwise, first, mark⟩⟩ := bareDate?_cases token.solid h
  · exact follows.breaksDate.eq same isDate
  · exfalso
    have inside : d ∈ c :: other := (List.dropWhile_sublist _).subset (List.mem_of_mem_head? first)
    have inside : d ∈ token.text := split ▸ List.mem_append_right date inside
    have colon : d = ':' := by
      have plain := (token.plain d inside).2
      grind
    have like := dateLike_of_isDate (token.colon (colon ▸ inside))
    have digit : Text.isDecimalDigit c = true := by
      have known := like.mem c (split ▸ List.mem_append_right date List.mem_cons_self)
      simpa [otherwise] using known
    have space : (c == ' ') = false := by
      rw [beq_eq_false_iff_ne]
      rintro rfl
      cases digit
    rw [List.dropWhile_cons_of_neg (by simp [space])] at first
    cases first
    subst colon
    cases digit

end ExactFormula.Relaxed
