import ExactFormula.Proofs.Relaxed.BareText

/-!
Documents that the scan for calls copies, comments and all. Where no value is due, a comment only has to keep the marks
of documents in quotations; around a value, which takes it along, it may have no commas, brackets or calls of its own;
and in front of an array or an object none may stand, as it would take the opening bracket along.
-/

namespace ExactFormula.Relaxed

/-! ## Calls in parts -/

/-- Names and spaces apart, no opening parenthesis stands in front. -/
def Shut (cs : List Char) : Prop := (cs.dropWhile fun c => isNamePart c || isSpace c).head? ≠ some '('

/-- No call is found in the text, nor one that starts in front of it. -/
structure Silent (cs : List Char) : Prop where
  callless : hasCall 0 cs = false
  shut : Shut cs

theorem Silent.nil : Silent [] := ⟨rfl, nofun⟩

/-- With text in which no call is found, nothing comes of the part in front of it. -/
def Hushed (part : List Char) : Prop := ∀ rest, Silent rest → Silent (part ++ rest)

variable {part part' rest : List Char}

theorem Hushed.nil : Hushed [] := fun _ silent => silent

theorem Hushed.append (h : Hushed part) (h' : Hushed part') : Hushed (part ++ part') := by
  intro rest silent
  rw [List.append_assoc]
  exact h _ (h' rest silent)

theorem Hushed.callless (h : Hushed part) : ¬Calls part := by
  have silent := h [] .nil
  rw [List.append_nil] at silent
  rw [← hasCall_iff, silent.callless]
  decide

/-- All quotations of the text are closed, and there is no call outside them. -/
structure Quiet (part : List Char) : Prop where
  closed : OutsideQuotes part
  callless : ¬Calls part

theorem not_shut {w : List Char} (h : ∀ x ∈ w, (isNamePart x || isSpace x) = true) : ¬Shut (w ++ '(' :: rest) := by
  rw [Shut, List.dropWhile_append_of_pos h]
  exact fun shut => shut rfl

/-- No call goes from a quiet part into silent text. -/
theorem Quiet.callless_append (h : Quiet part) (silent : Silent rest) : hasCall 0 (part ++ rest) = false := by
  obtain ⟨closed, callless⟩ := h
  induction closed with
  | nil => exact silent.callless
  | @char c cs plain _ ih =>
    have later : ¬Calls cs := fun calls => callless (calls.behind (.char plain .nil))
    refine Bool.eq_false_iff.2 fun found => ?_
    have found : Calls (c :: (cs ++ rest)) := calls_of_hasCall _ found
    rcases found.cons_cases plain with calls | ⟨start, name, spaces, more, split, parts, between⟩
    · exact absurd calls (hasCall_iff.not.1 (Bool.eq_false_iff.1 (ih later)))
    -- The parenthesis stands in the silent text, or the whole call in the part.
    have spaced : ∀ x ∈ spaces, (isNamePart x || isSpace x) = true := fun x mem => by rw [between x mem, Bool.or_true]
    rcases List.append_eq_append_iff.1 split with ⟨name', rfl, behind⟩ | ⟨cs', rfl, inside⟩
    · rw [← List.append_assoc] at behind
      refine not_shut (fun x mem => ?_) (behind ▸ silent.shut)
      rcases List.mem_append.1 mem with mem | mem
      · rw [parts x (List.mem_append_right cs mem), Bool.true_or]
      · exact spaced x mem
    rcases List.append_eq_append_iff.1 inside with ⟨inner, rfl, behind⟩ | ⟨spaces', rfl, behind⟩
    · cases inner with
      | nil => exact not_shut (w := []) nofun (show Shut ('(' :: more) from behind ▸ silent.shut)
      | cons d inner =>
        obtain ⟨rfl, -⟩ := List.cons.inj behind
        exact callless ⟨[], c, name, spaces, inner, rfl, .nil, start, parts, between⟩
    · exact not_shut (fun x mem => spaced x (List.mem_append_right cs' mem)) (behind ▸ silent.shut)
  | quotation isQuote closes _ ih =>
    rw [List.cons_append, List.append_assoc, hasCall_quotation isQuote closes]
    refine ih fun calls => callless ?_
    rw [← hasCall_iff, hasCall_quotation isQuote closes]
    exact calls.hasCall_eq

theorem Shut.append (h : '(' ∉ part) (shut : Shut rest) : Shut (part ++ rest) := by
  induction part with
  | nil => exact shut
  | cons c part ih =>
    obtain ⟨other, h⟩ := not_or.1 (List.mem_cons.not.1 h)
    rw [Shut, List.cons_append, List.dropWhile_cons]
    split
    · exact ih h
    · exact fun same => other (Option.some.inj same).symm

theorem shut_cons {c : Char} {cs : List Char} (h : (isNamePart c || isSpace c) = false) (other : c ≠ '(') :
    Shut (c :: cs) := by
  rw [Shut, List.dropWhile_cons_of_neg (by simp [h])]
  exact fun same => other (Option.some.inj same)

theorem hushed_plain (quoteless : ∀ c ∈ part, Text.isQuote c = false) (parenless : '(' ∉ part) : Hushed part := by
  have callless : ¬Calls part := by
    rw [← hasCall_iff, hasCall_eq_false parenless]
    decide
  exact fun rest silent =>
    ⟨Quiet.callless_append ⟨outside_of_quoteless quoteless, callless⟩ silent, silent.shut.append parenless⟩

theorem Quiet.hushed {c : Char} {cs : List Char} (h : Quiet (c :: cs)) (first : (isNamePart c || isSpace c) = false)
    (other : c ≠ '(') : Hushed (c :: cs) :=
  fun _ silent => ⟨h.callless_append silent, shut_cons first other⟩

theorem BareValue.hushed (token : BareValue) : Hushed token.text :=
  hushed_plain (fun c mem => (token.plain c mem).1) fun mem => (token.plain _ mem).2 (by decide)

theorem Quotation.hushed (q : Quotation) : Hushed q.chars := by
  intro rest silent
  refine ⟨(q.hasCall_eq rest).trans silent.callless, shut_cons ?_ ?_⟩ <;>
    rcases Text.isQuote_cases q.isQuote with same | same | same <;> rw [same] <;> decide

theorem Filler.hushed {filler : Filler} (quiet : Quiet filler.chars) : Hushed filler.chars := by
  cases filler with
  | space c h =>
    refine hushed_plain (fun x mem => ?_) fun mem => ?_
    · cases List.mem_singleton.1 mem
      exact (plain_of_blank (isBlank_of_isSpace h)).1
    · cases List.mem_singleton.1 mem
      cases h
  | line text h => exact quiet.hushed rfl (by decide)
  | block text h => exact quiet.hushed rfl (by decide)

theorem Gap.hushed {g : Gap} (quiet : ∀ filler ∈ g, Quiet filler.chars) : Hushed g.chars := by
  induction g with
  | nil => exact .nil
  | cons filler g ih =>
    obtain ⟨first, quiet⟩ := List.forall_mem_cons.1 quiet
    exact (Filler.hushed first).append (ih quiet)

/-! ## Between tokens -/

/-- Nothing but spaces. -/
def Gap.Blank (g : Gap) : Prop := ∀ c ∈ g.chars, isSpace c = true

/-- Comments have marks of documents only inside quotations. -/
def Gap.Aside (g : Gap) : Prop := ∀ filler ∈ g, MarksQuoted filler.chars

/-- Comments are balanced, without brackets outside parentheses, and have no commas and no calls. -/
def Gap.Within (g : Gap) : Prop := ∀ filler ∈ g, Inline false filler.chars ∧ ¬Calls filler.chars

theorem MarksQuoted.append {text more : List Char} (h : MarksQuoted text) (h' : MarksQuoted more) :
    MarksQuoted (text ++ more) := by
  induction h with
  | nil => exact h'
  | char quote structural _ ih => exact .char quote structural ih
  | quotation isQuote closes _ ih =>
    rw [List.cons_append, List.append_assoc]
    exact .quotation isQuote closes ih

theorem Inline.outside {all : Bool} {text : List Char} (h : Inline all text) : OutsideQuotes text := by
  induction h with
  | nil => exact .nil
  | plain steady _ _ ih => exact .char steady.quote ih
  | quotation isQuote closes _ ih => exact .quotation isQuote closes ih
  | group opens _ inside _ ih =>
    refine .char ?_ ((outside_of_matched inside rfl).append (.char ?_ ih)) <;>
      rcases Lexeme.isOpener_cases opens with rfl | rfl | rfl <;> rfl

theorem Name.marksQuoted (name : Name) : MarksQuoted name.chars := by
  cases name with
  | bare key => exact marksQuoted_of_plain fun c mem => ⟨(key.plain c mem).2.2, (key.plain c mem).2.1⟩
  | quoted string =>
    have whole := MarksQuoted.quotation string.isQuote string.closes .nil
    rwa [List.append_nil] at whole

namespace Gap

variable {g : Gap}

theorem Aside.marksQuoted (h : g.Aside) : MarksQuoted g.chars := by
  induction g with
  | nil => exact .nil
  | cons filler g ih =>
    obtain ⟨first, h⟩ := List.forall_mem_cons.1 h
    exact first.append (ih h)

theorem Within.inline (h : g.Within) : Inline false g.chars := by
  induction g with
  | nil => exact .nil
  | cons filler g ih =>
    obtain ⟨first, h⟩ := List.forall_mem_cons.1 h
    exact first.1.append (ih h)

theorem Within.hushed (h : g.Within) : Hushed g.chars :=
  Gap.hushed fun filler mem => ⟨(h filler mem).1.outside, (h filler mem).2⟩

/-- Spaces apart, a comment stands in front, or what stands behind the gap. -/
theorem head_cases (g : Gap) (rest : List Char) : ((g.chars ++ rest).dropWhile isSpace).head? = some '/' ∨
    (g.chars ++ rest).dropWhile isSpace = rest.dropWhile isSpace := by
  induction g with
  | nil => exact .inr rfl
  | cons filler g ih =>
    cases filler with
    | space c space =>
      have skipped : (Gap.chars (.space c space :: g) ++ rest).dropWhile isSpace =
          (Gap.chars g ++ rest).dropWhile isSpace := List.dropWhile_cons_of_pos space
      rwa [skipped]
    | line | block => exact .inl rfl

end Gap

/-! ## Documents -/

mutual
/-- What stands in the value and around it keeps to its place. -/
def Source.Placed (before after : Gap) : Source → Prop
  | .bare _ => before.Within ∧ after.Within
  | .quoted _ => before.Within ∧ after.Within
  | .array items => before.Blank ∧ items.Placed ∧ after.Aside
  | .object members => before.Blank ∧ members.Placed ∧ after.Aside

def Items.Placed : Items → Prop
  | .close gap => gap.Within
  | .last before value after => value.Placed before after
  | .more before value after rest => value.Placed before after ∧ rest.Placed

def Members.Placed : Members → Prop
  | .close gap => gap.Aside
  | .last key value after => key.before.Aside ∧ key.colon.Aside ∧ value.Placed key.after after
  | .more key value after rest => key.before.Aside ∧ key.colon.Aside ∧ value.Placed key.after after ∧ rest.Placed
end

/-- No value is due at the root, so that a colon in it would be taken for one behind a name. -/
structure Document.Placed (d : Document) : Prop where
  before : d.before.Aside
  root : d.root.Placed [] []
  colon : ∀ token, d.root = .bare token → ':' ∉ token.text
  after : d.after.Aside
  ending : ∀ text ∈ d.ending, MarksQuoted ('/' :: '/' :: text)

/-! ## The scan -/

variable {marker : List Char}

theorem Inline.not_structural {c : Char} {cs : List Char} (h : Inline false (c :: cs)) (colon : c ≠ ':') :
    isStructural c = false := by
  generalize split : c :: cs = text at h
  cases h with
  | nil => cases split
  | plain steady comma =>
    obtain ⟨rfl, -⟩ := List.cons.inj split
    obtain ⟨-, opens, closes⟩ := steady
    simp only [Lexeme.isOpener, Lexeme.isCloser, Bool.or_eq_false_iff, beq_eq_false_iff_ne] at opens closes
    simp [isStructural, opens, closes, comma, colon]
  | quotation isQuote =>
    obtain ⟨rfl, -⟩ := List.cons.inj split
    exact (quote_facts isQuote).2.1
  | group _ allowed =>
    obtain ⟨rfl, -⟩ := List.cons.inj split
    rw [allowed.resolve_left Bool.false_ne_true]
    rfl

/-- Where a value is due, text without calls is copied up to its end. -/
theorem wrapFrom_within {text : List Char} (inline : Inline false text) (callless : ¬Calls text)
    (starts : (text.dropWhile isSpace).head? ≠ some ':') (structures : List Bool) : ∃ key due, ∀ rest, ValueEnds rest →
    wrapFrom marker ⟨structures, false, true⟩ (text ++ rest) =
      text ++ wrapFrom marker ⟨structures, key, due⟩ rest := by
  induction text with
  | nil => exact ⟨false, true, fun rest _ => rfl⟩
  | cons c text ih =>
    cases space : isSpace c with
    | true =>
      have steady : Lexeme.Steady c := by
        rcases isSpace_cases space with rfl | rfl | rfl | rfl <;> exact ⟨rfl, rfl, rfl⟩
      rw [List.dropWhile_cons_of_pos space] at starts
      have later := inline.behind (w := [c]) (by simpa using steady)
      obtain ⟨key, due, scanned⟩ := ih later (fun calls => callless (calls.behind (.char steady.quote .nil))) starts
      refine ⟨key, due, fun rest ends => ?_⟩
      rw [List.cons_append, wrapFrom_space space, scanned rest ends, List.cons_append]
    | false =>
      rw [List.dropWhile_cons_of_neg (by simp [space])] at starts
      have structural := inline.not_structural fun same => starts (congrArg some same)
      obtain ⟨key, due, scanned⟩ := wrapFrom_inline marker inline (by
        rintro d ⟨⟩
        exact ⟨space, structural⟩) structures
      rw [if_neg fun calls => callless calls.of_trim] at scanned
      exact ⟨key, due, scanned⟩

theorem BareValue.inline (token : BareValue) : Inline false token.text := by
  have plain : (token.text.all fun c =>
      !Text.isQuote c && !Lexeme.isOpener c && !Lexeme.isCloser c && c != ',') = true := by
    refine List.all_eq_true.2 fun c mem => ?_
    obtain ⟨quote, other⟩ := token.plain c mem
    simp only [List.mem_cons, List.not_mem_nil, or_false, not_or] at other
    simp [quote, Lexeme.isOpener, Lexeme.isCloser, other]
  have whole : Inline false (token.text ++ []) := .word plain .nil
  rwa [List.append_nil] at whole

theorem Quotation.inline (q : Quotation) : Inline false q.chars := by
  have whole : Inline false (q.quote :: (q.raw ++ [q.quote] ++ [])) := .quotation q.isQuote q.closes .nil
  rwa [List.append_nil] at whole

/-- A value that is no structure is taken with what stands around it. -/
theorem wrapFrom_around {text : List Char} {before after : Gap} (inline : Inline false text) (hushed : Hushed text)
    (starts : ∃ c ∈ text.head?, isSpace c = false ∧ isStructural c = false) (before_within : before.Within)
    (after_within : after.Within) (structures : List Bool) : ∃ key due, ∀ rest, ValueEnds rest →
    wrapFrom marker ⟨structures, false, true⟩ (before.chars ++ (text ++ (after.chars ++ rest))) =
      before.chars ++ (text ++ (after.chars ++ wrapFrom marker ⟨structures, key, due⟩ rest)) := by
  have whole : Inline false (before.chars ++ (text ++ after.chars)) :=
    before_within.inline.append (inline.append after_within.inline)
  have callless := (before_within.hushed.append (hushed.append after_within.hushed)).callless
  have first : ((before.chars ++ (text ++ after.chars)).dropWhile isSpace).head? ≠ some ':' := by
    rcases before.head_cases (text ++ after.chars) with comment | value
    · rw [comment]
      decide
    · obtain ⟨c, head, space, structural⟩ := starts
      obtain ⟨cs, rfl⟩ := List.head?_eq_some_iff.1 head
      rw [value, List.cons_append, List.dropWhile_cons_of_neg (by simp [space])]
      rintro ⟨⟩
      cases structural
  obtain ⟨key, due, scanned⟩ := wrapFrom_within whole callless first structures
  exact ⟨key, due, by simpa using scanned⟩

theorem Key.wrapFrom_placed {key : Key} (before : key.before.Aside) (colon : key.colon.Aside) (structures : List Bool)
    (rest : List Char) : wrapFrom marker ⟨structures, true, false⟩ (key.chars ++ rest) =
      key.before.chars ++ (key.name.chars ++ (key.colon.chars ++
        ':' :: wrapFrom marker ⟨structures, false, true⟩ (key.after.chars ++ rest))) := by
  simp only [Key.chars, List.append_assoc, List.cons_append]
  rw [wrapFrom_name before.marksQuoted rfl, wrapFrom_name key.name.marksQuoted rfl, wrapFrom_name colon.marksQuoted rfl,
    wrapFrom_colon]

variable (marker)

mutual
theorem Source.wrapFrom_placed {before after : Gap} : (v : Source) → v.Placed before after → (structures : List Bool) →
    ∃ key due, ∀ rest, ValueEnds rest →
    wrapFrom marker ⟨structures, false, true⟩ (before.chars ++ (v.chars ++ (after.chars ++ rest))) =
      before.chars ++ (v.chars ++ (after.chars ++ wrapFrom marker ⟨structures, key, due⟩ rest))
  | .bare token, h, structures => by
    rw [Source.Placed] at h
    obtain ⟨c, text, split, space, structural, -⟩ := token.head
    rw [Source.chars]
    exact wrapFrom_around token.inline token.hushed ⟨c, by rw [split]; rfl, space, structural⟩ h.1 h.2 structures
  | .quoted string, h, structures => by
    rw [Source.Placed] at h
    obtain ⟨shown, structural, -⟩ := quote_facts string.isQuote
    rw [Source.chars]
    exact wrapFrom_around string.inline string.hushed ⟨string.quote, rfl, isSpace_of_shown shown, structural⟩ h.1 h.2
      structures
  | .array items, h, structures => by
    rw [Source.Placed] at h
    refine ⟨false, false, fun rest _ => ?_⟩
    rw [wrapFrom_spaces h.1, Source.chars, List.cons_append, wrapFrom_openBracket, items.wrapFrom_placed h.2.1,
      wrapFrom_name h.2.2.marksQuoted rfl, List.cons_append]
  | .object members, h, structures => by
    rw [Source.Placed] at h
    refine ⟨false, false, fun rest _ => ?_⟩
    rw [wrapFrom_spaces h.1, Source.chars, List.cons_append, wrapFrom_openBrace, members.wrapFrom_placed h.2.1,
      wrapFrom_name h.2.2.marksQuoted rfl, List.cons_append]

theorem Items.wrapFrom_placed : (items : Items) → items.Placed → (structures : List Bool) → (rest : List Char) →
    wrapFrom marker ⟨false :: structures, false, true⟩ (items.chars ++ rest) =
      items.chars ++ wrapFrom marker ⟨structures, false, false⟩ rest
  | .close gap, h, structures, rest => by
    rw [Items.Placed] at h
    have first : (gap.chars.dropWhile isSpace).head? ≠ some ':' := by
      rcases gap.head_cases [] with comment | none
      · rw [List.append_nil] at comment
        rw [comment]
        decide
      · rw [List.append_nil] at none
        rw [none]
        exact nofun
    obtain ⟨key, due, scanned⟩ := @wrapFrom_within marker _ h.inline h.hushed.callless first (false :: structures)
    simp only [Items.chars, List.append_assoc, List.singleton_append]
    rw [scanned _ (.mark (.inr (.inr rfl))), wrapFrom_closer (.inr rfl)]
    rfl
  | .last before value after, h, structures, rest => by
    rw [Items.Placed] at h
    obtain ⟨key, due, scanned⟩ := value.wrapFrom_placed h (false :: structures)
    simp only [Items.chars, List.append_assoc, List.singleton_append]
    rw [scanned _ (.mark (.inr (.inr rfl))), wrapFrom_closer (.inr rfl)]
    rfl
  | .more before value after items, h, structures, rest => by
    rw [Items.Placed] at h
    obtain ⟨key, due, scanned⟩ := value.wrapFrom_placed h.1 (false :: structures)
    have comma : WrapState.afterComma ⟨false :: structures, key, due⟩ = ⟨false :: structures, false, true⟩ := rfl
    simp only [Items.chars, List.append_assoc, List.cons_append]
    rw [scanned _ (.mark (.inl rfl)), wrapFrom_comma, comma, items.wrapFrom_placed h.2]

theorem Members.wrapFrom_placed : (members : Members) → members.Placed → (structures : List Bool) →
    (rest : List Char) → wrapFrom marker ⟨true :: structures, true, false⟩ (members.chars ++ rest) =
      members.chars ++ wrapFrom marker ⟨structures, false, false⟩ rest
  | .close gap, h, structures, rest => by
    rw [Members.Placed] at h
    simp only [Members.chars, List.append_assoc, List.singleton_append]
    rw [wrapFrom_name h.marksQuoted rfl, wrapFrom_closer (.inl rfl)]
    rfl
  | .last key value after, h, structures, rest => by
    rw [Members.Placed] at h
    obtain ⟨before, colon, h⟩ := h
    obtain ⟨_, _, scanned⟩ := value.wrapFrom_placed h (true :: structures)
    simp only [Members.chars, List.append_assoc, List.singleton_append]
    rw [key.wrapFrom_placed before colon, scanned _ (.mark (.inr (.inl rfl))), wrapFrom_closer (.inl rfl)]
    simp [Key.chars]
  | .more key value after members, h, structures, rest => by
    rw [Members.Placed] at h
    obtain ⟨before, colon, h, placed⟩ := h
    obtain ⟨atKey, due, scanned⟩ := value.wrapFrom_placed h (true :: structures)
    have comma : WrapState.afterComma ⟨true :: structures, atKey, due⟩ = ⟨true :: structures, true, false⟩ := rfl
    simp only [Members.chars, List.append_assoc, List.cons_append]
    rw [key.wrapFrom_placed before colon, scanned _ (.mark (.inl rfl)), wrapFrom_comma, comma,
      members.wrapFrom_placed placed]
    simp [Key.chars]
end

/-- Where no value is due, a value is copied as well. -/
theorem Source.wrapFrom_root {v : Source} (h : v.Placed [] []) (colon : ∀ token, v = .bare token → ':' ∉ token.text)
    (rest : List Char) : wrapFrom marker ⟨[], false, false⟩ (v.chars ++ rest) =
      v.chars ++ wrapFrom marker ⟨[], false, false⟩ rest := by
  cases v with
  | bare token =>
    have marks : MarksQuoted token.text := marksQuoted_of_plain fun c mem => by
      obtain ⟨quote, other⟩ := token.plain c mem
      have colon : c ≠ ':' := fun same => colon token rfl (same ▸ mem)
      simp only [List.mem_cons, List.not_mem_nil, or_false, not_or] at other
      exact ⟨quote, by simp [isStructural, other, colon]⟩
    exact wrapFrom_name marks rfl rest
  | quoted string => exact wrapFrom_quotation string rfl rest
  | array items =>
    rw [Source.Placed] at h
    rw [Source.chars, List.cons_append, wrapFrom_openBracket, items.wrapFrom_placed marker h.2.1, List.cons_append]
  | object members =>
    rw [Source.Placed] at h
    rw [Source.chars, List.cons_append, wrapFrom_openBrace, members.wrapFrom_placed marker h.2.1, List.cons_append]

/-- Where comments keep to their places, the whole text is copied. -/
theorem Document.Placed.wrapCalls_eq {d : Document} (h : d.Placed) : wrapCalls marker d.chars = d.chars := by
  have ending : MarksQuoted (d.ending.elim [] ('/' :: '/' :: ·)) := by
    cases found : d.ending with
    | none => exact .nil
    | some text => exact h.ending text found
  have copied : wrapFrom marker ⟨[], false, false⟩ d.chars = d.chars := by
    have ended : wrapFrom marker ⟨[], false, false⟩ [] = [] := rfl
    have behind := @wrapFrom_name marker _ (h.after.marksQuoted.append ending) ⟨[], false, false⟩ rfl []
    rw [ended, List.append_nil] at behind
    rw [chars, wrapFrom_name h.before.marksQuoted rfl, Source.wrapFrom_root marker h.root h.colon, behind]
  exact copied

end ExactFormula.Relaxed
