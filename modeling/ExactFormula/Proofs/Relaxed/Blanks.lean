import ExactFormula.Proofs.Relaxed.Calls
import ExactFormula.Proofs.Relaxed.Embedding

/-!
Blanks behind a bare value. Normalizing trims them from the value and leaves them behind its strict text, so what comes
out is JSON exactly where all of them are spaces of JSON.
-/

namespace ExactFormula.Relaxed

/-- A bare value in which nothing groups, separates, names or opens a comment. -/
structure PlainValue (text : List Char) : Prop where
  solid : Text.Solid text
  plain : ∀ c ∈ text, Text.isQuote c = false ∧ c ∉ [',', ':', '(', ')', '{', '}', '[', ']', '/']

variable {marker text w : List Char}

namespace PlainValue

theorem not_mem (h : PlainValue text) {c : Char} (mark : c ∈ [',', ':', '(', ')', '{', '}', '[', ']', '/']) :
    c ∉ text :=
  fun mem => (h.plain c mem).2 mark

def bareValue (h : PlainValue text) : BareValue where
  text := text
  solid := h.solid
  plain c mem := by
    obtain ⟨quote, other⟩ := h.plain c mem
    exact ⟨quote, by grind⟩
  colon mem := absurd mem (h.not_mem (by decide))
  uncommented := uncommented_of_slashless (h.not_mem (by decide))

end PlainValue

/-! ## The strict text -/

theorem calls_opens (h : Calls text) : '(' ∈ text := by
  obtain ⟨before, c, name, spaces, rest, rfl, -⟩ := h
  simp

/-- What is read as a date in front of blanks and a brace is all of the value. -/
theorem PlainValue.bareDate?_eq (h : PlainValue text) (blank : ∀ c ∈ w, Text.isBlank c = true) {date : List Char}
    (found : bareDate? (text ++ (w ++ ['}'])) = some date) : date = text := by
  obtain ⟨isDate, same | ⟨c, other, d, split, -, -, first, mark⟩⟩ := bareDate?_cases h.solid found
  · have none : (w ++ ['}']).takeWhile isDateChar = [] := by
      cases w with
      | nil => rfl
      | cons c w =>
        have apart := isDateChar_of_blank (blank c List.mem_cons_self)
        exact List.takeWhile_cons_of_neg (by simp [apart])
    rw [none, List.append_nil] at same
    exact same
  · exfalso
    have inside : d ∈ c :: other := (List.dropWhile_sublist _).subset (List.mem_of_mem_head? first)
    exact h.not_mem (by grind) (split ▸ List.mem_append_right date inside)

theorem PlainValue.normalFrom_eq (h : PlainValue text) (blank : ∀ c ∈ w, Text.isBlank c = true) :
    normalFrom marker ⟨[true], false⟩ (text ++ (w ++ ['}'])) = strictValue marker text ++ (w ++ ['}']) := by
  have stops : Stops true ['}'] := .closer (.inl rfl)
  have token := h.bareValue
  have scanned : normalFrom marker ⟨[true], false⟩ (text ++ (w ++ ['}'])) =
      strictValue marker text ++ (w ++ normalFrom marker ⟨[true], false⟩ ['}']) := by
    refine normalFrom_blankText h.solid (fun c first => ?_) (fun date found => h.bareDate?_eq blank found) ?_ blank
      stops
    · obtain ⟨d, cs, split, -, structural, -⟩ := h.bareValue.head
      have split : text = d :: cs := split
      rw [split] at first
      cases first
      exact structural
    · exact bareValue_append h.bareValue.plain h.bareValue.uncommented blank stops
  rw [scanned, normalFrom_closer (.inl rfl)]
  rfl

/-- The blanks are left where they stand. -/
theorem PlainValue.normalizeChars_eq (h : PlainValue text) (blank : ∀ c ∈ w, Text.isBlank c = true) (wrap : Bool) :
    normalizeChars marker wrap (embedded (text ++ w)) =
      '{' :: (embeddingKey.strict ++ (strictValue marker text ++ (w ++ ['}']))) := by
  have callless : ¬Calls (embedded (text ++ w)) := by
    intro calls
    have opens := calls_opens calls
    simp only [embedded, List.mem_cons, List.mem_append, List.not_mem_nil, Char.reduceEq, false_or, or_false] at opens
    rcases opens with inside | behind
    · exact h.not_mem (by decide) inside
    · cases blank _ behind
  have copied : (if wrap then wrapCalls marker (embedded (text ++ w)) else embedded (text ++ w)) =
      embedded (text ++ w) := by
    rw [wrapCalls_of_callless callless, ite_self]
  have split : embedded (text ++ w) = '{' :: (embeddingKey.chars ++ (text ++ (w ++ ['}']))) := by
    simp [embedded, Key.chars, embeddingKey, oneSpace, Gap.chars, Filler.chars, Name.chars, letter, BareKey.ofLetter]
  have scanned : normalFrom marker ⟨[], false⟩ (embedded (text ++ w)) =
      '{' :: (embeddingKey.strict ++ (strictValue marker text ++ (w ++ ['}']))) := by
    rw [split, normalFrom_openBrace, normalFrom_key, h.normalFrom_eq blank]
  have ends : Text.Solid ('{' :: (embeddingKey.strict ++ (strictValue marker text ++ (w ++ ['}'])))) := by
    simpa [List.append_assoc] using
      Text.solid_of_ends (c := '{') (d := '}') rfl rfl (embeddingKey.strict ++ (strictValue marker text ++ w))
  rw [normalizeChars, copied]
  exact (congrArg Text.trim scanned).trans ends.trimmed

/-! ## Reading -/

/-- A blank that is no space of JSON starts no token of it. -/
theorem stray_of_blank {c : Char} (blank : Text.isBlank c = true) (space : isSpace c = false) : Json.Stray c where
  space := space
  quote := by
    rintro rfl
    cases blank
  number := by
    refine ⟨?_, isDigit_of_blank blank⟩
    rintro rfl
    cases blank
  punctuation := by
    unfold Json.punctuation?
    split
    case h_7 => rfl
    all_goals cases blank
  word := by
    unfold Json.word?
    split
    case h_4 => rfl
    all_goals cases blank

theorem PlainValue.parseChars_eq (h : PlainValue text) (blank : ∀ c ∈ w, Text.isBlank c = true) (wrap : Bool) :
    parseChars marker wrap (embedded (text ++ w)) =
      if w.all isSpace then .ok (.object [("k", bareJson marker text)]) else .error .malformed := by
  obtain ⟨raw, name, key, written, same⟩ := embeddingKey.strict_eq
  have name : String.ofList name = "k" := same.symm
  have reads : Json.Reads Json.nestingLimit 0 (strictValue marker text) (bareJson marker text) :=
    reads_strictValue marker text
  rw [parseChars, h.normalizeChars_eq blank, key]
  split
  case isTrue spaces =>
    have object := Json.Reads.object (.last embeddingKey.before.blank written embeddingKey.colon.blank
      embeddingKey.after.blank reads (List.all_eq_true.1 spaces))
    have blankless : Json.Blank [] := List.forall_mem_nil _
    have read := object.ofChars_eq (by decide) blankless blankless
    rw [List.nil_append, List.append_nil, name] at read
    exact read
  case isFalse other =>
    -- Up to the first of the other blanks the object is read, and there its next token is none.
    have split := (List.takeWhile_append_dropWhile (p := isSpace) (l := w)).symm
    cases left : w.dropWhile isSpace with
    | nil => exact absurd (List.all_eq_true.2 (List.dropWhile_eq_nil_iff.1 left)) other
    | cons c more =>
      have first := List.head?_dropWhile_not isSpace w
      rw [left] at first split
      have mem : c ∈ w := split ▸ List.mem_append_right _ List.mem_cons_self
      have stray : Json.Stray c := stray_of_blank (blank c mem) (by simpa using first)
      have spaces : Json.Blank (w.takeWhile isSpace) := fun x mem => List.mem_takeWhile_imp mem
      rw [split, List.append_assoc, List.cons_append]
      exact Json.ofChars_stray embeddingKey.before.blank written embeddingKey.colon.blank embeddingKey.after.blank reads
        (by decide) spaces stray (more ++ ['}'])

/-- Blanks behind a bare value change nothing if all are spaces of JSON, and otherwise the object is not read at all. -/
theorem parse_blanksBehind {token w : String} (plain : PlainValue token.toList)
    (blank : ∀ c ∈ w.toList, Text.isBlank c = true) (marker : String) (wrap : Bool) :
    parse ("\x7bk: " ++ token ++ "\x7d") marker wrap = .ok (.object [("k", bareJson marker.toList token.toList)]) ∧
      parse ("\x7bk: " ++ token ++ w ++ "\x7d") marker wrap =
        if w.toList.all isSpace then parse ("\x7bk: " ++ token ++ "\x7d") marker wrap else .error .malformed := by
  have alone : parse ("\x7bk: " ++ token ++ "\x7d") marker wrap =
      .ok (.object [("k", bareJson marker.toList token.toList)]) := by
    have text : ("\x7bk: " ++ token ++ "\x7d").toList = embedded (token.toList ++ []) := by
      simp [embedded]
    rw [parse, text, plain.parseChars_eq (List.forall_mem_nil _)]
    rfl
  have behind : ("\x7bk: " ++ token ++ w ++ "\x7d").toList = embedded (token.toList ++ w.toList) := by
    simp [embedded]
  refine ⟨alone, ?_⟩
  rw [alone, parse, behind, plain.parseChars_eq blank]

theorem plainValue_letter : PlainValue "b".toList where
  solid := ⟨by decide, by decide⟩
  plain := by simp [Text.isQuote]

theorem parse_blanksBehind_spaces : PlainValue "b".toList ∧ (∀ c ∈ " \t".toList, Text.isBlank c = true) ∧
    parse "\x7bk: b\x7d" "#" true = .ok (.object [("k", .string "#b")]) ∧
      parse "\x7bk: b \t\x7d" "#" true = parse "\x7bk: b\x7d" "#" true := by
  have blank : ∀ c ∈ " \t".toList, Text.isBlank c = true := List.all_eq_true.1 rfl
  have read := parse_blanksBehind plainValue_letter blank "#" true
  exact ⟨plainValue_letter, blank, read⟩

/-- A no-break space is trimmed from the value and stays behind its strict text, where JSON has no place for it. -/
theorem noBreakSpace_malformed : ¬∀ token w marker : String, ∀ wrap : Bool, PlainValue token.toList →
    (∀ c ∈ w.toList, Text.isBlank c = true) → ∃ v, parse ("\x7bk: " ++ token ++ w ++ "\x7d") marker wrap = .ok v ∧
      parse ("\x7bk: " ++ token ++ "\x7d") marker wrap = .ok v := by
  intro invisible
  obtain ⟨v, read, -⟩ := invisible "b" "\u00a0" "#" false plainValue_letter (List.all_eq_true.1 rfl)
  have refused : (parse "\x7bk: b\u00a0\x7d" "#" false).isOk = false := by decide
  have same : "\x7bk: " ++ "b" ++ "\u00a0" ++ "\x7d" = "\x7bk: b\u00a0\x7d" := by decide
  rw [← same, read] at refused
  cases refused

end ExactFormula.Relaxed
