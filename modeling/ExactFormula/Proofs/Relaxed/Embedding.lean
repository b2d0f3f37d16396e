import ExactFormula.Proofs.Relaxed.Reading
import ExactFormula.Proofs.Relaxed.Strict
import ExactFormula.Proofs.Relaxed.TidyValue

/-!
A formula as the only value of an object. Whether values with calls are wrapped or not, the strict text of the
object has the formula as one string with the marker in front.
-/

namespace ExactFormula.Relaxed

/-- The name of the only member of the object. -/
def letter : BareKey := .ofLetter 'k' rfl

/-- The object that has the text as its only value. -/
def embedded (text : List Char) : List Char := '{' :: 'k' :: ':' :: ' ' :: (text ++ ['}'])

/-- Texts that say the same as a value as they say on their own, when they are accepted formulas: nothing in them
steers the reading of an object, or is a value there that is no formula. -/
structure Embeddable (wrap : Bool) (text : List Char) : Prop where
  trimmed : Text.trim text = text
  simple : Text.Simple text
  colon : text.head? ≠ some ':'
  numeral : Decimal.isNumeral text = false
  date : isDate text = false
  word : isJsonWord text = false
  quotes : (∃ c ∈ text, Text.isQuote c = true) → wrap = true ∧ DirectCall text

variable {marker text : List Char} {wrap : Bool}

/-- What the text starts with is no mark of an object. -/
theorem structural_of_tidy {c : Char} {cs : List Char} (tidy : Tidy false (c :: cs)) (simple : Text.Simple (c :: cs))
    (colon : (c :: cs).head? ≠ some ':') : isStructural c = false := by
  have comma : c ≠ ',' := by
    rintro rfl
    exact tidy.not_comma
  have other := simple c List.mem_cons_self
  simp_all [isStructural]

/-! ## Wrapping -/

theorem wrapValue_eq (simple : Text.Simple text) : wrapValue marker text = Text.quote (marker ++ text) := by
  have plain : (text.any fun c => c == '{' || c == '[') = false := by
    rw [List.any_eq_false]
    intro c mem
    have other := simple c mem
    simp_all
  rw [wrapValue, plain]
  rfl

theorem wrapCalls_embedded (tidy : Tidy false text) (simple : Text.Simple text) (solid : Text.Solid text)
    (colon : text.head? ≠ some ':') : wrapCalls marker (embedded text) =
      embedded (if hasCall 0 text then Text.quote (marker ++ text) else text) := by
  obtain ⟨c, rest, rfl, shown⟩ := solid.head
  have structural : isStructural c = false := structural_of_tidy tidy simple colon
  have length : valueLength 0 0 0 0 (c :: (rest ++ ['}'])) = rest.length + 1 := by
    have ends : ValueEnds ['}'] := .mark (.inr (.inl rfl))
    rw [← List.cons_append, tidy.valueLength_eq nofun, ends.valueLength_eq]
    rfl
  have scanned : wrapFrom marker ⟨[true], false, true⟩ (c :: (rest ++ ['}'])) =
      (if hasCall 0 (c :: rest) then Text.quote (marker ++ c :: rest) else c :: rest) ++ ['}'] := by
    rw [wrapFrom_value rfl rfl (isSpace_of_shown shown) structural length, solid.trimmed, wrapValue_eq simple,
      wrapFrom_closer (.inl rfl)]
    rfl
  have key : wrapFrom marker ⟨[true], true, false⟩ (['k'] ++ ':' :: ' ' :: (c :: (rest ++ ['}']))) =
      ['k'] ++ wrapFrom marker ⟨[true], true, false⟩ (':' :: ' ' :: (c :: (rest ++ ['}']))) :=
    wrapFrom_copied (fun c mem => ⟨(letter.plain c mem).2.2, (letter.plain c mem).2.1⟩) rfl _
  have opened : wrapCalls marker (embedded (c :: rest)) =
      '{' :: wrapFrom marker ⟨[true], true, false⟩ (['k'] ++ ':' :: ' ' :: (c :: (rest ++ ['}']))) :=
    wrapFrom_openBrace _ _
  rw [opened, key, wrapFrom_colon, wrapFrom_space rfl, scanned]
  rfl

/-! ## Normalizing -/

/-- The name `k`, a colon and a space. -/
def embeddingKey : Key := ⟨[], .bare letter, [], oneSpace⟩

/-- The object that has the quoted text as its only value. -/
def embedding (text : List Char) : Source := .object (.last embeddingKey (.quoted (.ofText text)) [])

theorem chars_embedding (text : List Char) : (embedding text).chars = embedded (Text.quote text) := by
  rw [embedding, Source.chars, Members.chars, Source.chars]
  simp [embedded, Key.chars, embeddingKey, oneSpace, Gap.chars, Filler.chars, Name.chars]
  rfl

theorem strict_embedding (text : List Char) : (embedding text).strict marker =
    '{' :: (embeddingKey.strict ++ (Text.quote text ++ ['}'])) := by
  rw [embedding, Source.strict, Members.strict, Source.strict]
  rfl

theorem value_embedding (bare : List Char → Json) (text : List Char) :
    (embedding text).value bare = .object [("k", .string (String.ofList text))] := by
  rw [embedding, Source.value, Members.putAll, Source.value]
  rfl

theorem Embeddable.strictValue_eq (h : Embeddable wrap text) :
    strictValue marker text = Text.quote (marker ++ text) := by
  rw [strictValue, h.numeral, h.date, h.word]
  rfl

/-- As a bare value, the text is read to its end. -/
theorem Embeddable.normalFrom_eq (h : Embeddable wrap text) (tidy : Tidy false text) (solid : Text.Solid text)
    (quoteless : ∀ c ∈ text, Text.isQuote c = false) (undated : bareDate? (text ++ ['}']) = none) :
    normalFrom marker ⟨[true], false⟩ (text ++ ['}']) =
      Text.quote (marker ++ text) ++ normalFrom marker ⟨[true], false⟩ ['}'] := by
  have stops : Stops true ['}'] := .closer (.inl rfl)
  have scanned : normalFrom marker ⟨[true], false⟩ (text ++ ['}']) =
      strictValue marker text ++ normalFrom marker ⟨[true], false⟩ ['}'] := by
    refine normalFrom_bareText solid (fun c first => ?_) (fun date found => ?_) (fun w stop spaces stops => ?_)
      stops.follows
    · obtain ⟨cs, rfl⟩ := List.head?_eq_some_iff.1 first
      exact structural_of_tidy tidy h.simple h.colon
    · rw [undated] at found
      cases found
    · exact (tidy.bareValue_eq nofun quoteless (w ++ stop)).trans (congrArg _ (bareValue_spaces spaces stops))
  rwa [h.strictValue_eq] at scanned

theorem normalFrom_embedded (scanned : normalFrom marker ⟨[true], false⟩ (text ++ ['}']) =
      Text.quote (marker ++ text) ++ normalFrom marker ⟨[true], false⟩ ['}']) :
    normalFrom marker ⟨[], false⟩ (embedded text) = (embedding (marker ++ text)).strict marker := by
  have split : embedded text = '{' :: (embeddingKey.chars ++ (text ++ ['}'])) := rfl
  rw [split, normalFrom_openBrace, normalFrom_key, scanned, normalFrom_closer (.inl rfl), strict_embedding]
  rfl

/-- Whichever way the text is taken, its object is the one with the marked text. -/
theorem Embeddable.normalizeChars_eq (h : Embeddable wrap text) (tidy : Tidy false text) (solid : Text.Solid text)
    (undated : bareDate? (text ++ ['}']) = none) :
    normalizeChars marker wrap (embedded text) = (embedding (marker ++ text)).strict marker := by
  have wrapped : (if wrap then wrapCalls marker (embedded text) else embedded text) =
      embedded (if wrap && hasCall 0 text then Text.quote (marker ++ text) else text) := by
    cases wrap with
    | true => exact wrapCalls_embedded tidy h.simple solid h.colon
    | false => rfl
  rw [normalizeChars, wrapped]
  split
  case isTrue called =>
    let d : Document := ⟨[], embedding (marker ++ text), [], none, by simp⟩
    have chars : d.chars = embedded (Text.quote (marker ++ text)) := by
      have whole : d.chars = d.root.chars ++ [] := rfl
      rw [whole, List.append_nil, chars_embedding]
    rw [← chars]
    exact d.normalizeChars_eq
  case isFalse callless =>
    have quoteless : ∀ c ∈ text, Text.isQuote c = false := by
      intro c mem
      refine Bool.eq_false_iff.2 fun quote => callless ?_
      obtain ⟨rfl, direct⟩ := h.quotes ⟨c, mem, quote⟩
      exact hasCall_of_directCall h.simple direct
    have scanned : normalFrom marker ⟨[], false⟩ (embedded text) = (embedding (marker ++ text)).strict marker :=
      normalFrom_embedded (h.normalFrom_eq tidy solid quoteless undated)
    exact (congrArg Text.trim scanned).trans (Source.solid marker _).trimmed

/-- The object is read as the one with the marked text, as its only value. -/
theorem Embeddable.parseChars_eq (h : Embeddable wrap text) (tidy : Tidy false text) (solid : Text.Solid text)
    (undated : bareDate? (text ++ ['}']) = none) : parseChars marker wrap (embedded text) =
      .ok (.object [("k", .string (String.ofList (marker ++ text)))]) := by
  have shallow : (embedding (marker ++ text)).depth < Json.nestingLimit := by
    rw [embedding, Source.depth, Members.depth, Source.depth]
    decide
  rw [parseChars, h.normalizeChars_eq tidy solid undated, Source.ofChars_strict _ shallow, value_embedding]

end ExactFormula.Relaxed
