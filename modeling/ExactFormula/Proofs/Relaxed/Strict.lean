import ExactFormula.Proofs.Json.Number
import ExactFormula.Proofs.Relaxed.Placed
import ExactFormula.Proofs.Relaxed.Reading

/-!
Strict JSON among the relaxed documents: white space only, double quotes, numbers and the words of JSON, no
trailing commas. Wrapping changes nothing in it, and reading gives its value, in which each number is its
text.
-/

namespace ExactFormula.Relaxed

/-! ## The grammar -/

def Filler.IsStrict : Filler → Prop
  | space _ _ => True
  | line _ _ => False
  | block _ _ => False

def Gap.IsStrict (g : Gap) : Prop := ∀ filler ∈ g, filler.IsStrict

def BareValue.IsStrict (token : BareValue) : Prop :=
  Json.IsNumber token.text ∨ (jsonWord? token.text).isSome = true

def Quotation.IsStrict (q : Quotation) : Prop := q.quote = '"'

def Name.IsStrict : Name → Prop
  | bare _ => False
  | quoted string => string.IsStrict

structure Key.IsStrict (key : Key) : Prop where
  before : key.before.IsStrict
  name : key.name.IsStrict
  colon : key.colon.IsStrict
  after : key.after.IsStrict

mutual
def Source.IsStrict : Source → Prop
  | .bare token => token.IsStrict
  | .quoted string => string.IsStrict
  | .array items => items.IsStrict
  | .object members => members.IsStrict

/-- Something stands behind each comma. -/
def Items.IsStrict : Items → Prop
  | .close gap => gap.IsStrict
  | .last before value after => before.IsStrict ∧ value.IsStrict ∧ after.IsStrict
  | .more before value after rest =>
    before.IsStrict ∧ value.IsStrict ∧ after.IsStrict ∧ rest.isClose = false ∧ rest.IsStrict

def Members.IsStrict : Members → Prop
  | .close gap => gap.IsStrict
  | .last key value after => key.IsStrict ∧ value.IsStrict ∧ after.IsStrict
  | .more key value after rest =>
    key.IsStrict ∧ value.IsStrict ∧ after.IsStrict ∧ rest.isClose = false ∧ rest.IsStrict
end

structure Document.IsStrict (d : Document) : Prop where
  before : d.before.IsStrict
  root : d.root.IsStrict
  after : d.after.IsStrict
  ending : d.ending = none

/-- A number is its text. -/
def strictJson (text : List Char) : Json := (jsonWord? text).getD (.string (String.ofList text))

/-! ## Tokens -/

theorem Gap.IsStrict.isSpace {g : Gap} (h : g.IsStrict) : ∀ c ∈ g.chars, isSpace c = true := by
  intro c mem
  obtain ⟨filler, inside, mem⟩ := List.mem_flatMap.1 mem
  cases filler with
  | space d space =>
    rw [List.mem_singleton.1 mem]
    exact space
  | line | block => exact (h _ inside).elim

theorem isSome_jsonWord?_cases {text : List Char} (h : (jsonWord? text).isSome = true) :
    text = Json.nullChars ∨ text = Json.boolChars true ∨ text = Json.boolChars false := by
  rw [jsonWord?] at h
  split at h
  · exact .inl ‹_›
  split at h
  · exact .inr (.inl ‹_›)
  split at h
  · exact .inr (.inr ‹_›)
  · cases h

theorem jsonWord?_number {text : List Char} (h : Json.IsNumber text) : jsonWord? text = none := by
  cases word : jsonWord? text with
  | none => rfl
  | some j =>
    have numeral := h.isNumeral
    rcases isSome_jsonWord?_cases (Option.isSome_of_mem word) with h | h | h <;> rw [h] at numeral <;> cases numeral

/-- What a number may not hold is what steers the reading of bare values. -/
theorem not_mem_number {text : List Char} (h : Json.IsNumber text) {c : Char}
    (other : Decimal.isNumeralChar c = false) : c ∉ text := by
  intro mem
  rw [Decimal.numeralChars_of_isNumeral h.isNumeral c mem] at other
  cases other

/-- Every text has its quotation. -/
def Quotation.ofText (text : List Char) : Quotation :=
  ⟨'"', text.flatMap Text.escape, text, rfl, Json.Written.flatMap_escape text⟩

namespace BareValue

/-- Every number is a bare value. -/
def ofNumber (text : List Char) (h : Json.IsNumber text) : BareValue where
  text := text
  solid := Decimal.solid_of_isNumeral h.isNumeral
  plain c mem := by
    constructor
    · cases quote : Text.isQuote c with
      | false => rfl
      | true =>
        rcases Text.isQuote_cases quote with rfl | rfl | rfl <;> exact absurd mem (not_mem_number h rfl)
    · intro bracket
      simp only [List.mem_cons, List.not_mem_nil, or_false] at bracket
      rcases bracket with rfl | rfl | rfl | rfl | rfl | rfl | rfl <;> exact absurd mem (not_mem_number h rfl)
  colon mem := absurd mem (not_mem_number h rfl)
  uncommented := uncommented_of_slashless (not_mem_number h rfl)

theorem ofNumber_isStrict {text : List Char} (h : Json.IsNumber text) : (ofNumber text h).IsStrict := .inl h

/-- Every word of JSON is a bare value. -/
def ofWord (text : List Char) (h : (jsonWord? text).isSome = true) : BareValue where
  text := text
  solid := by
    obtain ⟨j, word⟩ := Option.isSome_iff_exists.1 h
    exact solid_of_jsonWord? word
  plain := by
    rcases isSome_jsonWord?_cases h with rfl | rfl | rfl <;> simp [Json.nullChars, Json.boolChars, Text.isQuote]
  colon mem := by rcases isSome_jsonWord?_cases h with rfl | rfl | rfl <;> exact absurd mem (by decide)
  uncommented := uncommented_of_slashless (by rcases isSome_jsonWord?_cases h with rfl | rfl | rfl <;> decide)

theorem ofWord_isStrict {text : List Char} (h : (jsonWord? text).isSome = true) : (ofWord text h).IsStrict := .inr h

variable {token : BareValue}

theorem IsStrict.bareJson_eq (h : token.IsStrict) (marker : List Char) :
    bareJson marker token.text = strictJson token.text := by
  rcases h with number | word
  · rw [bareJson, if_pos number.isNumeral, number.plainNumeral_eq, strictJson, jsonWord?_number number]
    rfl
  · rcases isSome_jsonWord?_cases word with h | h | h <;> rw [h] <;> rfl

theorem IsStrict.plain (h : token.IsStrict) : ∀ c ∈ token.text, Text.isQuote c = false ∧ isStructural c = false := by
  have colon : ':' ∉ token.text := by
    intro mem
    have date := token.colon mem
    rcases h with number | word
    · have numeral := number.isNumeral
      rw [isNumeral_of_isDate date] at numeral
      cases numeral
    · rcases isSome_jsonWord?_cases word with h | h | h <;> rw [h] at date <;> cases date
  intro c mem
  obtain ⟨quote, other⟩ := token.plain c mem
  have colon : c ≠ ':' := fun same => colon (same ▸ mem)
  simp only [List.mem_cons, List.not_mem_nil, or_false, not_or] at other
  exact ⟨quote, by simp [isStructural, other, colon]⟩

end BareValue

/-! ## Wrapping -/

namespace Gap.IsStrict

variable {g : Gap}

theorem aside (h : g.IsStrict) : g.Aside := by
  intro filler mem
  cases filler with
  | space c space =>
    refine .char ?_ ?_ .nil <;> rcases isSpace_cases space with rfl | rfl | rfl | rfl <;> rfl
  | line | block => exact (h _ mem).elim

theorem within (h : g.IsStrict) : g.Within := by
  intro filler mem
  cases filler with
  | space c space =>
    refine ⟨inline_spaces fun d same => List.mem_singleton.1 same ▸ space, ?_⟩
    rw [← hasCall_iff, hasCall_eq_false fun same => ?_]
    · decide
    · cases List.mem_singleton.1 same
      cases space
  | line | block => exact (h _ mem).elim

end Gap.IsStrict

mutual
theorem Source.IsStrict.placed {before after : Gap} (strictBefore : before.IsStrict) (strictAfter : after.IsStrict) :
    {v : Source} → v.IsStrict → v.Placed before after
  | .bare token, _ => by
    rw [Source.Placed]
    exact ⟨strictBefore.within, strictAfter.within⟩
  | .quoted string, _ => by
    rw [Source.Placed]
    exact ⟨strictBefore.within, strictAfter.within⟩
  | .array items, h => by
    rw [Source.IsStrict] at h
    rw [Source.Placed]
    exact ⟨strictBefore.isSpace, Items.IsStrict.placed h, strictAfter.aside⟩
  | .object members, h => by
    rw [Source.IsStrict] at h
    rw [Source.Placed]
    exact ⟨strictBefore.isSpace, Members.IsStrict.placed h, strictAfter.aside⟩

theorem Items.IsStrict.placed : {items : Items} → items.IsStrict → items.Placed
  | .close gap, h => by
    rw [Items.IsStrict] at h
    rw [Items.Placed]
    exact h.within
  | .last before value after, h => by
    rw [Items.IsStrict] at h
    rw [Items.Placed]
    exact h.2.1.placed h.1 h.2.2
  | .more before value after items, h => by
    rw [Items.IsStrict] at h
    rw [Items.Placed]
    exact ⟨h.2.1.placed h.1 h.2.2.1, h.2.2.2.2.placed⟩

theorem Members.IsStrict.placed : {members : Members} → members.IsStrict → members.Placed
  | .close gap, h => by
    rw [Members.IsStrict] at h
    rw [Members.Placed]
    exact h.aside
  | .last key value after, h => by
    rw [Members.IsStrict] at h
    rw [Members.Placed]
    exact ⟨h.1.before.aside, h.1.colon.aside, h.2.1.placed h.1.after h.2.2⟩
  | .more key value after members, h => by
    rw [Members.IsStrict] at h
    rw [Members.Placed]
    exact ⟨h.1.before.aside, h.1.colon.aside, h.2.1.placed h.1.after h.2.2.1, h.2.2.2.2.placed⟩
end

theorem Document.IsStrict.placed {d : Document} (h : d.IsStrict) : d.Placed where
  before := h.before.aside
  root := h.root.placed (List.forall_mem_nil _) (List.forall_mem_nil _)
  colon token bare mem := by
    have strict := h.root
    rw [bare, Source.IsStrict] at strict
    exact absurd (strict.plain _ mem).2 (by decide)
  after := h.after.aside
  ending := by simp [h.ending]

variable (marker : List Char)

theorem Document.IsStrict.wrapCalls_eq {d : Document} (h : d.IsStrict) : wrapCalls marker d.chars = d.chars :=
  h.placed.wrapCalls_eq marker

/-! ## Reading -/

mutual
theorem Source.IsStrict.value_eq : {v : Source} → v.IsStrict → v.value (bareJson marker) = v.value strictJson
  | .bare token, h => by
    rw [Source.IsStrict] at h
    rw [Source.value, Source.value, h.bareJson_eq]
  | .quoted string, h => by rw [Source.value, Source.value]
  | .array items, h => by
    rw [Source.IsStrict] at h
    rw [Source.value, Source.value, h.values_eq]
  | .object members, h => by
    rw [Source.IsStrict] at h
    rw [Source.value, Source.value, h.putAll_eq]

theorem Items.IsStrict.values_eq : {items : Items} → items.IsStrict →
    items.values (bareJson marker) = items.values strictJson
  | .close gap, h => by rw [Items.values, Items.values]
  | .last before value after, h => by
    rw [Items.IsStrict] at h
    rw [Items.values, Items.values, h.2.1.value_eq]
  | .more before value after items, h => by
    rw [Items.IsStrict] at h
    rw [Items.values, Items.values, h.2.1.value_eq, h.2.2.2.2.values_eq]

theorem Members.IsStrict.putAll_eq : {members : Members} → members.IsStrict → {es : Entries Json} →
    members.putAll (bareJson marker) es = members.putAll strictJson es
  | .close gap, h, es => by rw [Members.putAll, Members.putAll]
  | .last key value after, h, es => by
    rw [Members.IsStrict] at h
    rw [Members.putAll, Members.putAll, h.2.1.value_eq]
  | .more key value after members, h, es => by
    rw [Members.IsStrict] at h
    rw [Members.putAll, Members.putAll, h.2.1.value_eq, h.2.2.2.2.putAll_eq]
end

theorem Document.IsStrict.normalizeChars_eq {d : Document} (h : d.IsStrict) (wrap : Bool) :
    normalizeChars marker wrap d.chars = d.root.strict marker := by
  rw [← d.normalizeChars_eq, normalizeChars, normalizeChars, h.wrapCalls_eq, ite_self]
  rfl

theorem Document.IsStrict.parseChars_eq {d : Document} (h : d.IsStrict) (shallow : d.root.depth < Json.nestingLimit)
    (wrap : Bool) : parseChars marker wrap d.chars = .ok (d.root.value strictJson) := by
  rw [parseChars, h.normalizeChars_eq, d.root.ofChars_strict shallow, h.root.value_eq]

/-- Strict JSON is not touched by wrapping, and read as its value, whatever the marker. -/
theorem Document.parse_strict {d : Document} (h : d.IsStrict) (shallow : d.root.depth < Json.nestingLimit)
    (marker : String) (wrap : Bool) : wrapCalls marker.toList d.chars = d.chars ∧
      Relaxed.parse d.text marker wrap = .ok (d.root.value strictJson) := by
  refine ⟨h.wrapCalls_eq _, ?_⟩
  rw [parse, text, String.toList_ofList, h.parseChars_eq _ shallow]

theorem Document.parse_strict_calls : ∃ d : Document,
    d.text = "\x7b\"f(x)\": [1.50e3, \"g('1', 2) // \x7b\", null]\x7d " ∧ d.IsStrict ∧
      d.root.depth < Json.nestingLimit ∧
      (wrapCalls "#".toList d.chars = d.chars ∧ Relaxed.parse d.text "#" true =
        .ok (.object [("f(x)", .array [.string "1.50e3", .string "g('1', 2) // \x7b", .null])])) := by
  have digits : Json.Digits ['5', '0'] ∧ Json.Digits ['3'] ∧ Json.Digits [] := by simp [Json.Digits]
  have number : Json.IsNumber "1.50e3".toList :=
    ⟨[], ['1'], ['.', '5', '0'], ['e', '3'], rfl, .inl rfl, .more rfl (by decide) digits.2.2,
      .some digits.1 (by decide), .some (.inl rfl) (.inl rfl) digits.2.1 (by decide)⟩
  have strictSpace : oneSpace.IsStrict := by simp [oneSpace, Gap.IsStrict, Filler.IsStrict]
  have strictGap : Gap.IsStrict [] := by simp [Gap.IsStrict]
  let d : Document := {
    before := []
    root := .object (.last ⟨[], .quoted (.ofText "f(x)".toList), [], oneSpace⟩
      (.array (.more [] (.bare (.ofNumber _ number)) []
        (.more oneSpace (.quoted (.ofText "g('1', 2) // \x7b".toList)) []
          (.last oneSpace (.bare (.ofWord Json.nullChars rfl)) [])))) [])
    after := oneSpace }
  have strict : d.IsStrict := by
    have key : Key.IsStrict ⟨[], .quoted (.ofText "f(x)".toList), [], oneSpace⟩ :=
      ⟨strictGap, rfl, strictGap, strictSpace⟩
    refine ⟨strictGap, ?_, strictSpace, rfl⟩
    simp only [d, Source.IsStrict, Members.IsStrict, Items.IsStrict]
    exact ⟨key, ⟨strictGap, BareValue.ofNumber_isStrict number, strictGap, rfl, strictSpace, rfl, strictGap, rfl,
      strictSpace, BareValue.ofWord_isStrict rfl, strictGap⟩, strictGap⟩
  have shallow : d.root.depth < Json.nestingLimit := by
    have depth : d.root.depth = 2 := rfl
    rw [depth]
    decide
  exact ⟨d, rfl, strict, shallow, Document.parse_strict strict shallow "#" true⟩

end ExactFormula.Relaxed
