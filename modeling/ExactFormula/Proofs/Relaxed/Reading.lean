import ExactFormula.Proofs.Decimal.Numeral
import ExactFormula.Proofs.Json.Reading
import ExactFormula.Proofs.Relaxed.Normalizing

/-!
Relaxed documents are read: normalizing gives their strict text, and the strict text is JSON with the
value of the document.
-/

namespace ExactFormula.Relaxed

variable (marker : List Char)

/-! ## Tokens in strict text -/

theorem Quotation.strict_eq (q : Quotation) :
    ∃ raw, q.strict = '"' :: (raw ++ ['"']) ∧ Json.Written '"' raw q.text := by
  rw [strict]
  split
  case isTrue double =>
    rw [chars, double]
    exact ⟨q.raw, rfl, double ▸ q.written⟩
  case isFalse single =>
    obtain ⟨raw, written, requoted⟩ := requote_eq q.written q.isQuote single
    exact ⟨raw, by rw [requoted], written⟩

theorem quote_eq (text : List Char) :
    ∃ raw, Text.quote text = '"' :: (raw ++ ['"']) ∧ Json.Written '"' raw text :=
  ⟨_, rfl, Json.Written.flatMap_escape text⟩

theorem Name.strict_eq (name : Name) :
    ∃ raw text, name.strict = '"' :: (raw ++ ['"']) ∧ Json.Written '"' raw text ∧ name.text = String.ofList text := by
  cases name with
  | bare key =>
    obtain ⟨raw, split, written⟩ := quote_eq key.text
    exact ⟨raw, _, split, written, rfl⟩
  | quoted string =>
    obtain ⟨raw, split, written⟩ := string.strict_eq
    exact ⟨raw, _, split, written, rfl⟩

variable {limit depth : Nat}

theorem reads_quote (text : List Char) : Json.Reads limit depth (Text.quote text) (.string (String.ofList text)) :=
  .string (Json.Written.flatMap_escape text)

theorem plain_of_isNumeral {text : List Char} (h : Decimal.isNumeral text = true) :
    ∀ c ∈ plainNumeral text, Text.Plain c := by
  intro c mem
  rw [plainNumeral] at mem
  refine Decimal.plain_of_isNumeralChar (Decimal.numeralChars_of_isNumeral h c ?_)
  have mem := (List.mem_filter.1 mem).1
  split at mem
  · exact List.mem_of_mem_drop mem
  · exact mem

theorem isSome_jsonWord? (text : List Char) : (jsonWord? text).isSome = isJsonWord text := by
  simp only [jsonWord?, isJsonWord, Json.nullChars, Json.boolChars, Bool.false_eq_true, ↓reduceIte]
  split
  case isTrue null => simp [null]
  split
  case isTrue true_ => simp [true_]
  split
  case isTrue false_ => simp [false_]
  case isFalse null true_ false_ => simp [null, true_, false_]

theorem reads_jsonWord {text : List Char} {j : Json} (h : jsonWord? text = some j) : Json.Reads limit depth text j := by
  rw [jsonWord?] at h
  split at h
  case isTrue null => cases h; rw [null]; exact .null
  split at h
  case isTrue true_ => cases h; rw [true_]; exact .bool true
  split at h
  case isTrue false_ => cases h; rw [false_]; exact .bool false
  case isFalse => cases h

theorem reads_strictValue (text : List Char) :
    Json.Reads limit depth (strictValue marker text) (bareJson marker text) := by
  rw [strictValue, bareJson, ← isSome_jsonWord?]
  split
  case isTrue numeral =>
    have written := Json.Written.flatMap_escape (plainNumeral text)
    rw [Text.flatMap_escape_plain (plain_of_isNumeral numeral)] at written
    exact .string written
  split
  case isTrue => exact reads_quote text
  cases word : jsonWord? text with
  | none => exact reads_quote (marker ++ text)
  | some j => exact reads_jsonWord word

/-! ## Documents -/

theorem Gap.blank (g : Gap) : Json.Blank g.spaces := by
  intro c mem
  obtain ⟨filler, -, mem⟩ := List.mem_flatMap.1 mem
  exact filler.isSpace_of_spaces c mem

theorem Key.strict_eq (key : Key) : ∃ raw text,
    key.strict = Json.keyChars key.before.spaces raw key.colon.spaces key.after.spaces ∧
      Json.Written '"' raw text ∧ key.name.text = String.ofList text := by
  obtain ⟨raw, text, split, written, same⟩ := key.name.strict_eq
  refine ⟨raw, text, ?_, written, same⟩
  simp [strict, split, Json.keyChars]

section

variable (bare : List Char → Json)

theorem Items.values_close {items : Items} (h : items.isClose = true) : items.values bare = [] := by
  cases items with
  | close gap => rw [values]
  | last | more => cases h

theorem Members.putAll_close {members : Members} (h : members.isClose = true) (es : Entries Json) :
    members.putAll bare es = es := by
  cases members with
  | close gap => rw [putAll]
  | last | more => cases h

theorem Members.putAll_last (key : Key) (value : Source) (after : Gap) :
    (Members.last key value after).putAll bare = Entries.put key.name.text (value.value bare) := by
  funext es
  rw [putAll]

theorem Members.putAll_more (key : Key) (value : Source) (after : Gap) (members : Members) :
    (Members.more key value after members).putAll bare =
      fun es => members.putAll bare (es.put key.name.text (value.value bare)) := by
  funext es
  rw [putAll]

end

mutual
theorem Source.reads : (v : Source) → Json.Reads limit v.depth (v.strict marker) (v.value (bareJson marker))
  | .bare token => by
    rw [Source.strict, Source.value]
    exact reads_strictValue marker token.text
  | .quoted string => by
    obtain ⟨raw, split, written⟩ := string.strict_eq
    rw [Source.strict, Source.value, split]
    exact .string written
  | .array items => by
    rw [Source.strict, Source.value, Source.depth]
    by_cases close : items.isClose = true
    · cases items with
      | close gap =>
        rw [Items.strict, Items.values, Items.depth]
        exact .emptyArray gap.blank
      | last | more => cases close
    · exact .array (items.reads (Bool.eq_false_iff.2 close))
  | .object members => by
    rw [Source.strict, Source.value, Source.depth]
    by_cases close : members.isClose = true
    · cases members with
      | close gap =>
        rw [Members.strict, Members.putAll, Members.depth]
        exact .emptyObject gap.blank
      | last | more => cases close
    · exact .object (members.reads (Bool.eq_false_iff.2 close))

theorem Items.reads : (items : Items) → items.isClose = false →
    Json.ReadsItems limit items.depth (items.strict marker) (items.values (bareJson marker))
  | .close gap, h => by cases h
  | .last before value after, _ => by
    rw [Items.strict, Items.values, Items.depth]
    exact .last before.blank value.reads after.blank
  | .more before value after items, _ => by
    rw [Items.strict, Items.values, Items.depth]
    have first := value.reads.mono (Nat.le_max_left value.depth items.depth)
    by_cases close : items.isClose = true
    · rw [if_pos close, items.values_close _ close]
      exact .last before.blank first after.blank
    · rw [if_neg close]
      exact .more before.blank first after.blank
        ((items.reads (Bool.eq_false_iff.2 close)).mono (Nat.le_max_right _ _))

theorem Members.reads : (members : Members) → members.isClose = false →
    Json.ReadsMembers limit members.depth (members.strict marker) (members.putAll (bareJson marker))
  | .close gap, h => by cases h
  | .last key value after, _ => by
    obtain ⟨raw, text, split, written, same⟩ := key.strict_eq
    rw [Members.strict, Members.depth, Members.putAll_last, split, same]
    exact .last key.before.blank written key.colon.blank key.after.blank value.reads after.blank
  | .more key value after members, _ => by
    obtain ⟨raw, text, split, written, same⟩ := key.strict_eq
    have first := value.reads.mono (Nat.le_max_left value.depth members.depth)
    rw [Members.strict, Members.depth, Members.putAll_more, split, same]
    by_cases close : members.isClose = true
    · rw [if_pos close]
      simp only [members.putAll_close _ close]
      exact .last key.before.blank written key.colon.blank key.after.blank first after.blank
    · rw [if_neg close]
      exact .more key.before.blank written key.colon.blank key.after.blank first after.blank
        ((members.reads (Bool.eq_false_iff.2 close)).mono (Nat.le_max_right _ _))
end

/-! ## Whole texts -/

theorem solid_quoted (raw : List Char) : Text.Solid ('"' :: (raw ++ ['"'])) := Text.solid_of_ends rfl rfl raw

theorem solid_of_jsonWord? {text : List Char} {j : Json} (h : jsonWord? text = some j) : Text.Solid text := by
  rw [jsonWord?] at h
  split at h
  case isTrue null => rw [null]; exact ⟨by decide, by decide⟩
  split at h
  case isTrue true_ => rw [true_]; exact ⟨by decide, by decide⟩
  split at h
  case isTrue false_ => rw [false_]; exact ⟨by decide, by decide⟩
  case isFalse => cases h

theorem solid_strictValue (text : List Char) : Text.Solid (strictValue marker text) := by
  rw [strictValue, ← isSome_jsonWord?]
  split
  · exact solid_quoted _
  split
  · exact solid_quoted _
  split
  case isTrue word =>
    obtain ⟨j, word⟩ := Option.isSome_iff_exists.1 word
    exact solid_of_jsonWord? word
  · exact solid_quoted _

theorem Items.strict_end : (items : Items) → ∃ cs, items.strict marker = cs ++ [']']
  | .close gap => ⟨gap.spaces, by rw [Items.strict]⟩
  | .last before value after => ⟨before.spaces ++ (value.strict marker ++ after.spaces), by simp [Items.strict]⟩
  | .more before value after items => by
    obtain ⟨cs, split⟩ := items.strict_end
    rw [Items.strict, split]
    split
    · exact ⟨before.spaces ++ (value.strict marker ++ after.spaces), by simp⟩
    · exact ⟨before.spaces ++ (value.strict marker ++ (after.spaces ++ ',' :: cs)), by simp⟩

theorem Members.strict_end : (members : Members) → ∃ cs, members.strict marker = cs ++ ['}']
  | .close gap => ⟨gap.spaces, by rw [Members.strict]⟩
  | .last key value after => ⟨key.strict ++ (value.strict marker ++ after.spaces), by simp [Members.strict]⟩
  | .more key value after members => by
    obtain ⟨cs, split⟩ := members.strict_end
    rw [Members.strict, split]
    split
    · exact ⟨key.strict ++ (value.strict marker ++ after.spaces), by simp⟩
    · exact ⟨key.strict ++ (value.strict marker ++ (after.spaces ++ ',' :: cs)), by simp⟩

theorem Source.solid (v : Source) : Text.Solid (v.strict marker) := by
  cases v with
  | bare token =>
    rw [strict]
    exact solid_strictValue marker token.text
  | quoted string =>
    obtain ⟨raw, split, -⟩ := string.strict_eq
    rw [strict, split]
    exact solid_quoted raw
  | array items =>
    obtain ⟨cs, split⟩ := items.strict_end marker
    rw [strict, split]
    exact Text.solid_of_ends rfl rfl cs
  | object members =>
    obtain ⟨cs, split⟩ := members.strict_end marker
    rw [strict, split]
    exact Text.solid_of_ends rfl rfl cs

variable {marker}

/-- A line comment may be ended by the text. -/
theorem normalFrom_ending {text : List Char} (h : '\n' ∉ text) (s : NormalState) :
    normalFrom marker s ('/' :: '/' :: text) = [] := by
  have skipped : normalFrom marker s ('/' :: ('/' :: text ++ [])) = normalFrom marker s [] :=
    normalFrom_comment rfl (commentLength_ending h) s
  rwa [List.append_nil] at skipped

theorem Document.normalFrom_eq (d : Document) : normalFrom marker ⟨[], false⟩ d.chars =
    d.before.spaces ++ (d.root.strict marker ++ d.after.spaces) := by
  obtain ⟨k, scanned⟩ := normalFrom_source marker [] d.root
  have ending : Stops false (d.ending.elim [] ('/' :: '/' :: ·)) ∧
      ∀ s, normalFrom marker s (d.ending.elim [] ('/' :: '/' :: ·)) = [] := by
    cases found : d.ending with
    | none => exact ⟨.ended, fun _ => rfl⟩
    | some text => exact ⟨.comment rfl, normalFrom_ending (d.oneLine text found)⟩
  rw [chars, normalFrom_gap, scanned _ (.gap d.after ending.1.follows), normalFrom_gap, ending.2, List.append_nil]

theorem Document.normalizeChars_eq (d : Document) : normalizeChars marker false d.chars = d.root.strict marker := by
  have before : ∀ c ∈ d.before.spaces, Text.isBlank c = true := fun c mem => isBlank_of_isSpace (d.before.blank c mem)
  have after : ∀ c ∈ d.after.spaces, Text.isBlank c = true := fun c mem => isBlank_of_isSpace (d.after.blank c mem)
  rw [normalizeChars]
  exact (congrArg Text.trim d.normalFrom_eq).trans (Text.trim_append before (d.root.solid marker) after)

theorem Source.ofChars_strict (v : Source) (shallow : v.depth < Json.nestingLimit) :
    Json.ofChars (v.strict marker) = .ok (v.value (bareJson marker)) := by
  have blank : Json.Blank [] := nofun
  have read := (v.reads marker).ofChars_eq shallow blank blank
  rwa [List.nil_append, List.append_nil] at read

/-- Every document is read as the value that it stands for. -/
theorem Document.parse_eq (d : Document) (shallow : d.root.depth < Json.nestingLimit) (marker : String) :
    Relaxed.parse d.text marker false = .ok (d.root.value (bareJson marker.toList)) := by
  rw [parse, text, String.toList_ofList, parseChars, d.normalizeChars_eq, d.root.ofChars_strict shallow]

theorem Document.parse_eq_trailing : ∃ d : Document,
    d.text = "\x7ba: b, 'k': [+1_0 /* ten */,],\x7d // end" ∧ d.root.depth < Json.nestingLimit ∧
      Relaxed.parse d.text "#" false =
        .ok (.object [("a", .string "#b"), ("k", .array [.string "10"])]) := by
  refine ⟨{
    before := []
    root := .object
      (.more ⟨[], .bare (.ofLetter 'a' rfl), [], oneSpace⟩
        (.bare ⟨['b'], ⟨by decide, by simp⟩, by simp [Text.isQuote], by simp, by decide, by decide, by decide⟩) []
      (.more ⟨oneSpace, .quoted ⟨'\'', ['k'], ['k'], rfl, .plain (by decide) (by decide) (by decide) .nil⟩,
          [], oneSpace⟩
        (.array (.more [] (.bare ⟨['+', '1', '_', '0'], ⟨by decide, by simp⟩, by simp [Text.isQuote], by simp,
          by decide, by decide, by decide⟩) [.space ' ' rfl, .block " ten ".toList (by decide)] (.close []))) []
      (.close [])))
    after := oneSpace
    ending := some " end".toList
    }, rfl, by decide, Document.parse_eq _ (by decide) "#"⟩

end ExactFormula.Relaxed
