import ExactFormula.Proofs.Relaxed.Printed

/-!
Comments in strict JSON. Reading skips them, while the scan for calls takes them for part of what is written: they are
invisible where that scan finds no call in the text, and where comments with calls stand apart from values. A call in a
comment beside a value is one.
-/

namespace ExactFormula.Relaxed

/-! ## Without comments -/

def Filler.isComment : Filler → Bool
  | space _ _ => false
  | line _ _ => true
  | block _ _ => true

def Gap.uncommented (g : Gap) : Gap := g.filter fun filler => !filler.isComment

def Key.uncommented (key : Key) : Key :=
  ⟨key.before.uncommented, key.name, key.colon.uncommented, key.after.uncommented⟩

mutual
def Source.uncommented : Source → Source
  | .bare token => .bare token
  | .quoted string => .quoted string
  | .array items => .array items.uncommented
  | .object members => .object members.uncommented

def Items.uncommented : Items → Items
  | .close gap => .close gap.uncommented
  | .last before value after => .last before.uncommented value.uncommented after.uncommented
  | .more before value after rest => .more before.uncommented value.uncommented after.uncommented rest.uncommented

def Members.uncommented : Members → Members
  | .close gap => .close gap.uncommented
  | .last key value after => .last key.uncommented value.uncommented after.uncommented
  | .more key value after rest => .more key.uncommented value.uncommented after.uncommented rest.uncommented
end

/-- The document without its comments, one that only the text ends included. -/
def Document.uncommented (d : Document) : Document where
  before := d.before.uncommented
  root := d.root.uncommented
  after := d.after.uncommented

section

variable (bare : List Char → Json)

mutual
theorem Source.value_uncommented : (v : Source) → v.uncommented.value bare = v.value bare
  | .bare token => by rw [Source.uncommented]
  | .quoted string => by rw [Source.uncommented]
  | .array items => by rw [Source.uncommented, Source.value, Source.value, items.values_uncommented]
  | .object members => by rw [Source.uncommented, Source.value, Source.value, members.putAll_uncommented]

theorem Items.values_uncommented : (items : Items) → items.uncommented.values bare = items.values bare
  | .close gap => by rw [Items.uncommented, Items.values, Items.values]
  | .last before value after => by rw [Items.uncommented, Items.values, Items.values, value.value_uncommented]
  | .more before value after rest => by
    rw [Items.uncommented, Items.values, Items.values, value.value_uncommented, rest.values_uncommented]

theorem Members.putAll_uncommented : (members : Members) → {es : Entries Json} →
    members.uncommented.putAll bare es = members.putAll bare es
  | .close gap, es => by rw [Members.uncommented, Members.putAll, Members.putAll]
  | .last key value after, es => by
    rw [Members.uncommented, Members.putAll, Members.putAll, value.value_uncommented]
    rfl
  | .more key value after rest, es => by
    rw [Members.uncommented, Members.putAll, Members.putAll, value.value_uncommented, rest.putAll_uncommented]
    rfl
end

end

mutual
theorem Source.depth_uncommented : (v : Source) → v.uncommented.depth = v.depth
  | .bare token => by rw [Source.uncommented]
  | .quoted string => by rw [Source.uncommented]
  | .array items => by rw [Source.uncommented, Source.depth, Source.depth, items.depth_uncommented]
  | .object members => by rw [Source.uncommented, Source.depth, Source.depth, members.depth_uncommented]

theorem Items.depth_uncommented : (items : Items) → items.uncommented.depth = items.depth
  | .close gap => by rw [Items.uncommented, Items.depth, Items.depth]
  | .last before value after => by rw [Items.uncommented, Items.depth, Items.depth, value.depth_uncommented]
  | .more before value after rest => by
    rw [Items.uncommented, Items.depth, Items.depth, value.depth_uncommented, rest.depth_uncommented]

theorem Members.depth_uncommented : (members : Members) → members.uncommented.depth = members.depth
  | .close gap => by rw [Members.uncommented, Members.depth, Members.depth]
  | .last key value after => by rw [Members.uncommented, Members.depth, Members.depth, value.depth_uncommented]
  | .more key value after rest => by
    rw [Members.uncommented, Members.depth, Members.depth, value.depth_uncommented, rest.depth_uncommented]
end

/-! ## Documents -/

def Key.fillers (key : Key) : List Filler := key.before ++ (key.colon ++ key.after)

mutual
def Source.fillers : Source → List Filler
  | .bare _ => []
  | .quoted _ => []
  | .array items => items.fillers
  | .object members => members.fillers

def Items.fillers : Items → List Filler
  | .close gap => gap
  | .last before value after => before ++ (value.fillers ++ after)
  | .more before value after rest => before ++ (value.fillers ++ (after ++ rest.fillers))

def Members.fillers : Members → List Filler
  | .close gap => gap
  | .last key value after => key.fillers ++ (value.fillers ++ after)
  | .more key value after rest => key.fillers ++ (value.fillers ++ (after ++ rest.fillers))
end

/-- Each comment closes its quotations and has no call outside them. -/
structure Document.IsQuiet (d : Document) : Prop where
  fillers : ∀ filler ∈ d.before ++ (d.root.fillers ++ d.after), Quiet filler.chars
  ending : ∀ text ∈ d.ending, Quiet ('/' :: '/' :: text)

theorem hushed_mark {c : Char} (h : isStructural c = true) : Hushed [c] := by
  simp only [isStructural, Bool.or_eq_true, beq_iff_eq, or_assoc] at h
  rcases h with rfl | rfl | rfl | rfl | rfl | rfl <;> exact hushed_plain (by simp [Text.isQuote]) (by decide)

theorem Key.hushed {key : Key} (strict : key.uncommented.IsStrict)
    (quiet : ∀ filler ∈ key.fillers, Quiet filler.chars) :
    Hushed key.chars := by
  obtain ⟨before, quiet⟩ := List.forall_mem_append.1 quiet
  obtain ⟨colon, after⟩ := List.forall_mem_append.1 quiet
  have name : Hushed key.name.chars := by
    have strict : key.name.IsStrict := strict.name
    cases named : key.name with
    | bare => rw [named] at strict; exact strict.elim
    | quoted string => exact string.hushed
  exact (Gap.hushed before).append (name.append ((Gap.hushed colon).append
    ((hushed_mark (c := ':') rfl).append (Gap.hushed after))))

mutual
theorem Source.hushed : (v : Source) → v.uncommented.IsStrict → (∀ filler ∈ v.fillers, Quiet filler.chars) →
    Hushed v.chars
  | .bare token, _, _ => by
    rw [Source.chars]
    exact token.hushed
  | .quoted string, _, _ => by
    rw [Source.chars]
    exact string.hushed
  | .array items, strict, quiet => by
    rw [Source.uncommented, Source.IsStrict] at strict
    rw [Source.fillers] at quiet
    rw [Source.chars]
    exact (hushed_mark (c := '[') rfl).append (items.hushed strict quiet)
  | .object members, strict, quiet => by
    rw [Source.uncommented, Source.IsStrict] at strict
    rw [Source.fillers] at quiet
    rw [Source.chars]
    exact (hushed_mark (c := '{') rfl).append (members.hushed strict quiet)

theorem Items.hushed : (items : Items) → items.uncommented.IsStrict → (∀ filler ∈ items.fillers, Quiet filler.chars) →
    Hushed items.chars
  | .close gap, _, quiet => by
    rw [Items.fillers] at quiet
    rw [Items.chars]
    exact (Gap.hushed quiet).append (hushed_mark rfl)
  | .last before value after, strict, quiet => by
    rw [Items.uncommented, Items.IsStrict] at strict
    simp only [Items.fillers, List.forall_mem_append] at quiet
    rw [Items.chars]
    exact (Gap.hushed quiet.1).append ((value.hushed strict.2.1 quiet.2.1).append ((Gap.hushed quiet.2.2).append
      (hushed_mark rfl)))
  | .more before value after rest, strict, quiet => by
    rw [Items.uncommented, Items.IsStrict] at strict
    simp only [Items.fillers, List.forall_mem_append] at quiet
    rw [Items.chars]
    exact (Gap.hushed quiet.1).append ((value.hushed strict.2.1 quiet.2.1).append ((Gap.hushed quiet.2.2.1).append
      ((hushed_mark (c := ',') rfl).append (rest.hushed strict.2.2.2.2 quiet.2.2.2))))

theorem Members.hushed : (members : Members) → members.uncommented.IsStrict →
    (∀ filler ∈ members.fillers, Quiet filler.chars) → Hushed members.chars
  | .close gap, _, quiet => by
    rw [Members.fillers] at quiet
    rw [Members.chars]
    exact (Gap.hushed quiet).append (hushed_mark rfl)
  | .last key value after, strict, quiet => by
    rw [Members.uncommented, Members.IsStrict] at strict
    simp only [Members.fillers, List.forall_mem_append] at quiet
    rw [Members.chars]
    exact (key.hushed strict.1 quiet.1).append ((value.hushed strict.2.1 quiet.2.1).append
      ((Gap.hushed quiet.2.2).append (hushed_mark rfl)))
  | .more key value after rest, strict, quiet => by
    rw [Members.uncommented, Members.IsStrict] at strict
    simp only [Members.fillers, List.forall_mem_append] at quiet
    rw [Members.chars]
    exact (key.hushed strict.1 quiet.1).append ((value.hushed strict.2.1 quiet.2.1).append
      ((Gap.hushed quiet.2.2.1).append ((hushed_mark (c := ',') rfl).append (rest.hushed strict.2.2.2.2 quiet.2.2.2))))
end

/-- Where the comments are quiet, the whole text has no call. -/
theorem Document.IsQuiet.not_calls {d : Document} (quiet : d.IsQuiet) (strict : d.uncommented.IsStrict) :
    ¬Calls d.chars := by
  have ending : Hushed (d.ending.elim [] ('/' :: '/' :: ·)) := by
    cases found : d.ending with
    | none => exact .nil
    | some text => exact (quiet.ending text found).hushed rfl (by decide)
  obtain ⟨before, inner⟩ := List.forall_mem_append.1 quiet.fillers
  obtain ⟨root, after⟩ := List.forall_mem_append.1 inner
  exact ((Gap.hushed before).append ((d.root.hushed strict.root root).append ((Gap.hushed after).append
    ending))).callless

/-- What the scan for calls copies is read as the JSON in it. -/
theorem Document.parse_of_copied {d : Document} (strict : d.uncommented.IsStrict)
    (shallow : d.root.depth < Json.nestingLimit) {marker : String}
    (copied : wrapCalls marker.toList d.chars = d.chars) :
    Relaxed.parse d.text marker true = .ok (d.root.value strictJson) := by
  have same : Relaxed.parse d.text marker true = Relaxed.parse d.text marker false := by
    rw [parse, parse, parseChars, parseChars, normalizeChars, normalizeChars, text, String.toList_ofList, copied,
      ite_self, ite_self]
  rw [same, d.parse_eq shallow, ← d.root.value_uncommented, ← d.root.value_uncommented strictJson]
  exact congrArg Except.ok (strict.root.value_eq marker.toList)

/-- Comments are invisible in strict JSON where each of them closes its quotations and has no call outside them, or no
call is found in the text with them, or those with calls keep to where no value is due. -/
theorem Document.parse_commented {d : Document} (strict : d.uncommented.IsStrict)
    (shallow : d.root.depth < Json.nestingLimit) (marker : String) (apart : d.IsQuiet ∨ ¬Calls d.chars ∨ d.Placed) :
    Relaxed.parse d.text marker true = .ok (d.root.value strictJson) ∧
      Relaxed.parse d.uncommented.text marker true = .ok (d.root.value strictJson) := by
  have copied : wrapCalls marker.toList d.chars = d.chars := by
    rcases apart with quiet | callless | placed
    · exact wrapCalls_of_callless (quiet.not_calls strict)
    · exact wrapCalls_of_callless callless
    · exact placed.wrapCalls_eq _
  refine ⟨Document.parse_of_copied strict shallow copied, ?_⟩
  have depth : d.uncommented.root.depth < Json.nestingLimit := by
    rwa [← d.root.depth_uncommented] at shallow
  rw [(Document.parse_strict strict depth marker true).2, ← d.root.value_uncommented]
  rfl

/-- An object of one member, with a comment in front of its value. -/
def commentedNull (text : List Char) (closed : ¬['*', '/'] <:+: text) : Document where
  before := []
  root := .object (.last ⟨[], .quoted (.ofText ['a']), [], oneSpace ++ .block text closed :: oneSpace⟩
    Value.null.source [])
  after := []

theorem strict_commentedNull (text : List Char) (closed : ¬['*', '/'] <:+: text) :
    (commentedNull text closed).uncommented.IsStrict := by
  have empty : Gap.IsStrict [] := Value.isStrict_nil
  have spaces : Gap.IsStrict (oneSpace ++ oneSpace) :=
    List.forall_mem_append.2 ⟨Value.isStrict_oneSpace, Value.isStrict_oneSpace⟩
  refine ⟨empty, ?_, empty, rfl⟩
  rw [Document.uncommented, commentedNull, Source.uncommented, Source.IsStrict, Members.uncommented, Members.IsStrict]
  exact ⟨⟨empty, rfl, empty, spaces⟩, Value.isStrict_source .null, empty⟩

/-- A comment of marks and half a quotation. -/
def commentedMarks : Document := commentedNull " it's [b, \x7d ".toList (closed_of_starless (by decide))

theorem nameNote_closed : ¬['*', '/'] <:+: " f(x) ".toList := closed_of_starless (by decide)

theorem valueNote_closed : ¬['*', '/'] <:+: " (b) ".toList := closed_of_starless (by decide)

/-- A comment with a call in front of a name. -/
def commentedName : Document where
  before := []
  root := .object (.last ⟨[.block _ nameNote_closed], .quoted (.ofText ['a']), [], [.block _ valueNote_closed]⟩
    Value.null.source [])
  after := []

theorem strict_commentedName : commentedName.uncommented.IsStrict := by
  have empty : Gap.IsStrict [] := Value.isStrict_nil
  refine ⟨empty, ?_, empty, rfl⟩
  rw [Document.uncommented, commentedName, Source.uncommented, Source.IsStrict, Members.uncommented, Members.IsStrict]
  exact ⟨⟨empty, rfl, empty, empty⟩, Value.isStrict_source .null, empty⟩

theorem placed_commentedName : commentedName.Placed := by
  have aside : Gap.Aside [] := List.forall_mem_nil _
  have within : Gap.Within [] := List.forall_mem_nil _
  have plain : ∀ c ∈ "/* f(x) */".toList, Text.isQuote c = false ∧ isStructural c = false := by
    simp [Text.isQuote, isStructural]
  have inline : Inline false (['/', '*', ' '] ++ '(' :: (['b'] ++ ')' :: ([' ', '*', '/'] ++ []))) :=
    .word rfl (.group (c := '(') rfl (.inr rfl) (.plain ⟨rfl, rfl, rfl⟩ .nil) (.word rfl .nil))
  have callless : ¬Calls "/* (b) */".toList := by decide
  refine ⟨aside, ?_, nofun, aside, nofun⟩
  rw [commentedName, Source.Placed, Members.Placed]
  refine ⟨List.forall_mem_nil _, ⟨List.forall_mem_singleton.2 (marksQuoted_of_plain plain), aside, ?_⟩, aside⟩
  rw [Value.source, Source.Placed]
  exact ⟨List.forall_mem_singleton.2 ⟨inline, callless⟩, within⟩

theorem Document.parse_commented_marks :
    (commentedMarks.text = "\x7b\"a\": /* it's [b, \x7d */ null\x7d" ∧
      commentedMarks.uncommented.IsStrict ∧ commentedMarks.root.depth < Json.nestingLimit ∧
      ¬Calls commentedMarks.chars ∧ Relaxed.parse commentedMarks.text "#" true = .ok (.object [("a", .null)]) ∧
      Relaxed.parse commentedMarks.uncommented.text "#" true = .ok (.object [("a", .null)])) ∧
    commentedName.text = "\x7b/* f(x) */\"a\":/* (b) */null\x7d" ∧
      commentedName.uncommented.IsStrict ∧ commentedName.root.depth < Json.nestingLimit ∧ commentedName.Placed ∧
      Relaxed.parse commentedName.text "#" true = .ok (.object [("a", .null)]) ∧
      Relaxed.parse commentedName.uncommented.text "#" true = .ok (.object [("a", .null)]) := by
  have strict : commentedMarks.uncommented.IsStrict := strict_commentedNull _ _
  have shallow : commentedMarks.root.depth < Json.nestingLimit := by decide
  have callless : ¬Calls commentedMarks.chars := by decide +kernel
  have strict' := strict_commentedName
  have shallow' : commentedName.root.depth < Json.nestingLimit := by decide
  have placed := placed_commentedName
  exact ⟨⟨rfl, strict, shallow, callless, Document.parse_commented strict shallow "#" (.inr (.inl callless))⟩,
    rfl, strict', shallow', placed, Document.parse_commented strict' shallow' "#" (.inr (.inr placed))⟩

/-- A comment with a call. -/
def commentedCall : Document := commentedNull " f(x) ".toList (closed_of_starless (by decide))

/-- The comment becomes part of the value. -/
theorem commentedCall_wrapped : ¬∀ (d : Document) (marker : String), d.uncommented.IsStrict →
    d.root.depth < Json.nestingLimit →
      Relaxed.parse d.text marker true = Relaxed.parse d.uncommented.text marker true := by
  intro invisible
  have same := invisible commentedCall "#" (strict_commentedNull _ _) (by decide)
  have commented : ((Relaxed.parse commentedCall.text "#" true).map Json.toText).toOption =
      some "\x7b\"a\":\"#/* f(x) */ null\"\x7d" := by decide +kernel
  have uncommented : ((Relaxed.parse commentedCall.uncommented.text "#" true).map Json.toText).toOption =
      some "\x7b\"a\":null\x7d" := by decide +kernel
  rw [same, uncommented] at commented
  exact absurd commented (by decide)

end ExactFormula.Relaxed
