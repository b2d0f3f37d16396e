import ExactFormula.Proofs.Json.Place
import ExactFormula.Proofs.Relaxed.BareText
import ExactFormula.Proofs.Relaxed.Outline
import ExactFormula.Proofs.Relaxed.Strict

/-!
Drafts: documents as they are written, with bare values of any kind. Where each bare value is taken as one, what
normalizing makes of a draft is the strict text of a document that has the same structures, names and quotations.
-/

namespace ExactFormula.Relaxed

/-- A value that is no structure, and what stands behind it. -/
inductive Scrap
  | quoted (string : Quotation) (after : Gap)
  | bare (text : List Char) (after : Gap)

def Scrap.chars : Scrap → List Char
  | quoted string after => string.chars ++ after.chars
  | bare text after => text ++ after.chars

abbrev Draft := Outline Key Scrap Gap Gap

/-- The text of a draft, where values are written as given. -/
def Draft.spelling (leaf : Scrap → List Char) : Spelling Key Scrap Gap Gap := ⟨Key.chars, leaf, Gap.chars, Gap.chars⟩

def Draft.text (d : Draft) : List Char := d.chars (spelling Scrap.chars)

def Scrap.Readable : Scrap → Prop
  | quoted _ _ => True
  | bare text after => Taken text after

/-- Each bare value is taken as one. -/
def Draft.Readable (d : Draft) : Prop := d.All (fun _ => True) Scrap.Readable (fun _ => True) (fun _ => True)

/-! ## The same document -/

mutual
/-- The structures, names and quotations of a draft are those of the document. -/
inductive Keeps : Draft → Source → Prop
  | quoted (string : Quotation) (after : Gap) : Keeps (.leaf (.quoted string after)) (.quoted string)
  | bare (text : List Char) (after : Gap) (v : Source) (flat : v.depth = 0) : Keeps (.leaf (.bare text after)) v
  | array {items : Outline.Items Key Scrap Gap Gap} {items' : Items} (h : KeepsItems items items') (after : Gap) :
    Keeps (.array items after) (.array items')
  | object {members : Outline.Members Key Scrap Gap Gap} {members' : Members} (h : KeepsMembers members members')
    (after : Gap) : Keeps (.object members after) (.object members')

inductive KeepsItems : Outline.Items Key Scrap Gap Gap → Items → Prop
  | close (gap gap' : Gap) : KeepsItems (.close gap) (.close gap')
  | last {value : Draft} {value' : Source} (before before' after : Gap) (h : Keeps value value') :
    KeepsItems (.last before value) (.last before' value' after)
  | more {value : Draft} {value' : Source} {rest : Outline.Items Key Scrap Gap Gap} {rest' : Items}
    (before before' after : Gap) (h : Keeps value value') (hs : KeepsItems rest rest') :
    KeepsItems (.more before value rest) (.more before' value' after rest')

inductive KeepsMembers : Outline.Members Key Scrap Gap Gap → Members → Prop
  | close (gap gap' : Gap) : KeepsMembers (.close gap) (.close gap')
  | last {value : Draft} {value' : Source} (key : Key) (after : Gap) (h : Keeps value value') :
    KeepsMembers (.last key value) (.last key value' after)
  | more {value : Draft} {value' : Source} {rest : Outline.Members Key Scrap Gap Gap} {rest' : Members}
    (key : Key) (after : Gap) (h : Keeps value value') (hs : KeepsMembers rest rest') :
    KeepsMembers (.more key value rest) (.more key value' after rest')
end

/-! ## Values -/

variable {marker : List Char}

theorem exists_strictSource (marker text : List Char) :
    ∃ v : Source, v.strict marker = strictValue marker text ∧ v.depth = 0 := by
  rw [strictValue]
  split
  case isTrue numeral =>
    refine ⟨.quoted (.ofText (plainNumeral text)), ?_, rfl⟩
    rw [Source.strict]
    exact congrArg (fun raw => '"' :: (raw ++ ['"'])) (Text.flatMap_escape_plain (plain_of_isNumeral numeral))
  split
  · exact ⟨.quoted (.ofText text), by rw [Source.strict]; rfl, rfl⟩
  split
  case isTrue numeral date word =>
    refine ⟨.bare (.ofWord text (by rwa [isSome_jsonWord?])), ?_, rfl⟩
    rw [Source.strict]
    change strictValue marker text = text
    rw [strictValue, if_neg numeral, if_neg date, if_pos word]
  · exact ⟨.quoted (.ofText (marker ++ text)), by rw [Source.strict]; rfl, rfl⟩

/-- Written so, a value of a structure is read as one that keeps it, and something starts with it. -/
structure Scrap.Reads (marker : List Char) (leaf : Scrap → List Char) (v : Scrap) : Prop where
  starts : ∀ c rest, c = ',' ∨ c = '}' ∨ c = ']' → Starts (leaf v ++ c :: rest)
  scanned : ∃ v' gap, Keeps (.leaf v) v' ∧ ∀ object structures c rest, c = ',' ∨ c = '}' ∨ c = ']' →
    normalFrom marker ⟨object :: structures, false⟩ (leaf v ++ c :: rest) =
      v'.strict marker ++ (Gap.spaces gap ++ normalFrom marker ⟨object :: structures, false⟩ (c :: rest))

theorem Scrap.Readable.reads {v : Scrap} (readable : v.Readable) : v.Reads marker Scrap.chars := by
  cases v with
  | quoted string after =>
    refine ⟨fun c rest _ => ?_, .quoted string, after, .quoted string after, ?_⟩
    · exact (string.starts.append after.chars).append (c :: rest)
    · intro object structures c rest mark
      rw [chars, List.append_assoc, normalFrom_quotation, normalFrom_gap, Source.strict]
  | bare text after =>
    obtain ⟨v', strict, flat⟩ := exists_strictSource marker (Text.trimStart text)
    refine ⟨fun c rest mark => ?_, v', after, .bare text after v' flat, ?_⟩
    · rw [chars, List.append_assoc]
      exact Taken.starts_mark readable mark
    · intro object structures c rest mark
      rw [chars, List.append_assoc, Taken.normalFrom_eq readable mark, strict]

/-! ## Normalizing -/

namespace Outline

variable {κ α γ δ : Type}

def Items.isClose : Outline.Items κ α γ δ → Bool
  | .close _ => true
  | _ => false

def Members.isClose : Outline.Members κ α γ δ → Bool
  | .close _ => true
  | _ => false

end Outline

section

variable (marker) {leaf : Scrap → List Char} {P : Key → Prop} {Q : Scrap → Prop} {R S : Gap → Prop}

theorem Draft.starts (reads : ∀ v, Q v → Scrap.Reads marker leaf v) {d : Draft} (all : d.All P Q R S) :
    ∀ c rest, c = ',' ∨ c = '}' ∨ c = ']' → Starts (d.chars (spelling leaf) ++ c :: rest) := by
  cases d with
  | leaf v => exact (reads v all).starts
  | array items after => exact fun _ _ _ => starts_cons rfl (by decide) fun _ => rfl
  | object members after => exact fun _ _ _ => starts_cons rfl (by decide) fun _ => rfl

theorem Draft.spelling_name (leaf : Scrap → List Char) (key : Key) : (spelling leaf).name key = key.chars := rfl

theorem Draft.spelling_gap (leaf : Scrap → List Char) (g : Gap) : (spelling leaf).gap g = g.chars := rfl

theorem Draft.spelling_after (leaf : Scrap → List Char) (g : Gap) : (spelling leaf).after g = g.chars := rfl

variable {items : Outline.Items Key Scrap Gap Gap} {members : Outline.Members Key Scrap Gap Gap}

theorem closes_items (leaf : Scrap → List Char) (close : items.isClose = true) :
    ∃ g, items.chars (Draft.spelling leaf) = Gap.chars g ++ [']'] := by
  cases items with
  | close gap => exact ⟨gap, rfl⟩
  | last | more => cases close

theorem closes_members (leaf : Scrap → List Char) (close : members.isClose = true) :
    ∃ g, members.chars (Draft.spelling leaf) = Gap.chars g ++ ['}'] := by
  cases members with
  | close gap => exact ⟨gap, rfl⟩
  | last | more => cases close

theorem continues_items (reads : ∀ v, Q v → Scrap.Reads marker leaf v) (all : items.All P Q R S)
    (more : items.isClose = false) : Continues (items.chars (Draft.spelling leaf)) := by
  cases items with
  | close gap => cases more
  | last before value => exact ⟨before, _, rfl, Draft.starts marker reads all.2 _ _ (.inr (.inr rfl))⟩
  | more before value rest => exact ⟨before, _, rfl, Draft.starts marker reads all.2.1 _ _ (.inl rfl)⟩

theorem continues_members (leaf : Scrap → List Char) (more : members.isClose = false) :
    Continues (members.chars (Draft.spelling leaf)) := by
  cases members with
  | close gap => cases more
  | last key value => exact key.continues _
  | more key value rest => exact key.continues _

mutual
theorem Draft.normalFrom_eq (reads : ∀ v, Q v → Scrap.Reads marker leaf v) (object : Bool) (structures : List Bool) :
    (d : Draft) → d.All P Q R S → ∃ v gap, Keeps d v ∧ ∃ k, ∀ c rest, c = ',' ∨ c = '}' ∨ c = ']' →
    normalFrom marker ⟨object :: structures, false⟩ (d.chars (Draft.spelling leaf) ++ c :: rest) =
      v.strict marker ++ (Gap.spaces gap ++ normalFrom marker ⟨object :: structures, k⟩ (c :: rest))
  | .leaf v, all => by
    obtain ⟨v', gap, keeps, scanned⟩ := (reads v all).scanned
    exact ⟨v', gap, keeps, false, scanned object structures⟩
  | .array items after, all => by
    obtain ⟨items', keeps, -, scanned⟩ := normalFrom_draftItems reads (object :: structures) items all.1
    refine ⟨.array items', after, .array keeps after, inObject (object :: structures), fun c rest _ => ?_⟩
    rw [Outline.chars, Source.strict, List.cons_append, normalFrom_openBracket, List.append_assoc, scanned,
      Draft.spelling_after, normalFrom_gap, List.cons_append]
  | .object members after, all => by
    obtain ⟨members', keeps, -, scanned⟩ := normalFrom_draftMembers reads (object :: structures) members all.1
    refine ⟨.object members', after, .object keeps after, inObject (object :: structures), fun c rest _ => ?_⟩
    rw [Outline.chars, Source.strict, List.cons_append, normalFrom_openBrace, List.append_assoc, scanned,
      Draft.spelling_after, normalFrom_gap, List.cons_append]

theorem normalFrom_draftItems (reads : ∀ v, Q v → Scrap.Reads marker leaf v) (structures : List Bool) :
    (items : Outline.Items Key Scrap Gap Gap) → items.All P Q R S →
    ∃ items', KeepsItems items items' ∧ items'.isClose = items.isClose ∧ ∀ rest,
      normalFrom marker ⟨false :: structures, false⟩ (items.chars (Draft.spelling leaf) ++ rest) =
        items'.strict marker ++ normalFrom marker ⟨structures, inObject structures⟩ rest
  | .close gap, all => by
    refine ⟨.close gap, .close gap gap, rfl, fun rest => ?_⟩
    simp only [Outline.Items.chars, Items.strict, List.append_assoc, List.singleton_append]
    rw [Draft.spelling_gap, normalFrom_gap, normalFrom_closer (.inr rfl)]
    rfl
  | .last before value, all => by
    obtain ⟨v, after, keeps, k, scanned⟩ := Draft.normalFrom_eq reads false structures value all.2
    refine ⟨.last before v after, .last before before after keeps, rfl, fun rest => ?_⟩
    simp only [Outline.Items.chars, Items.strict, List.append_assoc, List.singleton_append]
    rw [Draft.spelling_gap, normalFrom_gap, scanned _ _ (.inr (.inr rfl)), normalFrom_closer (.inr rfl)]
    rfl
  | .more before value items, all => by
    obtain ⟨v, after, keeps, k, scanned⟩ := Draft.normalFrom_eq reads false structures value all.2.1
    obtain ⟨items', keepsItems, close, scannedItems⟩ := normalFrom_draftItems reads structures items all.2.2
    refine ⟨.more before v after items', .more before before after keeps keepsItems, rfl, fun rest => ?_⟩
    simp only [Outline.Items.chars, Items.strict, List.append_assoc, List.cons_append]
    rw [Draft.spelling_gap, normalFrom_gap, scanned _ _ (.inl rfl),
      normalFrom_more (.inr rfl) (closes_items leaf) (continues_items marker reads all.2.2) scannedItems, close]

theorem normalFrom_draftMembers (reads : ∀ v, Q v → Scrap.Reads marker leaf v) (structures : List Bool) :
    (members : Outline.Members Key Scrap Gap Gap) → members.All P Q R S →
    ∃ members', KeepsMembers members members' ∧ members'.isClose = members.isClose ∧ ∀ rest,
      normalFrom marker ⟨true :: structures, true⟩ (members.chars (Draft.spelling leaf) ++ rest) =
        members'.strict marker ++ normalFrom marker ⟨structures, inObject structures⟩ rest
  | .close gap, all => by
    refine ⟨.close gap, .close gap gap, rfl, fun rest => ?_⟩
    simp only [Outline.Members.chars, Members.strict, List.append_assoc, List.singleton_append]
    rw [Draft.spelling_after, normalFrom_gap, normalFrom_closer (.inl rfl)]
    rfl
  | .last key value, all => by
    obtain ⟨v, after, keeps, k, scanned⟩ := Draft.normalFrom_eq reads true structures value all.2
    refine ⟨.last key v after, .last key after keeps, rfl, fun rest => ?_⟩
    simp only [Outline.Members.chars, Members.strict, List.append_assoc, List.singleton_append]
    rw [Draft.spelling_name, normalFrom_key, scanned _ _ (.inr (.inl rfl)), normalFrom_closer (.inl rfl)]
    rfl
  | .more key value members, all => by
    obtain ⟨v, after, keeps, k, scanned⟩ := Draft.normalFrom_eq reads true structures value all.2.1
    obtain ⟨members', keepsMembers, close, scannedMembers⟩ := normalFrom_draftMembers reads structures members all.2.2
    refine ⟨.more key v after members', .more key after keeps keepsMembers, rfl, fun rest => ?_⟩
    simp only [Outline.Members.chars, Members.strict, List.append_assoc, List.cons_append]
    rw [Draft.spelling_name, normalFrom_key, scanned _ _ (.inl rfl), normalFrom_more (.inl rfl)
      (closes_members leaf) (continues_members leaf) scannedMembers, close]
end

/-- An array or an object is read to its end, whatever follows. -/
theorem Draft.normalFrom_root (reads : ∀ v, Q v → Scrap.Reads marker leaf v) {d : Draft} (root : d.isLeaf = false)
    (all : d.All P Q R S) : ∃ v gap, Keeps d v ∧ ∀ rest,
    normalFrom marker ⟨[], false⟩ (d.chars (Draft.spelling leaf) ++ rest) =
      v.strict marker ++ (Gap.spaces gap ++ normalFrom marker ⟨[], false⟩ rest) := by
  cases d with
  | leaf => cases root
  | array items after =>
    obtain ⟨items', keeps, -, scanned⟩ := normalFrom_draftItems marker reads [] items all.1
    refine ⟨.array items', after, .array keeps after, fun rest => ?_⟩
    rw [Outline.chars, Source.strict, List.cons_append, normalFrom_openBracket, List.append_assoc, scanned,
      Draft.spelling_after, normalFrom_gap, List.cons_append]
    rfl
  | object members after =>
    obtain ⟨members', keeps, -, scanned⟩ := normalFrom_draftMembers marker reads [] members all.1
    refine ⟨.object members', after, .object keeps after, fun rest => ?_⟩
    rw [Outline.chars, Source.strict, List.cons_append, normalFrom_openBrace, List.append_assoc, scanned,
      Draft.spelling_after, normalFrom_gap, List.cons_append]
    rfl

variable {marker}

/-- Where the scan for calls leaves a draft with a gap in front and nothing that is read behind it, the strict text is
that of a document that keeps the draft. -/
theorem Draft.normalizeChars_left (reads : ∀ v, Q v → Scrap.Reads marker leaf v) {d : Draft} (root : d.isLeaf = false)
    (all : d.All P Q R S) (before : Gap) {ending : List Char} (ended : ∀ s, normalFrom marker s ending = [])
    {wrap : Bool} {text : List Char}
    (left : (if wrap then wrapCalls marker text else text) = before.chars ++ (d.chars (spelling leaf) ++ ending)) :
    ∃ v, Keeps d v ∧ normalizeChars marker wrap text = v.strict marker := by
  obtain ⟨v, after, keeps, scanned⟩ := Draft.normalFrom_root marker reads root all
  have blank : ∀ g : Gap, ∀ c ∈ g.spaces, Text.isBlank c = true := fun g c mem => isBlank_of_isSpace (g.blank c mem)
  have whole : normalFrom marker ⟨[], false⟩ (before.chars ++ (d.chars (spelling leaf) ++ ending)) =
      before.spaces ++ (v.strict marker ++ after.spaces) := by
    rw [normalFrom_gap, scanned, ended, List.append_nil]
  refine ⟨v, keeps, ?_⟩
  rw [normalizeChars, left]
  exact (congrArg Text.trim whole).trans (Text.trim_append (blank before) (v.solid marker) (blank after))

end

/-! ## Places -/

namespace Outline

variable {κ α γ δ : Type}

def Items.get? : Outline.Items κ α γ δ → Nat → Option (Outline κ α γ δ)
  | .close _, _ => none
  | .last _ value, n => if n = 0 then some value else none
  | .more _ value _, 0 => some value
  | .more _ _ rest, n + 1 => rest.get? n

/-- The last member of the name. -/
def Members.get? (text : κ → String) (name : String) : Outline.Members κ α γ δ → Option (Outline κ α γ δ)
  | .close _ => none
  | .last key value => if name = text key then some value else none
  | .more key value rest => (rest.get? text name).or (if name = text key then some value else none)

end Outline

def Draft.child? : Spot → Draft → Option Draft
  | .item n, .array items _ => items.get? n
  | .member name, .object members _ => members.get? (fun key => key.name.text) name
  | _, _ => none

section

variable (bare : List Char → Json) {d : Draft}

theorem KeepsItems.getElem?_values {items : Outline.Items Key Scrap Gap Gap} {items' : Items} :
    KeepsItems items items' → ∀ {n : Nat}, items.get? n = some d →
      ∃ v, (items'.values bare)[n]? = some (v.value bare) ∧ Keeps d v
  | .close _ _, _, found => by cases found
  | .last before before' after h, n, found => by
    rw [Outline.Items.get?] at found
    split at found
    case isTrue first =>
      cases found
      rw [first, Items.values]
      exact ⟨_, rfl, h⟩
    case isFalse => cases found
  | .more before before' after h hs, n, found => by
    rw [Items.values]
    cases n with
    | zero =>
      cases found
      exact ⟨_, rfl, h⟩
    | succ n => exact hs.getElem?_values found

/-- Names that do not come stay as they are. -/
theorem KeepsMembers.get?_putAll_of_none {members : Outline.Members Key Scrap Gap Gap} {members' : Members}
    {name : String} : KeepsMembers members members' → members.get? (fun key => key.name.text) name = none →
    ∀ es : Entries Json, (members'.putAll bare es).get? name = es.get? name
  | .close _ _, _, es => by rw [Members.putAll]
  | .last key after h, absent, es => by
    rw [Outline.Members.get?] at absent
    split at absent
    case isTrue => cases absent
    case isFalse other => rw [Members.putAll, Entries.get?_put, if_neg other]
  | .more key after h hs, absent, es => by
    obtain ⟨later, absent⟩ := Option.or_eq_none_iff.1 absent
    split at absent
    case isTrue => cases absent
    case isFalse other => rw [Members.putAll, hs.get?_putAll_of_none later, Entries.get?_put, if_neg other]

/-- A later member of a name replaces an earlier one. -/
theorem KeepsMembers.get?_putAll {members : Outline.Members Key Scrap Gap Gap} {members' : Members} {name : String} :
    KeepsMembers members members' → members.get? (fun key => key.name.text) name = some d → ∀ es : Entries Json,
      ∃ v, (members'.putAll bare es).get? name = some (v.value bare) ∧ Keeps d v
  | .close _ _, found, _ => by cases found
  | .last key after h, found, es => by
    rw [Outline.Members.get?] at found
    split at found
    case isTrue same =>
      cases found
      rw [Members.putAll, Entries.get?_put, if_pos same]
      exact ⟨_, rfl, h⟩
    case isFalse => cases found
  | .more key after h hs, found, es => by
    rcases Option.or_eq_some_iff.1 found with later | ⟨absent, found⟩
    · rw [Members.putAll]
      exact hs.get?_putAll later _
    · split at found
      case isTrue same =>
        cases found
        rw [Members.putAll, hs.get?_putAll_of_none _ absent, Entries.get?_put, if_pos same]
        exact ⟨_, rfl, h⟩
      case isFalse => cases found

/-- Each value of a draft is where it is in a document that keeps it. -/
theorem Keeps.child? {d' : Draft} {v : Source} (h : Keeps d v) {spot : Spot} (found : Draft.child? spot d = some d') :
    ∃ v', (v.value bare).child? spot = some (v'.value bare) ∧ Keeps d' v' := by
  cases h with
  | quoted | bare => cases spot <;> cases found
  | array h after =>
    cases spot with
    | item n =>
      rw [Source.value]
      exact h.getElem?_values bare found
    | member => cases found
  | object h after =>
    cases spot with
    | item => cases found
    | member name =>
      rw [Source.value]
      exact h.get?_putAll bare found []

end

end ExactFormula.Relaxed
