import ExactFormula.Proofs.Relaxed.Draft
import ExactFormula.Proofs.Relaxed.Slots

/-!
Forms: arrays and objects with slots for strings, as values and as names. With wrapping, what is written into the slots
is read as it is wherever the scan for calls leaves a form with the slots.
-/

namespace ExactFormula.Relaxed

/-- A value of a form that is no structure: a given one, or a slot with what stands behind it. -/
inductive Entry (ι : Type)
  | given (value : Scrap)
  | slot (i : ι) (after : Gap)

/-- A name of a form with its colon: a given one, or a slot with what stands around it. -/
inductive Heading (ι : Type)
  | given (key : Key)
  | slot (before : Gap) (i : ι) (colon after : Gap)

abbrev Form (ι : Type) := Outline (Heading ι) (Entry ι) Gap Gap

/-- A form with what stands in front of it, and perhaps a line comment that only the text ends. -/
structure Page (ι : Type) where
  before : Gap := []
  root : Form ι
  ending : Option (List Char) := none
  oneLine : ∀ text ∈ ending, '\n' ∉ text := by simp

variable {ι : Type}

/-! ## Filling -/

section

variable (fill : ι → Quotation)

def Entry.filled : Entry ι → Scrap
  | given value => value
  | slot i after => .quoted (fill i) after

def Heading.filled : Heading ι → Key
  | given key => key
  | slot before i colon after => ⟨before, .quoted (fill i), colon, after⟩

/-- The draft that a form is when its slots are filled. -/
def Form.filled (form : Form ι) : Draft := form.map (Heading.filled fill) (Entry.filled fill)

def Page.ended (page : Page ι) : List Char := page.ending.elim [] ('/' :: '/' :: ·)

/-- The text of a page when its slots are filled. -/
def Page.text (page : Page ι) : List Char :=
  page.before.chars ++ ((page.root.filled fill).text ++ page.ended)

end

/-! ## Text -/

def Entry.glyphs : Entry ι → List (Glyph ι)
  | given value => value.chars.map .char
  | slot i after => .slot i :: after.chars.map .char

def Heading.glyphs : Heading ι → List (Glyph ι)
  | given key => key.chars.map .char
  | slot before i colon after => before.chars.map .char ++ .slot i :: (colon.chars ++ ':' :: after.chars).map .char

mutual
/-- The text of a form, with its slots. -/
def Form.glyphs : Form ι → List (Glyph ι)
  | .leaf value => value.glyphs
  | .array items after => .char '[' :: (itemGlyphs items ++ after.chars.map .char)
  | .object members after => .char '\x7b' :: (memberGlyphs members ++ after.chars.map .char)

def Form.itemGlyphs : Outline.Items (Heading ι) (Entry ι) Gap Gap → List (Glyph ι)
  | .close gap => gap.chars.map .char ++ [.char ']']
  | .last before value => before.chars.map .char ++ (Form.glyphs value ++ [.char ']'])
  | .more before value rest => before.chars.map .char ++ (Form.glyphs value ++ .char ',' :: itemGlyphs rest)

def Form.memberGlyphs : Outline.Members (Heading ι) (Entry ι) Gap Gap → List (Glyph ι)
  | .close gap => gap.chars.map .char ++ [.char '\x7d']
  | .last name value => name.glyphs ++ (Form.glyphs value ++ [.char '\x7d'])
  | .more name value rest => name.glyphs ++ (Form.glyphs value ++ .char ',' :: memberGlyphs rest)
end

def Page.glyphs (page : Page ι) : List (Glyph ι) :=
  page.before.chars.map .char ++ (page.root.glyphs ++ page.ended.map .char)

variable (fill : ι → Quotation)

theorem Entry.spell_glyphs (entry : Entry ι) : spell fill entry.glyphs = (entry.filled fill).chars := by
  cases entry with
  | given value => exact spell_chars _
  | slot i after => exact congrArg ((fill i).chars ++ ·) (spell_chars _)

theorem Heading.spell_glyphs (heading : Heading ι) : spell fill heading.glyphs = (heading.filled fill).chars := by
  cases heading with
  | given key => exact spell_chars _
  | slot before i colon after =>
    rw [glyphs, spell_append, spell_chars, spell_slot, spell_chars, filled, Key.chars, Name.chars, Quotation.chars]
    rfl

mutual
theorem Form.spell_glyphs : (form : Form ι) → spell fill form.glyphs = (form.filled fill).text
  | .leaf value => by
    rw [Form.glyphs]
    exact value.spell_glyphs fill
  | .array items after => by
    rw [Form.glyphs, spell_char, spell_append, spell_chars, Form.spell_itemGlyphs items]
    rfl
  | .object members after => by
    rw [Form.glyphs, spell_char, spell_append, spell_chars, Form.spell_memberGlyphs members]
    rfl

theorem Form.spell_itemGlyphs : (items : Outline.Items (Heading ι) (Entry ι) Gap Gap) →
    spell fill (Form.itemGlyphs items) =
      (items.map (Heading.filled fill) (Entry.filled fill)).chars (Draft.spelling Scrap.chars)
  | .close gap => by
    rw [Form.itemGlyphs, spell_append, spell_chars]
    rfl
  | .last before value => by
    rw [Form.itemGlyphs, spell_append, spell_append, spell_chars, Form.spell_glyphs value]
    rfl
  | .more before value rest => by
    rw [Form.itemGlyphs, spell_append, spell_append, spell_chars, spell_char, Form.spell_glyphs value,
      Form.spell_itemGlyphs rest]
    rfl

theorem Form.spell_memberGlyphs : (members : Outline.Members (Heading ι) (Entry ι) Gap Gap) →
    spell fill (Form.memberGlyphs members) =
      (members.map (Heading.filled fill) (Entry.filled fill)).chars (Draft.spelling Scrap.chars)
  | .close gap => by
    rw [Form.memberGlyphs, spell_append, spell_chars]
    rfl
  | .last name value => by
    rw [Form.memberGlyphs, spell_append, spell_append, name.spell_glyphs, Form.spell_glyphs value]
    rfl
  | .more name value rest => by
    rw [Form.memberGlyphs, spell_append, spell_append, name.spell_glyphs, spell_char, Form.spell_glyphs value,
      Form.spell_memberGlyphs rest]
    rfl
end

theorem Page.spell_glyphs (page : Page ι) : spell fill page.glyphs = page.text fill := by
  rw [glyphs, spell_append, spell_chars, spell_append, spell_chars, Form.spell_glyphs, text]

/-! ## Reading -/

def Entry.Readable : Entry ι → Prop
  | given value => value.Readable
  | slot _ _ => True

/-- Each bare value is taken as one. -/
def Form.Readable (form : Form ι) : Prop := form.All (fun _ => True) Entry.Readable (fun _ => True) (fun _ => True)

theorem Form.Readable.filled {form : Form ι} (readable : form.Readable) : (form.filled fill).Readable :=
  Outline.All.map (fun _ _ => trivial) (fun entry readable => by
    cases entry with
    | given value => exact readable
    | slot i after => trivial) form readable

/-- What the scan for calls leaves of a page, with its slots in it: all of it where nothing is wrapped, and else, as
long as no quotation of the page runs over a slot, what it makes of the text with the slots. -/
inductive Leaves (marker : List Char) (page : Page ι) : (wrap : Bool) → Page ι → Prop
  | unwrapped : Leaves marker page false page
  | callless (none : ¬Calls (page.text fill)) : Leaves marker page true page
  | scanned {left : Page ι} (apart : Apart page.glyphs)
    (scanned : wrapGlyphs marker page.glyphs = left.glyphs.map some) : Leaves marker page true left

variable {fill} {marker : List Char} {wrap : Bool} {page left : Page ι}

theorem Page.normalFrom_ended (page : Page ι) (s : NormalState) : normalFrom marker s page.ended = [] := by
  rw [ended]
  cases found : page.ending with
  | none => rfl
  | some text => exact normalFrom_ending (page.oneLine text found) s

theorem Leaves.wrapCalls_eq (h : Leaves fill marker page wrap left) :
    (if wrap then wrapCalls marker (page.text fill) else page.text fill) = left.text fill := by
  cases h with
  | unwrapped => rfl
  | callless none => exact wrapCalls_of_callless none
  | scanned apart scanned =>
    rw [if_pos rfl, ← Page.spell_glyphs, ← Page.spell_glyphs]
    exact apart.wrapCalls_spell scanned

/-- A page with its slots filled is normalized to the strict text of a document that keeps the form that is left. -/
theorem Leaves.normalizeChars_eq (h : Leaves fill marker page wrap left) (root : left.root.isLeaf = false)
    (readable : left.root.Readable) :
    ∃ v, Keeps (left.root.filled fill) v ∧ normalizeChars marker wrap (page.text fill) = v.strict marker :=
  Draft.normalizeChars_left (fun _ => Scrap.Readable.reads) ((Outline.isLeaf_map left.root).trans root)
    (readable.filled fill) left.before left.normalFrom_ended h.wrapCalls_eq

theorem Leaves.parseChars_eq (h : Leaves fill marker page wrap left) (root : left.root.isLeaf = false)
    (readable : left.root.Readable) {j : Json} (read : parseChars marker wrap (page.text fill) = .ok j) :
    ∃ v, Keeps (left.root.filled fill) v ∧ j = v.value (bareJson marker) := by
  obtain ⟨v, keeps, strict⟩ := h.normalizeChars_eq root readable
  rw [parseChars, strict] at read
  exact ⟨v, keeps, Json.eq_of_ofChars (fun _ => v.reads marker) read⟩

end ExactFormula.Relaxed
