import ExactFormula.Proofs.Relaxed.Draft

/-!
Drafts whose values the scan for calls takes one by one: it wraps those with calls, and copies the rest. What is read of
such a draft is a document that has the same structures, names and quotations.
-/

namespace ExactFormula.Relaxed

variable {marker : List Char}

/-! ## Clear drafts -/

/-- Comments have no marks, and none stands where a value is due. -/
structure Key.Clear (key : Key) : Prop where
  before : MarksQuoted key.before.chars
  colon : MarksQuoted key.colon.chars
  after : key.after.IsStrict

/-- A bare value that is taken whole, with no comment behind it. If it is not wrapped, there are no quotations in it
either. -/
structure ClearText (text : List Char) (after : Gap) : Prop where
  solid : Text.Solid text
  starts : ∀ c ∈ text.head?, isStructural c = false
  inline : Inline false text
  after : after.IsStrict
  unadorned : ¬Calls text → Unadorned text

/-- Where no call is wrapped, a value only has to be read as one. -/
def Scrap.Clear : (wraps : Bool) → Scrap → Prop
  | false, v => v.Readable
  | true, quoted _ after => after.IsStrict
  | true, bare text after => ClearText text after

/-- Each part of the draft is read as what it is. Comments are restricted only where calls are wrapped. -/
def Draft.Clear (wraps : Bool) (d : Draft) : Prop :=
  d.All (fun key => wraps = true → key.Clear) (Scrap.Clear wraps) (fun g => wraps = true → g.IsStrict)
    (fun g => wraps = true → MarksQuoted g.chars)

/-! ## Wrapping -/

theorem Key.Clear.wrapFrom_eq {key : Key} (h : key.Clear) (structures : List Bool) (rest : List Char) :
    wrapFrom marker ⟨true :: structures, true, false⟩ (key.chars ++ rest) =
      key.chars ++ wrapFrom marker ⟨true :: structures, false, true⟩ rest := by
  simp only [Key.chars, List.append_assoc, List.cons_append]
  rw [wrapFrom_name h.before rfl, wrapFrom_name key.name.marksQuoted rfl, wrapFrom_name h.colon rfl, wrapFrom_colon,
    wrapFrom_spaces h.after.isSpace]

theorem Quotation.solid (q : Quotation) : Text.Solid q.chars := by
  obtain ⟨shown, -, -⟩ := quote_facts q.isQuote
  exact Text.solid_of_ends shown shown q.raw

/-- What stands where a value was, when those with calls are wrapped. -/
def Scrap.wrapped (marker : List Char) : Scrap → List Char
  | quoted string after => string.chars ++ after.chars
  | bare text after => if Calls text then wrapValue marker text else text ++ after.chars

theorem Gap.IsStrict.trim_append {g : Gap} (h : g.IsStrict) {text : List Char} (solid : Text.Solid text) :
    Text.trim (text ++ g.chars) = text :=
  Text.trim_append (List.forall_mem_nil _) solid fun c mem => isBlank_of_isSpace (h.isSpace c mem)

theorem Draft.wraps : Outline.Wraps marker (spelling Scrap.chars) (Scrap.wrapped marker)
    (fun key => true = true → key.Clear) (Scrap.Clear true) (fun g => true = true → g.IsStrict)
    (fun g => true = true → MarksQuoted g.chars) where
  name key clear structures rest := (clear rfl).wrapFrom_eq structures rest
  gap g strict state rest := wrapFrom_spaces (strict rfl).isSpace state rest
  after g marks state copied rest := wrapFrom_name (marks rfl) copied rest
  leaf v clear structures := by
    cases v with
    | quoted string after =>
      have strict : after.IsStrict := clear
      obtain ⟨shown, structural, -⟩ := quote_facts string.isQuote
      have inline : Inline false (string.chars ++ after.chars) :=
        .quotation string.isQuote string.closes (inline_spaces strict.isSpace)
      have taken := wrapFrom_inline marker inline (by
        rintro c ⟨⟩
        exact ⟨isSpace_of_shown shown, structural⟩) structures
      rwa [strict.trim_append string.solid, if_neg string.hushed.callless] at taken
    | bare text after =>
      obtain ⟨solid, starts, inline, strict, -⟩ := clear
      obtain ⟨c, cs, rfl, shown⟩ := solid.head
      have taken := wrapFrom_inline marker (inline.append (inline_spaces strict.isSpace)) (by
        rintro d ⟨⟩
        exact ⟨isSpace_of_shown shown, starts c rfl⟩) structures
      rwa [strict.trim_append solid] at taken

/-- The values of a draft as normalizing finds them. -/
def Scrap.found (marker : List Char) (wraps : Bool) (v : Scrap) : List Char :=
  if wraps then v.wrapped marker else v.chars

/-- Whether calls are wrapped in the text of a draft: if there are any. -/
def Draft.wrapsCalls (wrap : Bool) (d : Draft) : Bool := wrap && decide (Calls d.text)

theorem Draft.wrapCalls_eq {wrap : Bool} {d : Draft} (root : d.isLeaf = false) (clear : d.Clear (d.wrapsCalls wrap)) :
    (if wrap then wrapCalls marker d.text else d.text) =
      d.chars (spelling (Scrap.found marker (d.wrapsCalls wrap))) := by
  cases acts : d.wrapsCalls wrap with
  | true =>
    rw [acts] at clear
    have on : wrap = true := (Bool.and_eq_true_iff.1 acts).1
    rw [if_pos on]
    exact Outline.wrapCalls_eq Draft.wraps root clear
  | false =>
    have same : (if wrap then wrapCalls marker d.text else d.text) = d.text := by
      split
      case isTrue on =>
        rw [wrapsCalls, on, Bool.true_and, decide_eq_false_iff_not] at acts
        exact wrapCalls_of_callless acts
      case isFalse => rfl
    rw [same]
    rfl

/-! ## Reading -/

theorem Scrap.Clear.reads {wraps : Bool} {v : Scrap} (clear : v.Clear wraps) :
    v.Reads marker (Scrap.found marker wraps) := by
  cases wraps with
  | false => exact Readable.reads clear
  | true =>
    cases v with
    | quoted string after =>
      have read : (Scrap.quoted string after).Reads marker Scrap.chars := Readable.reads trivial
      exact ⟨read.starts, read.scanned⟩
    | bare text after =>
      obtain ⟨solid, starts, inline, -, unadorned⟩ := clear
      by_cases called : Calls text
      · obtain ⟨content, -, wrapped⟩ := exists_content
        have same : found marker true (.bare text after) = (Quotation.ofText (marker ++ content text)).chars :=
          (if_pos called).trans (wrapped marker text)
        refine ⟨fun c rest _ => ?_, .quoted (.ofText (marker ++ content text)), [], .bare text after _ rfl, ?_⟩
        · exact same ▸ (Quotation.starts _).append (c :: rest)
        · intro object structures c rest _
          rw [same, normalFrom_quotation, Source.strict]
          rfl
      · have same : found marker true (.bare text after) = text ++ after.chars := if_neg called
        have read : (Scrap.bare text after).Reads marker Scrap.chars :=
          Readable.reads (inline.taken solid starts (unadorned called) after)
        obtain ⟨starts, scanned⟩ := read
        rw [Scrap.chars, ← same] at starts scanned
        exact ⟨starts, scanned⟩

/-- The strict text of a draft is that of a document that keeps it. -/
theorem Draft.normalizeChars_eq {wrap : Bool} {d : Draft} (root : d.isLeaf = false)
    (clear : d.Clear (d.wrapsCalls wrap)) : ∃ v, Keeps d v ∧ normalizeChars marker wrap d.text = v.strict marker :=
  Draft.normalizeChars_left (fun _ => Scrap.Clear.reads) root clear [] (fun _ => rfl)
    ((Draft.wrapCalls_eq root clear).trans (List.append_nil _).symm)

/-- What is read of a draft is a document that keeps it. -/
theorem Draft.parseChars_eq {wrap : Bool} {d : Draft} (root : d.isLeaf = false) (clear : d.Clear (d.wrapsCalls wrap))
    {j : Json} (read : parseChars marker wrap d.text = .ok j) : ∃ v, Keeps d v ∧ j = v.value (bareJson marker) := by
  obtain ⟨v, keeps, strict⟩ := Draft.normalizeChars_eq root clear
  rw [parseChars, strict] at read
  exact ⟨v, keeps, Json.eq_of_ofChars (fun _ => v.reads marker) read⟩

end ExactFormula.Relaxed
