import Mathlib.Data.List.Forall2
import ExactFormula.Proofs.Relaxed.Calls
import ExactFormula.Proofs.Relaxed.Outline

/-!
Values with calls in a document. A value ends at the first comma or closing bracket of the structure around it, but
the scan stops as well before a bracket that closes the last group of the value itself, parentheses apart.
-/

namespace ExactFormula.Relaxed

/-- Balanced text without a comma outside its groups and quotations. Where not `all` groups are allowed, brackets and
braces stand only inside parentheses. -/
inductive Inline (all : Bool) : List Char → Prop
  | nil : Inline all []
  | plain {c : Char} {cs : List Char} (steady : Lexeme.Steady c) (comma : c ≠ ',') (rest : Inline all cs) :
    Inline all (c :: cs)
  | quotation {q : Char} {body cs : List Char} (isQuote : Text.isQuote q = true)
    (closes : ∀ rest, Text.closingLength? true q (body ++ rest) = some body.length) (rest : Inline all cs) :
    Inline all (q :: (body ++ cs))
  | group {c : Char} {inner cs : List Char} (opens : Lexeme.isOpener c = true) (allowed : all = true ∨ c = '(')
    (inside : Matched true inner) (rest : Inline all cs) : Inline all (c :: (inner ++ Lexeme.closer c :: cs))

theorem Inline.word {all : Bool} {w text : List Char}
    (plain : (w.all fun c => !Text.isQuote c && !Lexeme.isOpener c && !Lexeme.isCloser c && c != ',') = true)
    (h : Inline all text) : Inline all (w ++ text) := by
  induction w with
  | nil => exact h
  | cons c w ih =>
    simp only [List.all_cons, Bool.and_eq_true, Bool.not_eq_true', bne_iff_ne] at plain
    obtain ⟨⟨⟨⟨quote, opens⟩, closes⟩, comma⟩, plain⟩ := plain
    exact .plain ⟨quote, opens, closes⟩ comma (ih (by simpa using plain))

theorem inline_spaces {all : Bool} {w : List Char} (spaces : ∀ c ∈ w, isSpace c = true) : Inline all w := by
  induction w with
  | nil => exact .nil
  | cons c w ih =>
    obtain ⟨space, spaces⟩ := List.forall_mem_cons.1 spaces
    refine .plain ?_ ?_ (ih spaces) <;> rcases isSpace_cases space with rfl | rfl | rfl | rfl
    all_goals first | exact ⟨rfl, rfl, rfl⟩ | decide

theorem Inline.append {all : Bool} {text more : List Char} (h : Inline all text) (h' : Inline all more) :
    Inline all (text ++ more) := by
  induction h with
  | nil => exact h'
  | plain steady comma _ ih => exact .plain steady comma ih
  | quotation isQuote closes _ ih =>
    rw [List.cons_append, List.append_assoc]
    exact .quotation isQuote closes ih
  | group opens allowed inside _ ih =>
    rw [List.cons_append, List.append_assoc]
    exact .group opens allowed inside ih

/-! ## Lengths -/

variable {c : Char} {text rest : List Char}

theorem valueLength_steady (steady : Lexeme.Steady c) {p b k : Nat} (held : 0 < p + b + k ∨ c ≠ ',') (cs : List Char) :
    valueLength 0 p b k (c :: cs) = valueLength 0 p b k cs + 1 := by
  obtain ⟨quote, opens, closes⟩ := steady
  simp only [Lexeme.isOpener, Lexeme.isCloser, Bool.or_eq_false_iff, beq_eq_false_iff_ne] at opens closes
  have held : ¬(((p = 0 ∧ b = 0) ∧ k = 0) ∧ c = ',') := by
    rintro ⟨none, rfl⟩
    rcases held with some | other
    · omega
    · exact other rfl
  rw [valueLength]
  simp [quote, opens, closes, held]

/-- A group is counted while it is open. Its closer belongs to the value if something else is open still, or if it is a
parenthesis. -/
theorem valueLength_group (opens : Lexeme.isOpener c = true) (p b k : Nat) : ∃ p' b' k', 0 < p' + b' + k' ∧
    (∀ cs, valueLength 0 p b k (c :: cs) = valueLength 0 p' b' k' cs + 1) ∧
    ∀ cs, valueLength 0 p' b' k' (Lexeme.closer c :: cs) =
      if 0 < p + b + k ∨ c = '(' then valueLength 0 p b k cs + 1 else 0 := by
  rcases Lexeme.isOpener_cases opens with rfl | rfl | rfl
  · refine ⟨p + 1, b, k, by omega, fun cs => ?_, fun cs => ?_⟩ <;>
      simp [valueLength, Text.isQuote, Lexeme.closer]
  · refine ⟨p, b, k + 1, by omega, fun cs => ?_, fun cs => ?_⟩ <;>
      simp [valueLength, Text.isQuote, Lexeme.closer]
    split <;> split <;> first | rfl | omega
  · refine ⟨p, b + 1, k, by omega, fun cs => ?_, fun cs => ?_⟩ <;>
      simp [valueLength, Text.isQuote, Lexeme.closer]
    split <;> split <;> first | rfl | omega

/-- Inside a group, a value goes on through everything that is matched. -/
theorem valueLength_matched {escapes : Bool} (h : Matched escapes text) (counts : escapes = true) {p b k : Nat}
    (inside : 0 < p + b + k) (rest : List Char) :
    valueLength 0 p b k (text ++ rest) = text.length + valueLength 0 p b k rest := by
  induction h generalizing p b k rest with
  | nil => simp
  | plain steady _ ih =>
    rw [List.cons_append, valueLength_steady steady (.inl inside), ih counts inside, List.length_cons]
    omega
  | quotation isQuote closes _ ih =>
    subst counts
    rw [List.cons_append, List.append_assoc, valueLength_quotation isQuote closes, ih rfl inside, List.length_cons,
      List.length_append]
    omega
  | group opens _ _ ih ih' =>
    obtain ⟨p', b', k', deeper, opened, closed⟩ := valueLength_group opens p b k
    rw [List.cons_append, List.append_assoc, List.cons_append, opened, ih (by rw [counts]; rfl) deeper, closed,
      if_pos (.inl inside), ih' counts inside]
    simp only [List.length_cons, List.length_append]
    omega

theorem Inline.valueLength_eq (h : Inline false text) (rest : List Char) :
    valueLength 0 0 0 0 (text ++ rest) = text.length + valueLength 0 0 0 0 rest := by
  induction h with
  | nil => simp
  | plain steady comma _ ih =>
    rw [List.cons_append, valueLength_steady steady (.inr comma), ih, List.length_cons]
    omega
  | quotation isQuote closes _ ih =>
    rw [List.cons_append, List.append_assoc, valueLength_quotation isQuote closes, ih, List.length_cons,
      List.length_append]
    omega
  | group opens allowed inside _ ih =>
    obtain ⟨p, b, k, deeper, opened, closed⟩ := valueLength_group opens 0 0 0
    have parens := allowed.resolve_left Bool.false_ne_true
    rw [List.cons_append, List.append_assoc, List.cons_append, opened, valueLength_matched inside rfl deeper, closed,
      if_pos (.inr parens), ih]
    simp only [List.length_cons, List.length_append]
    omega

/-- Where a value is due, it is taken with what stands between it and its end. -/
theorem wrapFrom_inline (marker : List Char) (h : Inline false text)
    (starts : ∀ c ∈ text.head?, isSpace c = false ∧ isStructural c = false) (structures : List Bool) :
    ∃ key value, ∀ rest, ValueEnds rest → wrapFrom marker ⟨structures, false, true⟩ (text ++ rest) =
      (if Calls (Text.trim text) then wrapValue marker (Text.trim text) else text) ++
        wrapFrom marker ⟨structures, key, value⟩ rest := by
  cases text with
  | nil =>
    refine ⟨false, true, fun rest _ => ?_⟩
    rw [if_neg (by decide)]
    rfl
  | cons c text =>
    obtain ⟨space, structural⟩ := starts c rfl
    refine ⟨WrapState.inObject ⟨structures, false, true⟩, false, fun rest ends => ?_⟩
    have length : valueLength 0 0 0 0 (c :: (text ++ rest)) = text.length + 1 := by
      rw [← List.cons_append, h.valueLength_eq, ends.valueLength_eq]
      rfl
    rw [List.cons_append, wrapFrom_value rfl rfl space structural length]
    simp only [hasCall_iff]

/-! ## Contents -/

/-- Only a single quote may have become another character, a double quote. -/
def Turned (a b : Char) : Prop := b = a ∨ a = '\'' ∧ b = '"'

theorem requoteSingles_turned (inSingle inDouble escaped : Bool) (cs : List Char) :
    List.Forall₂ Turned cs (requoteSingles inSingle inDouble escaped cs) := by
  fun_induction requoteSingles inSingle inDouble escaped cs with
  | case1 => exact .nil
  | case5 _ _ _ _ _ _ _ _ single ih =>
    rw [Bool.and_eq_true, beq_iff_eq] at single
    exact .cons (.inr ⟨single.1, rfl⟩) ih
  | case2 | case3 | case4 | case6 => exact .cons (.inl rfl) ‹_›

theorem forall₂_turned_refl (cs : List Char) : List.Forall₂ Turned cs cs := by
  induction cs with
  | nil => exact .nil
  | cons c cs ih => exact .cons (.inl rfl) ih

/-- What has no single quote stays as it is. -/
theorem eq_of_turned {value content : List Char} (h : List.Forall₂ Turned value content) (plain : '\'' ∉ value) :
    content = value := by
  induction h with
  | nil => rfl
  | cons first _ ih =>
    obtain ⟨other, plain⟩ := not_or.1 (List.mem_cons.not.1 plain)
    rw [ih plain, first.resolve_right fun both => other both.1.symm]

/-- What stands behind the marker in the string for a value with a call. -/
def stored (value : List Char) : List Char :=
  if value.any fun c => c == '{' || c == '[' then requoteSingles false false false value else value

theorem wrapValue_eq_stored (marker value : List Char) : wrapValue marker value = Text.quote (marker ++ stored value) :=
  rfl

/-- A wrapped value is one string with the marker and the value in it, quotes apart. -/
theorem exists_content : ∃ content : List Char → List Char, (∀ value, List.Forall₂ Turned value (content value)) ∧
    ∀ marker value, wrapValue marker value = Text.quote (marker ++ content value) := by
  refine ⟨stored, fun value => ?_, wrapValue_eq_stored⟩
  rw [stored]
  split
  · exact requoteSingles_turned false false false value
  · exact forall₂_turned_refl value

/-! ## Documents -/

/-- Text in which the marks of documents stand only inside quotations. -/
inductive MarksQuoted : List Char → Prop
  | nil : MarksQuoted []
  | char {c : Char} {cs : List Char} (quote : Text.isQuote c = false) (structural : isStructural c = false)
    (rest : MarksQuoted cs) : MarksQuoted (c :: cs)
  | quotation {q : Char} {body cs : List Char} (isQuote : Text.isQuote q = true)
    (closes : ∀ rest, Text.closingLength? true q (body ++ rest) = some body.length) (rest : MarksQuoted cs) :
    MarksQuoted (q :: (body ++ cs))

abbrev Spaces := { w : List Char // ∀ c ∈ w, isSpace c = true }

/-- The name of a member up to its value. -/
structure Label where
  name : List Char
  marks : MarksQuoted name
  after : Spaces

/-- A value up to its end. It is balanced, has no comma of its own, and opens no structure. A text that begins with a
colon is no value: the scan goes on behind the colon. -/
structure Passage where
  text : List Char
  inline : Inline true text
  starts : ∀ c ∈ text.head?, isSpace c = false ∧ isStructural c = false

/-- Where no value is due, more than spaces may stand, but no marks. -/
abbrev Layout := Outline Label Passage Spaces { text : List Char // MarksQuoted text }

/-- The text of a document, where values are written as given. -/
def Layout.spelling (leaf : Passage → List Char) :
    Spelling Label Passage Spaces { text : List Char // MarksQuoted text } where
  name label := label.name ++ ':' :: label.after
  leaf := leaf
  gap := Subtype.val
  after := Subtype.val

/-- Values are as given, and the rest is any. -/
def Layout.Values (p : Passage → Prop) (o : Layout) : Prop := o.All (fun _ => True) p (fun _ => True) (fun _ => True)

def Passage.value (v : Passage) : List Char := Text.trim v.text

/-- No group but one in parentheses stands outside all others. -/
def Passage.Whole (v : Passage) : Prop := Inline false v.text

theorem marksQuoted_of_plain {text : List Char}
    (plain : ∀ c ∈ text, Text.isQuote c = false ∧ isStructural c = false) : MarksQuoted text := by
  induction text with
  | nil => exact .nil
  | cons c text ih =>
    obtain ⟨⟨quote, structural⟩, plain⟩ := List.forall_mem_cons.1 plain
    exact .char quote structural (ih plain)

/-- Names are copied, whatever quotations they have. -/
theorem wrapFrom_name {marker name : List Char} (h : MarksQuoted name) {s : WrapState}
    (copied : (s.atKey || !s.atValue) = true) (rest : List Char) :
    wrapFrom marker s (name ++ rest) = name ++ wrapFrom marker s rest := by
  induction h with
  | nil => rfl
  | @char c cs quote structural _ ih =>
    rw [List.cons_append, List.cons_append, ← ih, ← List.singleton_append, ← List.singleton_append]
    exact wrapFrom_copied (by simp [quote, structural]) copied (cs ++ rest)
  | quotation isQuote closes _ ih =>
    rw [List.cons_append, List.append_assoc, wrapFrom_closed isQuote closes copied, ih, List.cons_append,
      List.append_assoc]

namespace Layout

theorem wraps {content : List Char → List Char} {marker : List Char}
    (wrapped : ∀ value, wrapValue marker value = Text.quote (marker ++ content value)) :
    Outline.Wraps marker (spelling Passage.text)
      (fun v => if Calls v.value then Text.quote (marker ++ content v.value) else v.text)
      (fun _ => True) Passage.Whole (fun _ => True) (fun _ => True) where
  name label _ structures rest := by
    have named : (spelling Passage.text).name label = label.name ++ ':' :: label.after := rfl
    rw [named, List.append_assoc, List.append_assoc, wrapFrom_name label.marks rfl, List.cons_append, wrapFrom_colon,
      wrapFrom_spaces label.after.2, List.cons_append]
  leaf v whole structures := by
    have taken := wrapFrom_inline marker whole v.starts structures
    rwa [wrapped] at taken
  gap g _ state rest := wrapFrom_spaces g.2 state rest
  after text _ state copied rest := wrapFrom_name text.2 copied rest

/-- Each value with a call becomes one string up to its end, with the marker and the trimmed value in it, so that blanks
between the value and its end are dropped, and all else is copied. -/
theorem wrapCalls_whole (marker : List Char) {o : Layout} (root : o.isLeaf = false)
    (whole : o.Values Passage.Whole) : ∃ content : List Char → List Char,
      (∀ value, List.Forall₂ Turned value (content value)) ∧
      wrapCalls marker (o.chars (spelling Passage.text)) =
        o.chars (spelling fun v => if Calls v.value then Text.quote (marker ++ content v.value) else v.text) := by
  obtain ⟨content, turned, wrapped⟩ := exists_content
  exact ⟨content, turned, Outline.wrapCalls_eq (wraps (wrapped marker)) root whole⟩

/-- The object whose only member has the value. -/
def ofPassage (v : Passage) : Layout :=
  .object (.last ⟨['a'], .char rfl rfl .nil, [' '], List.all_eq_true.1 rfl⟩ (.leaf v)) ⟨[], .nil⟩

/-- `max('q,r') * 2`, with a space behind it. -/
def maximumText : List Char :=
  ['m', 'a', 'x'] ++ '(' :: ('\'' :: (['q', ',', 'r', '\''] ++ []) ++ ')' :: ([' ', '*', ' ', '2', ' '] ++ []))

theorem inline_maximumText (all : Bool) : Inline all maximumText := by
  have closes : Text.closingLength? true '\'' ['q', ',', 'r', '\''] = some 4 := by decide
  have inside : Matched true ('\'' :: (['q', ',', 'r', '\''] ++ [])) :=
    .quotation rfl (Text.closingLength?_take closes) .nil
  exact .word rfl (.group (c := '(') rfl (.inr rfl) inside (.word rfl .nil))

def maximum : Passage where
  text := maximumText
  inline := inline_maximumText true
  starts := by
    rintro c ⟨⟩
    exact ⟨rfl, rfl⟩

theorem wrapCalls_whole_maximum :
    String.ofList ((ofPassage maximum).chars (spelling Passage.text)) = "\x7ba: max('q,r') * 2 \x7d" ∧
    (ofPassage maximum).isLeaf = false ∧ (ofPassage maximum).Values Passage.Whole ∧
    ∃ content : List Char → List Char, (∀ value, List.Forall₂ Turned value (content value)) ∧
      wrapCalls ['#'] ((ofPassage maximum).chars (spelling Passage.text)) = (ofPassage maximum).chars
        (spelling fun v => if Calls v.value then Text.quote (['#'] ++ content v.value) else v.text) :=
  ⟨by decide, rfl, ⟨⟨trivial, inline_maximumText false⟩, trivial⟩,
    wrapCalls_whole ['#'] rfl ⟨⟨trivial, inline_maximumText false⟩, trivial⟩⟩

/-- `f(x)[0]` -/
def indexed : Passage where
  text := 'f' :: '(' :: (['x'] ++ ')' :: '[' :: (['0'] ++ [']']))
  inline := .word (w := ['f']) rfl (.group (c := '(') rfl (.inl rfl) (.plain ⟨rfl, rfl, rfl⟩ .nil)
    (.group (c := '[') rfl (.inl rfl) (.plain ⟨rfl, rfl, rfl⟩ .nil) .nil))
  starts := by
    rintro c ⟨⟩
    exact ⟨rfl, rfl⟩

/-- The bracket that closes the index ends the value. -/
theorem wrapCalls_cut : ¬∀ o : Layout, o.isLeaf = false → ∃ content : List Char → List Char,
    (∀ value, List.Forall₂ Turned value (content value)) ∧ wrapCalls ['#'] (o.chars (spelling Passage.text)) =
      o.chars (spelling fun v => if Calls v.value then Text.quote (['#'] ++ content v.value) else v.text) := by
  intro h
  obtain ⟨content, turned, wrapped⟩ := h (ofPassage indexed) rfl
  have same : content indexed.value = indexed.value := eq_of_turned (turned _) (by decide)
  have called : Calls indexed.value := by decide
  have text : (ofPassage indexed).chars
      (spelling fun v => if Calls v.value then Text.quote (['#'] ++ content v.value) else v.text) =
        '{' :: (('a' :: ':' :: [' ']) ++ ((if Calls indexed.value then Text.quote (['#'] ++ content indexed.value)
          else indexed.text) ++ ['}']) ++ []) := rfl
  rw [text, if_pos called, same] at wrapped
  exact absurd wrapped (by decide)

end Layout

end ExactFormula.Relaxed
