import ExactFormula.Proofs.Relaxed.WrappedValues

/-!
Texts with slots for quotations. As long as no quotation of the text around it runs over a slot, the scan for calls
takes what is written there as one unit: what it makes of the text is decided before the slots are filled.
-/

namespace ExactFormula.Relaxed

/-! ## Texts with slots -/

/-- A character of a text, or a slot. -/
inductive Glyph (ι : Type)
  | char (c : Char)
  | slot (i : ι)
  deriving DecidableEq

variable {ι : Type} (fill : ι → Quotation)

def Glyph.chars : Glyph ι → List Char
  | char c => [c]
  | slot i => (fill i).chars

/-- The text with its slots filled. -/
def spell (glyphs : List (Glyph ι)) : List Char := glyphs.flatMap (Glyph.chars fill)

/-- A character that steers nothing stands for a slot. -/
def Glyph.flat : Glyph ι → Char
  | char c => c
  | slot _ => '.'

def Glyph.isSlot : Glyph ι → Bool
  | char _ => false
  | slot _ => true

/-- No quotation of the text runs over a slot: each is closed in the text between two slots, or there are no more
slots behind it. -/
inductive Apart : List (Glyph ι) → Prop
  | nil : Apart []
  | char {c : Char} {glyphs : List (Glyph ι)} (plain : Text.isQuote c = false) (rest : Apart glyphs) :
    Apart (.char c :: glyphs)
  | slot (i : ι) {glyphs : List (Glyph ι)} (rest : Apart glyphs) : Apart (.slot i :: glyphs)
  | quotation {q : Char} {body : List Char} {glyphs : List (Glyph ι)} (isQuote : Text.isQuote q = true)
    (closes : ∀ rest, Text.closingLength? true q (body ++ rest) = some body.length) (rest : Apart glyphs) :
    Apart (.char q :: (body.map .char ++ glyphs))
  | unclosed {q : Char} {body : List Char} (isQuote : Text.isQuote q = true)
    (runs : Text.closingLength? true q body = none) : Apart (.char q :: body.map .char)

/-! ## The scan for calls -/

variable (marker : List Char)

/-- One step of the scan for calls, as it is for the text with a character in place of each slot. What it takes with
slots in it is copied, unless there is a call in it. -/
def glyphStep (s : WrapState) (glyph : Glyph ι) (glyphs : List (Glyph ι)) :
    Text.Step WrapState (Option (Glyph ι)) :=
  let step := wrapStep marker s glyph.flat (glyphs.map Glyph.flat)
  match step.next with
  | none => .stop []
  | some (n, s) =>
    let taken := glyph :: glyphs.take n
    let output :=
      if taken.any Glyph.isSlot then if hasCall 0 (taken.map Glyph.flat) then [none] else taken.map some
      else step.output.map fun c => some (.char c)
    .swallow output n s

/-- What the scan for calls makes of a text with slots. A value that it would wrap with a slot in it is left open. -/
def wrapGlyphs (glyphs : List (Glyph ι)) : List (Option (Glyph ι)) :=
  Text.scan (glyphStep marker) (fun _ => []) ⟨[], false, false⟩ glyphs

/-! ## Spelling -/

variable {marker} {fill} {glyphs : List (Glyph ι)}

theorem spell_append (glyphs more : List (Glyph ι)) :
    spell fill (glyphs ++ more) = spell fill glyphs ++ spell fill more :=
  List.flatMap_append

theorem spell_chars (text : List Char) : spell fill (text.map .char) = text := by
  induction text with
  | nil => rfl
  | cons c text ih => exact congrArg (c :: ·) ih

theorem flat_chars (text : List Char) : (text.map (.char : Char → Glyph ι)).map Glyph.flat = text := by
  induction text with
  | nil => rfl
  | cons c text ih => exact congrArg (c :: ·) ih

theorem spell_char (c : Char) (glyphs : List (Glyph ι)) : spell fill (.char c :: glyphs) = c :: spell fill glyphs := rfl

theorem spell_slot (i : ι) (glyphs : List (Glyph ι)) :
    spell fill (.slot i :: glyphs) = (fill i).quote :: ((fill i).raw ++ [(fill i).quote] ++ spell fill glyphs) := rfl

theorem spell_quotation (q : Char) (body : List Char) (glyphs : List (Glyph ι)) :
    spell fill (.char q :: (body.map .char ++ glyphs)) = q :: (body ++ spell fill glyphs) := by
  rw [spell_char, spell_append, spell_chars]

theorem flat_quotation (q : Char) (body : List Char) (glyphs : List (Glyph ι)) :
    (Glyph.char q :: (body.map .char ++ glyphs)).map Glyph.flat = q :: (body ++ glyphs.map Glyph.flat) := by
  rw [List.map_cons, List.map_append, flat_chars, Glyph.flat]

/-- Without slots, nothing stands for anything else. -/
theorem spell_of_slotless (slotless : glyphs.any Glyph.isSlot = false) : spell fill glyphs = glyphs.map Glyph.flat := by
  induction glyphs with
  | nil => rfl
  | cons glyph glyphs ih =>
    rw [List.any_cons, Bool.or_eq_false_iff] at slotless
    cases glyph with
    | char c => exact congrArg (c :: ·) (ih slotless.2)
    | slot i => cases slotless.1

/-- What is written in place of a glyph starts a value where the character that stands for it does. -/
theorem Glyph.exists_first (fill : ι → Quotation) (glyph : Glyph ι) (space : isSpace glyph.flat = false)
    (structural : isStructural glyph.flat = false) :
    ∃ c cs, glyph.chars fill = c :: cs ∧ isSpace c = false ∧ isStructural c = false := by
  cases glyph with
  | char c => exact ⟨c, [], rfl, space, structural⟩
  | slot i =>
    obtain ⟨shown, structural, -⟩ := quote_facts (fill i).isQuote
    exact ⟨_, _, rfl, isSpace_of_shown shown, structural⟩

theorem apart_of_quoteless (quoteless : ∀ glyph ∈ glyphs, Text.isQuote glyph.flat = false) : Apart glyphs := by
  induction glyphs with
  | nil => exact .nil
  | cons glyph glyphs ih =>
    obtain ⟨first, later⟩ := List.forall_mem_cons.1 quoteless
    cases glyph with
    | char c => exact .char first (ih later)
    | slot i => exact .slot i (ih later)

/-! ## Calls -/

/-- Behind the rest of a name, spaces apart, an opening parenthesis stands. -/
def Opens (cs : List Char) : Prop := ((cs.dropWhile isNamePart).dropWhile isSpace).head? = some '('

theorem opens_iff {cs : List Char} : Opens cs ↔ ∃ name spaces more, cs = name ++ (spaces ++ '(' :: more) ∧
    (∀ x ∈ name, isNamePart x = true) ∧ ∀ x ∈ spaces, isSpace x = true := by
  constructor
  · intro opens
    obtain ⟨more, split⟩ := List.head?_eq_some_iff.1 opens
    refine ⟨cs.takeWhile isNamePart, (cs.dropWhile isNamePart).takeWhile isSpace, more, ?_,
      fun _ => List.mem_takeWhile_imp, fun _ => List.mem_takeWhile_imp⟩
    rw [← split, List.takeWhile_append_dropWhile, List.takeWhile_append_dropWhile]
  · rintro ⟨name, spaces, more, rfl, parts, between⟩
    obtain ⟨ends, opens⟩ := takeWhile_opening between more
    rw [Opens, List.dropWhile_append_of_pos parts]
    rwa [← List.takeWhile_append_dropWhile (p := isNamePart) (l := spaces ++ '(' :: more), ends, List.nil_append]
      at opens

theorem calls_cons {c : Char} {cs : List Char} (plain : Text.isQuote c = false) :
    Calls (c :: cs) ↔ Calls cs ∨ isNameStart c = true ∧ Opens cs := by
  constructor
  · intro calls
    rw [opens_iff]
    exact calls.cons_cases plain
  · rintro (calls | ⟨start, opens⟩)
    · exact calls.behind (.char plain .nil)
    · obtain ⟨name, spaces, more, rfl, parts, between⟩ := opens_iff.1 opens
      exact ⟨[], c, name, spaces, more, rfl, .nil, start, parts, between⟩

theorem dropWhile_spell {p : Char → Bool} (quoteless : ∀ q, Text.isQuote q = true → p q = false) (dot : p '.' = false)
    (glyphs : List (Glyph ι)) : (spell fill glyphs).dropWhile p = spell fill (glyphs.dropWhile (p ∘ Glyph.flat)) := by
  induction glyphs with
  | nil => rfl
  | cons glyph glyphs ih =>
    cases glyph with
    | char c =>
      rw [spell_char, List.dropWhile_cons, List.dropWhile_cons, ih, Function.comp, Glyph.flat]
      split <;> rfl
    | slot i =>
      rw [List.dropWhile_cons_of_neg (show ¬(p ∘ Glyph.flat) (.slot i) = true by simp [Glyph.flat, dot]), spell_slot,
        List.dropWhile_cons_of_neg (by simp [quoteless _ (fill i).isQuote])]

/-- Neither a slot nor what is written there goes on with a name, with spaces or with a parenthesis. -/
theorem opens_spell (glyphs : List (Glyph ι)) : Opens (spell fill glyphs) ↔ Opens (glyphs.map Glyph.flat) := by
  have part : ∀ q, Text.isQuote q = true → isNamePart q = false := fun q isQuote =>
    Bool.eq_false_iff.2 fun part => by rw [quote_of_isNamePart part] at isQuote; cases isQuote
  have space : ∀ q, Text.isQuote q = true → isSpace q = false :=
    fun q isQuote => isSpace_of_shown (quote_facts isQuote).1
  rw [Opens, Opens, dropWhile_spell part rfl, dropWhile_spell space rfl, List.dropWhile_map, List.dropWhile_map]
  cases (glyphs.dropWhile (isNamePart ∘ Glyph.flat)).dropWhile (isSpace ∘ Glyph.flat) with
  | nil => rfl
  | cons glyph glyphs =>
    cases glyph with
    | char c => rfl
    | slot i =>
      have other : (fill i).quote ≠ '(' := by
        intro same
        have isQuote := (fill i).isQuote
        rw [same] at isQuote
        cases isQuote
      simp [spell_slot, Glyph.flat, other]

theorem Apart.calls_iff (apart : Apart glyphs) : Calls (spell fill glyphs) ↔ Calls (glyphs.map Glyph.flat) := by
  induction apart with
  | nil => rfl
  | char plain _ ih => rw [spell_char, List.map_cons, calls_cons plain, Glyph.flat, calls_cons plain, ih, opens_spell]
  | @slot i glyphs _ ih =>
    have same : hasCall 0 (spell fill (.slot i :: glyphs)) = hasCall 0 (spell fill glyphs) := (fill i).hasCall_eq _
    rw [List.map_cons, Glyph.flat, calls_cons rfl, ← ih, ← hasCall_iff, same, hasCall_iff]
    simp [isNameStart]
  | quotation isQuote closes _ ih =>
    rw [spell_quotation, flat_quotation, ← hasCall_iff, ← hasCall_iff, hasCall_quotation isQuote closes,
      hasCall_quotation isQuote closes, hasCall_iff, hasCall_iff, ih]
  | unclosed => rw [spell_char, spell_chars, List.map_cons, flat_chars, Glyph.flat]

/-- Blanks around a text are in no call. -/
theorem calls_trim {text : List Char} : Calls (Text.trim text) ↔ Calls text := by
  refine ⟨Calls.of_trim, fun calls => ?_⟩
  obtain ⟨w, w', split, blank, blank'⟩ := Text.exists_trim text
  rw [split] at calls
  generalize Text.trim text = core at calls ⊢
  have front : Calls (core ++ w') := by
    clear split
    induction w with
    | nil => exact calls
    | cons c w ih =>
      obtain ⟨first, blank⟩ := List.forall_mem_cons.1 blank
      have start : isNameStart c = false := isNameStart_of_blank first
      rw [List.cons_append, calls_cons (plain_of_blank first).1, start] at calls
      exact ih blank (calls.resolve_right fun named => Bool.false_ne_true named.1)
  have shut : '(' ∉ w' := fun mem => (plain_of_blank (blank' _ mem)).2.1 (by decide)
  obtain ⟨before, c, name, spaces, rest, split', outside, found⟩ := front
  have split' : core ++ w' = (before ++ c :: (name ++ spaces)) ++ '(' :: rest := by rw [split']; simp
  rcases List.append_eq_append_iff.1 split' with ⟨more, -, behind⟩ | ⟨more, inside, behind⟩
  · exact absurd (behind ▸ List.mem_append_right more List.mem_cons_self) shut
  · cases more with
    | nil => exact absurd (behind ▸ List.mem_cons_self : '(' ∈ [] ++ w') shut
    | cons d more =>
      obtain ⟨rfl, -⟩ := List.cons.inj behind
      exact ⟨before, c, name, spaces, more, by rw [inside]; simp, outside, found⟩

/-! ## Values -/

/-- A character that opens no quotation ends a value, or the value goes on behind it, whatever follows. -/
theorem valueLength_cons_cases {c : Char} (plain : Text.isQuote c = false) (p b k : Nat) :
    (∀ cs, valueLength 0 p b k (c :: cs) = 0) ∨
      ∃ p' b' k', ∀ cs, valueLength 0 p b k (c :: cs) = valueLength 0 p' b' k' cs + 1 := by
  simp only [valueLength, plain, Bool.false_eq_true, if_false]
  generalize (if (c == '(') = true then p + 1 else if (c == ')') = true then p - 1 else p) = p'
  generalize (if (c == '{') = true then b + 1 else if (c == '}') = true then b - 1 else b) = b'
  generalize (if (c == '[') = true then k + 1 else if (c == ']') = true then k - 1 else k) = k'
  split
  · exact .inl fun _ => rfl
  · exact .inr ⟨p', b', k', fun _ => rfl⟩

/-- A value ends at the same glyph, whatever the slots hold. -/
theorem Apart.cut (fill : ι → Quotation) (apart : Apart glyphs) (p b k : Nat) :
    ∃ value rest, glyphs = value ++ rest ∧ Apart value ∧ Apart rest ∧
      valueLength 0 p b k (glyphs.map Glyph.flat) = value.length ∧
      valueLength 0 p b k (spell fill glyphs) = (spell fill value).length := by
  induction apart generalizing p b k with
  | nil => exact ⟨[], [], rfl, .nil, .nil, rfl, rfl⟩
  | @char c glyphs plain apart ih =>
    rcases valueLength_cons_cases plain p b k with ends | ⟨p', b', k', step⟩
    · exact ⟨[], _, rfl, .nil, .char plain apart, ends _, ends _⟩
    · obtain ⟨value, rest, rfl, inside, behind, flat, spelled⟩ := ih p' b' k'
      refine ⟨.char c :: value, rest, rfl, .char plain inside, behind, ?_, ?_⟩
      · rw [List.map_cons, Glyph.flat, step, flat, List.length_cons]
      · rw [spell_char, step, spelled, spell_char, List.length_cons]
  | @slot i glyphs _ ih =>
    obtain ⟨value, rest, rfl, inside, behind, flat, spelled⟩ := ih p b k
    refine ⟨.slot i :: value, rest, rfl, .slot i inside, behind, ?_, ?_⟩
    · have dot (cs : List Char) : valueLength 0 p b k ('.' :: cs) = valueLength 0 p b k cs + 1 :=
        valueLength_steady ⟨rfl, rfl, rfl⟩ (.inr (by decide)) cs
      rw [List.map_cons, Glyph.flat, dot, flat, List.length_cons]
    · rw [spell_slot, valueLength_quotation (fill i).isQuote (fill i).closes, spelled, spell_slot]
      simp
      omega
  | @quotation q body glyphs isQuote closes _ ih =>
    obtain ⟨value, rest, rfl, inside, behind, flat, spelled⟩ := ih p b k
    refine ⟨.char q :: (body.map .char ++ value), rest, by simp, .quotation isQuote closes inside, behind, ?_, ?_⟩
    · rw [flat_quotation, valueLength_quotation isQuote closes, flat]
      simp
      omega
    · rw [spell_quotation, valueLength_quotation isQuote closes, spelled, spell_quotation]
      simp
      omega
  | @unclosed q body isQuote runs =>
    have whole : valueLength 0 p b k (q :: body) = body.length + 1 := by
      have skipped := valueLength_skip body [] p b k
      rw [List.append_nil] at skipped
      rw [valueLength, isQuote, if_pos rfl, Text.quotationLength, runs, Option.getD_none, skipped, valueLength]
    refine ⟨.char q :: body.map .char, [], (List.append_nil _).symm, .unclosed isQuote runs, .nil, ?_, ?_⟩
    · rw [List.map_cons, flat_chars, Glyph.flat, whole, List.length_cons, List.length_map]
    · rw [spell_char, spell_chars, whole, List.length_cons]

/-! ## Steps -/

theorem glyphStep_eq {s t : WrapState} {glyph : Glyph ι} {output : List Char} {n : Nat}
    (step : wrapStep marker s glyph.flat (glyphs.map Glyph.flat) = .swallow output n t) :
    glyphStep marker s glyph glyphs = .swallow
      (if (glyph :: glyphs.take n).any Glyph.isSlot then
        if hasCall 0 ((glyph :: glyphs.take n).map Glyph.flat) then [none] else (glyph :: glyphs.take n).map some
      else output.map fun c => some (.char c)) n t := by
  rw [glyphStep, step]
  rfl

theorem spell_of_chars {left : List (Glyph ι)} {text : List Char}
    (same : (text.map fun c => some (Glyph.char c)) = left.map some) : spell fill left = text := by
  have same : (text.map Glyph.char).map some = left.map some := by rw [List.map_map]; exact same
  rw [← (List.map_inj_right fun _ _ => Option.some.inj).1 same, spell_chars]

/-- Where no value starts, a character that opens no quotation is copied. -/
theorem exists_wrapStep_emit {s : WrapState} {c : Char} (plain : Text.isQuote c = false)
    (idle : isSpace c = true ∨ isStructural c = true ∨ (s.atKey || !s.atValue) = true) :
    ∃ t, ∀ cs, wrapStep marker s c cs = .emit [c] t := by
  simp only [wrapStep, plain, Bool.false_and, Bool.false_eq_true, if_false]
  split_ifs with brace bracket closer colon comma copied
  any_goals exact ⟨_, fun _ => rfl⟩
  simp only [isStructural] at idle
  grind

/-- Where no value starts, a quotation is copied. -/
theorem wrapStep_quote {s : WrapState} {q : Char} (isQuote : Text.isQuote q = true)
    (copied : (s.atKey || !s.atValue) = true) (cs : List Char) : wrapStep marker s q cs =
      .swallow (q :: cs.take (Text.quotationLength q cs)) (Text.quotationLength q cs) s := by
  rw [wrapStep, isQuote, copied]
  rfl

/-- What a step makes of a text with slots, it makes of the text with its slots filled, and the rest is as the text
was. -/
structure Spelled (marker : List Char) (fill : ι → Quotation) (s : WrapState) (glyph : Glyph ι)
    (glyphs : List (Glyph ι)) (output : List (Option (Glyph ι))) (t : WrapState) (rest : List (Glyph ι)) : Prop where
  step : ∃ n, glyphStep marker s glyph glyphs = .swallow output n t ∧ glyphs.drop n = rest
  apart : Apart rest
  spelled : ∀ left, output = left.map some →
    wrapFrom marker s (spell fill (glyph :: glyphs)) = spell fill left ++ wrapFrom marker t (spell fill rest)

/-- Where a value is due, it is taken as a whole. -/
theorem Apart.step_value {s : WrapState} {glyph : Glyph ι} (apart : Apart (glyph :: glyphs)) (key : s.atKey = false)
    (due : s.atValue = true) (space : isSpace glyph.flat = false) (structural : isStructural glyph.flat = false) :
    ∃ output t rest, Spelled marker fill s glyph glyphs output t rest := by
  obtain ⟨value, rest, split, inside, behind, flat, spelled⟩ := apart.cut fill 0 0 0
  obtain ⟨value, rfl⟩ : ∃ value', value = glyph :: value' := by
    cases value with
    | nil =>
      have more := valueLength_pos structural (glyphs.map Glyph.flat)
      rw [← List.map_cons, flat] at more
      cases more
    | cons _ value => exact ⟨value, congrArg (· :: value) (List.cons.inj split).1.symm⟩
  rw [List.cons_append] at split
  obtain rfl := (List.cons.inj split).2
  obtain ⟨c, cs, first, space', structural'⟩ := glyph.exists_first fill space structural
  have written (more : List (Glyph ι)) : spell fill (glyph :: more) = c :: (cs ++ spell fill more) := by
    change glyph.chars fill ++ spell fill more = _
    rw [first]
    rfl
  have step := @wrapStep_value marker glyph.flat (value.map Glyph.flat) (rest.map Glyph.flat) s key due space structural
    (by rw [← List.map_append, ← List.map_cons, List.length_map]; exact flat)
  rw [← List.map_append, List.length_map] at step
  have scanned := @wrapFrom_value marker c (cs ++ spell fill value) (spell fill rest) s key due space' structural' (by
    rw [List.append_assoc, ← spell_append, ← written]
    refine spelled.trans ?_
    rw [written, List.length_cons])
  rw [List.append_assoc, ← spell_append, ← written, ← written] at scanned
  have calls : hasCall 0 (Text.trim (spell fill (glyph :: value))) = true ↔
      hasCall 0 ((glyph :: value).map Glyph.flat) = true := by
    rw [hasCall_iff, hasCall_iff, calls_trim, inside.calls_iff]
  refine ⟨_, _, rest, ⟨_, glyphStep_eq step, List.drop_left⟩, behind, fun left same => ?_⟩
  rw [List.take_left] at same
  rw [scanned]
  congr 1
  cases slots : (glyph :: value).any Glyph.isSlot with
  | true =>
    rw [slots, if_pos rfl] at same
    split at same
    case isTrue => cases left <;> cases same
    case isFalse callless =>
      rw [← (List.map_inj_right fun _ _ => Option.some.inj).1 same, if_neg (calls.not.2 callless)]
  | false =>
    rw [slots, if_neg Bool.false_ne_true] at same
    rw [spell_of_chars same, spell_of_slotless slots, List.map_cons]

theorem Apart.step (s : WrapState) {glyph : Glyph ι} (apart : Apart (glyph :: glyphs)) :
    ∃ output t rest, Spelled marker fill s glyph glyphs output t rest := by
  by_cases due : s.atKey = false ∧ s.atValue = true ∧ isSpace glyph.flat = false ∧ isStructural glyph.flat = false
  · exact apart.step_value due.1 due.2.1 due.2.2.1 due.2.2.2
  have idle : isSpace glyph.flat = true ∨ isStructural glyph.flat = true ∨ (s.atKey || !s.atValue) = true := by
    simp only [Bool.or_eq_true, Bool.not_eq_true']
    grind
  generalize whole : glyph :: glyphs = text at apart
  cases apart with
  | nil => cases whole
  | @char c _ plain apart =>
    obtain ⟨rfl, rfl⟩ := List.cons.inj whole
    obtain ⟨t, emits⟩ := @exists_wrapStep_emit marker s c plain idle
    refine ⟨_, t, glyphs, ⟨0, glyphStep_eq (emits _), rfl⟩, apart, fun left same => ?_⟩
    have copied : spell fill left = [c] := spell_of_chars same
    rw [copied, spell_char]
    exact Text.scan_emit (emits _)
  | @slot i _ apart =>
    obtain ⟨rfl, rfl⟩ := List.cons.inj whole
    have copied : (s.atKey || !s.atValue) = true := by simpa [Glyph.flat, isSpace, isStructural] using idle
    have emits : wrapStep marker s '.' (glyphs.map Glyph.flat) = .emit ['.'] s := by
      rw [wrapStep, Bool.or_assoc, copied]
      simp [Text.isQuote]
    refine ⟨_, s, glyphs, ⟨0, glyphStep_eq emits, rfl⟩, apart, fun left same => ?_⟩
    have same : [some (.slot i)] = left.map some := same
    rw [← (List.map_inj_right fun _ _ => Option.some.inj).1 (show [Glyph.slot i].map some = left.map some from same)]
    have whole : spell fill [.slot i] = (fill i).chars := List.append_nil _
    rw [whole]
    exact wrapFrom_quotation (fill i) copied (spell fill glyphs)
  | @quotation q body rest isQuote closes apart =>
    obtain ⟨rfl, rfl⟩ := List.cons.inj whole
    obtain ⟨shown, structural, -⟩ := quote_facts isQuote
    have copied : (s.atKey || !s.atValue) = true := by
      simpa [Glyph.flat, isSpace_of_shown shown, structural] using idle
    have step : wrapStep marker s q ((body.map Glyph.char ++ rest).map Glyph.flat) =
        .swallow (q :: body) body.length s := by
      rw [List.map_append, flat_chars, wrapStep_quote isQuote copied, quotationLength_of_closes closes, List.take_left]
    refine ⟨_, s, rest, ⟨_, glyphStep_eq step, List.drop_left' (List.length_map _)⟩, apart, fun left same => ?_⟩
    rw [List.take_left' (List.length_map _), if_neg (by simp [Glyph.isSlot])] at same
    rw [spell_of_chars same, spell_quotation]
    exact wrapFrom_closed isQuote closes copied (spell fill rest)
  | @unclosed q body isQuote runs =>
    obtain ⟨rfl, rfl⟩ := List.cons.inj whole
    obtain ⟨shown, structural, -⟩ := quote_facts isQuote
    have copied : (s.atKey || !s.atValue) = true := by
      simpa [Glyph.flat, isSpace_of_shown shown, structural] using idle
    have step : wrapStep marker s q body = .swallow (q :: body) body.length s := by
      rw [wrapStep_quote isQuote copied, Text.quotationLength, runs, Option.getD_none, List.take_length]
    have flat : wrapStep marker s q ((body.map (Glyph.char : Char → Glyph ι)).map Glyph.flat) =
        .swallow (q :: body) body.length s := by rw [flat_chars, step]
    refine ⟨_, s, [], ⟨_, glyphStep_eq flat, by simp⟩, .nil, fun left same => ?_⟩
    rw [List.take_of_length_le (by simp), if_neg (by simp [Glyph.isSlot])] at same
    rw [spell_of_chars same, spell_char, spell_chars]
    have scanned := @Text.scan_swallow _ _ _ (wrapStep marker) (fun _ => []) s s q body [] (q :: body)
      (by rw [List.append_nil]; exact step)
    rwa [List.append_nil] at scanned

/-! ## The whole text -/

/-- Where the scan for calls leaves no slot open, it makes the same of the text with its slots filled. -/
theorem Apart.wrapFrom_spell (s : WrapState) : (glyphs : List (Glyph ι)) → Apart glyphs → (left : List (Glyph ι)) →
    Text.scan (glyphStep marker) (fun _ => []) s glyphs = left.map some →
    wrapFrom marker s (spell fill glyphs) = spell fill left
  | [], _, left, scanned => by
    rw [Text.scan_nil] at scanned
    cases left with
    | nil => rfl
    | cons => cases scanned
  | glyph :: glyphs, apart, left, scanned => by
    obtain ⟨output, t, rest, ⟨n, step, rfl⟩, behind, spelled⟩ := @Apart.step _ fill marker _ s _ apart
    have whole : Text.scan (glyphStep marker) (fun _ => []) s (glyph :: glyphs) =
        output ++ Text.scan (glyphStep marker) (fun _ => []) t (glyphs.drop n) := by
      rw [Text.scan_cons, step]
      rfl
    rw [whole] at scanned
    obtain ⟨first, later, rfl, same, same'⟩ := List.map_eq_append_iff.1 scanned.symm
    rw [spelled first same.symm, spell_append, Apart.wrapFrom_spell t (glyphs.drop n) behind later same'.symm]
termination_by glyphs => glyphs.length

theorem Apart.wrapCalls_spell {left : List (Glyph ι)} (apart : Apart glyphs)
    (scanned : wrapGlyphs marker glyphs = left.map some) : wrapCalls marker (spell fill glyphs) = spell fill left :=
  apart.wrapFrom_spell _ glyphs left scanned

end ExactFormula.Relaxed
