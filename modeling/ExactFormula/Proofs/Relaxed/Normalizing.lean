import ExactFormula.Proofs.Relaxed.Bare

/-!
Normalizing a relaxed document gives its strict text. The scan is followed token by token, from the state
that a token finds to the one that it leaves behind.
-/

namespace ExactFormula.Relaxed

variable {marker : List Char}

/-- The scan over the whole document, from a place inside. -/
abbrev normalFrom (marker : List Char) (s : NormalState) (cs : List Char) : List Char :=
  Text.scan (normalStep marker) (fun _ => []) s cs

/-! ## Gaps -/

theorem normalFrom_space {c : Char} (h : isSpace c = true) (s : NormalState) (cs : List Char) :
    normalFrom marker s (c :: cs) = c :: normalFrom marker s cs := by
  have step : normalStep marker s c cs = .emit [c] s := if_pos h
  exact Text.scan_emit step

theorem normalFrom_spaces {w : List Char} (h : ∀ c ∈ w, isSpace c = true) (s : NormalState) (cs : List Char) :
    normalFrom marker s (w ++ cs) = w ++ normalFrom marker s cs := by
  induction w with
  | nil => rfl
  | cons c w ih =>
    obtain ⟨space, h⟩ := List.forall_mem_cons.1 h
    rw [List.cons_append, normalFrom_space space, ih h, List.cons_append]

theorem normalFrom_comment {text rest : List Char} (opens : opensComment (text ++ rest) = true)
    (length : commentLength (text ++ rest) = text.length) (s : NormalState) :
    normalFrom marker s ('/' :: (text ++ rest)) = normalFrom marker s rest := by
  have step : normalStep marker s '/' (text ++ rest) = .swallow [] text.length s := by
    simp [normalStep, isSpace, opens, length]
  exact Text.scan_swallow step

theorem takeWhile_line {text : List Char} (h : '\n' ∉ text) (cs : List Char) :
    ('/' :: (text ++ cs)).takeWhile (· != '\n') = '/' :: (text ++ cs.takeWhile (· != '\n')) := by
  have other : ∀ c ∈ text, (c != '\n') = true := fun c mem => by
    rw [bne_iff_ne]
    rintro rfl
    exact h mem
  rw [List.takeWhile_cons_of_pos rfl, List.takeWhile_append_of_pos other]

theorem commentLength_line {text : List Char} (h : '\n' ∉ text) (cs : List Char) :
    commentLength ('/' :: (text ++ '\n' :: cs)) = text.length + 1 := by
  refine (congrArg List.length (takeWhile_line h _)).trans ?_
  simp

theorem commentLength_ending {text : List Char} (h : '\n' ∉ text) :
    commentLength ('/' :: (text ++ [])) = text.length + 1 := by
  refine (congrArg List.length (takeWhile_line h _)).trans ?_
  simp

theorem blockLength_eq {text : List Char} (h : ¬['*', '/'] <:+: text) (cs : List Char) :
    blockLength (text ++ '*' :: '/' :: cs) = text.length + 2 := by
  induction text with
  | nil => rfl
  | cons c text ih =>
    have ih := ih fun infix_ => h (infix_.trans (List.suffix_cons c text).isInfix)
    have inside : ¬(c = '*' ∧ (text ++ '*' :: '/' :: cs).head? = some '/') := by
      rintro ⟨rfl, next⟩
      cases text with
      | nil => cases next
      | cons d text =>
        cases next
        exact h (List.prefix_append ['*', '/'] text).isInfix
    rw [List.cons_append, blockLength, if_neg (by simpa using inside), ih, List.length_cons]

theorem Filler.isSpace_of_spaces (filler : Filler) : ∀ c ∈ filler.spaces, isSpace c = true := by
  cases filler with
  | space c h => simpa [spaces] using h
  | line text h => simp [spaces, isSpace]
  | block text h => exact List.forall_mem_nil _

/-- Up to the space that it leaves, a filler is nothing or one comment. -/
theorem Filler.split (filler : Filler) : filler.chars = filler.spaces ∨
    ∃ body, filler.chars = '/' :: (body ++ filler.spaces) ∧
      ∀ rest, opensComment (body ++ (filler.spaces ++ rest)) = true ∧
        commentLength (body ++ (filler.spaces ++ rest)) = body.length := by
  cases filler with
  | space c h => exact .inl rfl
  | line text h => exact .inr ⟨'/' :: text, rfl, fun rest => ⟨rfl, commentLength_line h rest⟩⟩
  | block text h =>
    refine .inr ⟨'*' :: (text ++ ['*', '/']), by simp [chars, spaces], fun rest => ⟨rfl, ?_⟩⟩
    simp [commentLength, spaces, blockLength_eq h]

theorem normalFrom_filler (filler : Filler) (s : NormalState) (cs : List Char) :
    normalFrom marker s (filler.chars ++ cs) = filler.spaces ++ normalFrom marker s cs := by
  rw [← normalFrom_spaces filler.isSpace_of_spaces]
  rcases filler.split with same | ⟨body, split, comment⟩
  · rw [same]
  · rw [split, List.cons_append, List.append_assoc, normalFrom_comment (comment cs).1 (comment cs).2]

theorem normalFrom_gap (g : Gap) (s : NormalState) (cs : List Char) :
    normalFrom marker s (g.chars ++ cs) = g.spaces ++ normalFrom marker s cs := by
  induction g with
  | nil => rfl
  | cons filler g ih =>
    rw [Gap.chars, Gap.spaces, List.flatMap_cons, List.flatMap_cons, List.append_assoc, List.append_assoc,
      normalFrom_filler]
    exact congrArg _ ih

/-! ## Quotations -/

section

variable {q : Char}

theorem requote_plain {c : Char} (h : Json.Harmless q c) (inside : c ≠ '"') (cs : List Char) :
    requote q (c :: cs) = (c :: (requote q cs).1, (requote q cs).2 + 1) := by
  rw [requote.eq_def]
  simp [h.1, h.2, inside]

theorem requote_double (single : q ≠ '"') (cs : List Char) :
    requote q ('"' :: cs) = ('\\' :: '"' :: (requote q cs).1, (requote q cs).2 + 1) := by
  rw [requote.eq_def]
  simp [single.symm]

theorem requote_quote (cs : List Char) :
    requote q ('\\' :: q :: cs) = (q :: (requote q cs).1, (requote q cs).2 + 2) := by
  simp [requote]

theorem requote_escape {e : Char} (other : e ≠ q) (cs : List Char) :
    requote q ('\\' :: e :: cs) = ('\\' :: e :: (requote q cs).1, (requote q cs).2 + 2) := by
  simp [requote, other]

theorem requote_hex {a b c d : Char} {n : Nat} (hq : Text.isQuote q = true)
    (h : Json.hexNumber [a, b, c, d] = .ok n) (cs : List Char) :
    requote q ('\\' :: 'u' :: a :: b :: c :: d :: cs) =
      ('\\' :: 'u' :: a :: b :: c :: d :: (requote q cs).1, (requote q cs).2 + 6) := by
  have letter : 'u' ≠ q := by
    rintro rfl
    cases hq
  have kept (x : Char) (mem : x ∈ [a, b, c, d]) (cs : List Char) :
      requote q (x :: cs) = (x :: (requote q cs).1, (requote q cs).2 + 1) :=
    requote_plain (Json.harmless_of_hexNumber hq h x mem) (Json.harmless_of_hexNumber rfl h x mem).1 cs
  rw [requote_escape letter, kept a (by simp), kept b (by simp), kept c (by simp), kept d (by simp)]

/-- Requoting keeps what is denoted, and takes exactly what stands up to the closing quote. -/
theorem requote_eq {raw text : List Char} (h : Json.Written q raw text) (hq : Text.isQuote q = true)
    (single : q ≠ '"') : ∃ raw', Json.Written '"' raw' text ∧
      ∀ rest, requote q (raw ++ q :: rest) = (raw', raw.length + 1) := by
  have shown : 0x20 ≤ q.toNat ∧ q ≠ '\\' := by
    rcases Text.isQuote_cases hq with rfl | rfl | rfl <;> decide
  induction h with
  | nil => exact ⟨[], .nil, fun rest => by rw [List.nil_append, requote.eq_def]; simp [shown.2]⟩
  | @plain c raw text visible inside unescaped _ ih =>
    obtain ⟨raw', written, requoted⟩ := ih
    by_cases double : c = '"'
    · subst double
      refine ⟨'\\' :: '"' :: raw', .quote written, fun rest => ?_⟩
      rw [List.cons_append, requote_double single, requoted, List.length_cons]
    · refine ⟨c :: raw', .plain visible double unescaped written, fun rest => ?_⟩
      rw [List.cons_append, requote_plain ⟨inside, unescaped⟩ double, requoted, List.length_cons]
  | quote _ ih =>
    obtain ⟨raw', written, requoted⟩ := ih
    refine ⟨q :: raw', .plain shown.1 single shown.2 written, fun rest => ?_⟩
    simp [requote_quote, requoted]
  | @named e c raw text known _ ih =>
    obtain ⟨raw', written, requoted⟩ := ih
    have other : e ≠ q := by
      rintro rfl
      rcases Json.isQuote_of_named known hq with rfl
      exact single rfl
    refine ⟨'\\' :: e :: raw', .named known written, fun rest => ?_⟩
    simp [requote_escape other, requoted]
  | @unicode a b c d n raw text hex char _ ih =>
    obtain ⟨raw', written, requoted⟩ := ih
    refine ⟨_, .unicode hex char written, fun rest => ?_⟩
    simp [requote_hex hq hex, requoted]
  | pair hex hex' isHigh isLow _ ih =>
    obtain ⟨raw', written, requoted⟩ := ih
    refine ⟨_, .pair hex hex' isHigh isLow written, fun rest => ?_⟩
    simp [requote_hex hq hex, requote_hex hq hex', requoted]

end

theorem normalStep_double {raw text : List Char} (h : Json.Written '"' raw text) (s : NormalState) (rest : List Char) :
    normalStep marker s '"' (raw ++ '"' :: rest) = .swallow ('"' :: (raw ++ ['"'])) (raw.length + 1) s := by
  have length := h.quotationLength_eq rfl rest
  have taken : (raw ++ '"' :: rest).take (raw.length + 1) = raw ++ ['"'] := by
    rw [List.take_length_add_append, List.take_succ_cons, List.take_zero]
  simp [normalStep, isSpace, length, taken]

theorem normalStep_requote {q : Char} (hq : Text.isQuote q = true) (single : q ≠ '"') (s : NormalState)
    (cs : List Char) : normalStep marker s q cs =
      .swallow ('"' :: ((requote q cs).1 ++ ['"'])) (requote q cs).2 s := by
  rcases Text.isQuote_cases hq with rfl | rfl | rfl
  · exact absurd rfl single
  all_goals simp [normalStep, isSpace, Text.isQuote]

theorem normalFrom_quotation (q : Quotation) (s : NormalState) (rest : List Char) :
    normalFrom marker s (q.chars ++ rest) = q.strict ++ normalFrom marker s rest := by
  have split : q.chars ++ rest = q.quote :: (q.raw ++ [q.quote] ++ rest) := by
    simp [Quotation.chars]
  have step : normalStep marker s q.quote (q.raw ++ [q.quote] ++ rest) =
      .swallow q.strict (q.raw ++ [q.quote]).length s := by
    rw [Quotation.strict, List.append_assoc, List.singleton_append, List.length_append]
    by_cases double : q.quote = '"'
    · have written := q.written
      rw [double] at written
      rw [if_pos double, Quotation.chars, double, normalStep_double written]
      rfl
    · obtain ⟨raw', -, requoted⟩ := requote_eq q.written q.isQuote double
      rw [if_neg double, normalStep_requote q.isQuote double, requoted, requoted]
      rfl
  rw [split]
  exact Text.scan_swallow step

/-! ## Bare tokens -/

variable {structures : List Bool}

theorem normalStep_bare {c : Char} {cs : List Char} (space : isSpace c = false)
    (structural : isStructural c = false) (quote : Text.isQuote c = false)
    (commentless : (c == '/' && opensComment cs) = false) (s : NormalState) :
    normalStep marker s c cs = bareStep marker s c cs := by
  simp only [isStructural, Bool.or_eq_false_iff, beq_eq_false_iff_ne] at structural
  have double : c ≠ '"' := by
    rintro rfl
    cases quote
  simp [normalStep, space, structural, quote, commentless, double]

theorem normalFrom_takenKey {text rest : List Char} (nonempty : text ≠ []) (whole : bareKey (text ++ rest) = text) :
    normalFrom marker ⟨structures, true⟩ (text ++ rest) =
      Text.quote text ++ normalFrom marker ⟨structures, true⟩ rest := by
  obtain ⟨c, text, rfl⟩ := List.exists_cons_of_ne_nil nonempty
  rw [List.cons_append] at whole
  obtain ⟨space, structural, quote, commentless⟩ := bareKey_head (whole ▸ nonempty)
  have step : normalStep marker ⟨structures, true⟩ c (text ++ rest) =
      .swallow (Text.quote (c :: text)) text.length ⟨structures, true⟩ := by
    rw [normalStep_bare space structural quote commentless, bareStep, whole]
    simp
  exact Text.scan_swallow step

theorem normalFrom_bareKey (key : BareKey) {rest : List Char} (ends : EndsKey rest) :
    normalFrom marker ⟨structures, true⟩ (key.text ++ rest) =
      Text.quote key.text ++ normalFrom marker ⟨structures, true⟩ rest :=
  normalFrom_takenKey key.nonempty (bareKey_append key.plain key.uncommented ends)

/-- A date in front is read in one piece, with the same result as reading a bare value. -/
theorem strictValue_date {date : List Char} (h : isDate date = true) :
    strictValue marker date = '"' :: (date ++ ['"']) := by
  rw [strictValue, isNumeral_of_isDate h, h, Text.quote, (dateLike_of_isDate h).flatMap_escape]
  rfl

theorem BareValue.head (token : BareValue) : ∃ c text, token.text = c :: text ∧ isSpace c = false ∧
    isStructural c = false ∧ Text.isQuote c = false := by
  obtain ⟨c, text, split, shown⟩ := token.solid.head
  have mem : c ∈ token.text := split ▸ List.mem_cons_self
  obtain ⟨quote, other⟩ := token.plain c mem
  have colon : c ≠ ':' := by
    rintro rfl
    have digit := isDate_head (split ▸ token.colon mem)
    cases digit
  simp only [List.mem_cons, List.not_mem_nil, or_false, not_or] at other
  exact ⟨c, text, split, isSpace_of_shown shown, by simp [isStructural, other, colon], quote⟩

/-- Where a value may stand, blanks are copied. -/
theorem normalFrom_blanks {w rest : List Char} (blank : ∀ c ∈ w, Text.isBlank c = true)
    (ends : bareValue (!structures.isEmpty) 0 0 0 rest = []) :
    normalFrom marker ⟨structures, false⟩ (w ++ rest) = w ++ normalFrom marker ⟨structures, false⟩ rest := by
  induction w with
  | nil => rfl
  | cons c w ih =>
    obtain ⟨first, later⟩ := List.forall_mem_cons.1 blank
    cases space : isSpace c with
    | true => rw [List.cons_append, normalFrom_space space, ih later, List.cons_append]
    | false =>
      -- The first blank that is no space starts a bare value, which takes all blanks and has nothing else in it.
      obtain ⟨quote, -, slash⟩ := plain_of_blank first
      have raw : bareValue (!structures.isEmpty) 0 0 0 (c :: (w ++ rest)) = c :: w := bareValue_blanks blank ends
      have kept : strictText marker (c :: w) = c :: w := by
        have none : Text.trimStart (c :: w) = [] := List.dropWhile_eq_nil_iff.2 blank
        simp [strictText, none]
      have step : normalStep marker ⟨structures, false⟩ c (w ++ rest) =
          .swallow (c :: w) w.length ⟨structures, false⟩ := by
        rw [normalStep_bare space (isStructural_of_blank first) quote (by simp [slash]), bareStep,
          isDigit_of_blank first]
        simp [raw, kept]
      exact Text.scan_swallow step

/-- Without a part that is read as a date, a bare value is read as a whole, and the blanks behind it are copied. -/
theorem normalFrom_taken {text w rest : List Char}
    (starts : ∃ c ∈ text.head?, isSpace c = false ∧ isStructural c = false)
    (whole : bareValue (!structures.isEmpty) 0 0 0 (text ++ (w ++ rest)) = text ++ w)
    (undivided : Undivided text (w ++ rest)) (blank : ∀ c ∈ w, Text.isBlank c = true)
    (ends : bareValue (!structures.isEmpty) 0 0 0 rest = []) :
    normalFrom marker ⟨structures, false⟩ (text ++ (w ++ rest)) =
      strictText marker text ++ (w ++ normalFrom marker ⟨structures, false⟩ rest) := by
  obtain ⟨c, first, space, structural⟩ := starts
  obtain ⟨cs, rfl⟩ := List.head?_eq_some_iff.1 first
  have taken : bareValue (!structures.isEmpty) 0 0 0 (c :: (cs ++ (w ++ rest))) = c :: (cs ++ w) := whole
  obtain ⟨quote, commentless⟩ := bareValue_head (taken ▸ List.cons_ne_nil c (cs ++ w))
  have start : normalStep marker ⟨structures, false⟩ c (cs ++ (w ++ rest)) =
      bareStep marker ⟨structures, false⟩ c (cs ++ (w ++ rest)) :=
    normalStep_bare space structural quote commentless _
  rw [bareStep] at start
  split at start
  case h_1 date found =>
    have found : bareDate? (c :: cs ++ (w ++ rest)) = some date := by
      split at found
      · exact found
      · cases found
    obtain ⟨isDate, nonempty, front⟩ := isDate_of_bareDate? found
    have chars : ∀ x ∈ date, isDateChar x = true := by
      rw [front]
      exact fun x => List.mem_takeWhile_imp
    obtain ⟨spaces, split, all⟩ := undivided date found
    obtain ⟨d, ds, rfl⟩ := List.exists_cons_of_ne_nil nonempty
    rw [List.cons_append] at split
    obtain ⟨rfl, rfl⟩ := List.cons.inj split
    have blanks : ∀ x ∈ spaces ++ w, Text.isBlank x = true :=
      List.forall_mem_append.2 ⟨fun x mem => by rw [all x mem]; rfl, blank⟩
    have solid : Text.Solid (c :: ds) := by
      refine Text.solid_of_shown (fun x mem => Bool.eq_false_iff.2 fun blank => ?_) nonempty
      exact absurd (chars x mem) (Bool.eq_false_iff.1 (isDateChar_of_blank blank))
    have strict : strictText marker (c :: (ds ++ spaces)) = '"' :: (c :: ds ++ ['"']) ++ spaces := by
      rw [← List.cons_append, strictText_append marker solid (List.forall_mem_append.1 blanks).1,
        strictValue_date isDate]
    have assoc : ds ++ spaces ++ (w ++ rest) = ds ++ (spaces ++ w ++ rest) := by simp
    rw [assoc] at start
    have scanned : normalFrom marker ⟨structures, false⟩ (c :: (ds ++ (spaces ++ w ++ rest))) =
        '"' :: (c :: ds ++ ['"']) ++ normalFrom marker ⟨structures, false⟩ (spaces ++ w ++ rest) :=
      Text.scan_swallow start
    rw [List.cons_append, assoc, scanned, normalFrom_blanks blanks ends, strict, List.append_assoc, List.append_assoc]
  case h_2 none =>
    have step : normalStep marker ⟨structures, false⟩ c ((cs ++ w) ++ rest) =
        .swallow (strictText marker (c :: cs ++ w)) (cs ++ w).length ⟨structures, false⟩ := by
      rw [List.append_assoc, start]
      simp [taken]
    have scanned : normalFrom marker ⟨structures, false⟩ (c :: (cs ++ w ++ rest)) =
        strictText marker (c :: cs ++ w) ++ normalFrom marker ⟨structures, false⟩ rest := Text.scan_swallow step
    rw [List.cons_append, ← List.append_assoc cs w rest, scanned, strictText_blanks marker _ blank, List.append_assoc]

/-- Where the scans for bare values and for dates end with a text, it is read as a whole, and the blanks behind it are
copied. -/
theorem normalFrom_blankText {text w stop : List Char} (solid : Text.Solid text)
    (starts : ∀ c ∈ text.head?, isStructural c = false)
    (dated : ∀ date, bareDate? (text ++ (w ++ stop)) = some date → date = text)
    (whole : bareValue (!structures.isEmpty) 0 0 0 (text ++ (w ++ stop)) = text ++ w)
    (blank : ∀ c ∈ w, Text.isBlank c = true) (stops : Stops (!structures.isEmpty) stop) :
    normalFrom marker ⟨structures, false⟩ (text ++ (w ++ stop)) =
      strictValue marker text ++ (w ++ normalFrom marker ⟨structures, false⟩ stop) := by
  have strict : strictText marker text = strictValue marker text := by
    have kept := strictText_append marker solid (List.forall_mem_nil _)
    rwa [List.append_nil, List.append_nil] at kept
  obtain ⟨c, cs, split, shown⟩ := solid.head
  have first : c ∈ text.head? := by rw [split]; rfl
  rw [← strict]
  refine normalFrom_taken ⟨c, first, isSpace_of_shown shown, starts c first⟩ whole (fun date found => ?_) blank
    stops.bareValue_eq
  exact ⟨[], by rw [dated date found, List.append_nil], List.forall_mem_nil _⟩

theorem normalFrom_bareText {text rest : List Char} (solid : Text.Solid text)
    (starts : ∀ c ∈ text.head?, isStructural c = false)
    (dated : ∀ date, bareDate? (text ++ rest) = some date → date = text)
    (whole : ∀ w stop, (∀ c ∈ w, isSpace c = true) → Stops (!structures.isEmpty) stop →
      bareValue (!structures.isEmpty) 0 0 0 (text ++ (w ++ stop)) = text ++ w)
    (follows : Follows (!structures.isEmpty) rest) :
    normalFrom marker ⟨structures, false⟩ (text ++ rest) =
      strictValue marker text ++ normalFrom marker ⟨structures, false⟩ rest := by
  obtain ⟨w, stop, rfl, spaces, stops⟩ := follows.split
  rw [normalFrom_spaces spaces]
  exact normalFrom_blankText solid starts dated (whole w stop spaces stops)
    (fun c mem => isBlank_of_isSpace (spaces c mem)) stops

theorem normalFrom_bareValue (token : BareValue) {rest : List Char} (follows : Follows (!structures.isEmpty) rest) :
    normalFrom marker ⟨structures, false⟩ (token.text ++ rest) =
      strictValue marker token.text ++ normalFrom marker ⟨structures, false⟩ rest := by
  refine normalFrom_bareText token.solid (fun c mem => ?_) (fun date found => token.bareDate?_eq follows found)
    (fun w stop spaces stops => bareValue_append token.plain token.uncommented
      (fun c mem => isBlank_of_isSpace (spaces c mem)) stops) follows
  obtain ⟨d, text, split, -, structural, -⟩ := token.head
  rw [split] at mem
  cases mem
  exact structural

/-! ## Names -/

theorem normalFrom_name (name : Name) {rest : List Char} (ends : EndsKey rest) :
    normalFrom marker ⟨structures, true⟩ (name.chars ++ rest) =
      name.strict ++ normalFrom marker ⟨structures, true⟩ rest := by
  cases name with
  | bare key => exact normalFrom_bareKey key ends
  | quoted string => exact normalFrom_quotation string _ rest

theorem normalFrom_colon (s : NormalState) (cs : List Char) :
    normalFrom marker s (':' :: cs) = ':' :: normalFrom marker { s with atKey := false } cs := by
  have step : normalStep marker s ':' cs = .emit [':'] { s with atKey := false } := rfl
  exact Text.scan_emit step

theorem normalFrom_key (key : Key) (rest : List Char) :
    normalFrom marker ⟨structures, true⟩ (key.chars ++ rest) =
      key.strict ++ normalFrom marker ⟨structures, false⟩ rest := by
  simp only [Key.chars, Key.strict, List.append_assoc, List.cons_append]
  rw [normalFrom_gap, normalFrom_name key.name (.gap key.colon _), normalFrom_gap, normalFrom_colon, normalFrom_gap]

/-! ## Structures -/

theorem normalFrom_openBracket (s : NormalState) (cs : List Char) :
    normalFrom marker s ('[' :: cs) = '[' :: normalFrom marker ⟨false :: s.structures, false⟩ cs := by
  have step : normalStep marker s '[' cs = .emit ['['] ⟨false :: s.structures, false⟩ := rfl
  exact Text.scan_emit step

theorem normalFrom_openBrace (s : NormalState) (cs : List Char) :
    normalFrom marker s ('{' :: cs) = '{' :: normalFrom marker ⟨true :: s.structures, true⟩ cs := by
  have step : normalStep marker s '{' cs = .emit ['{'] ⟨true :: s.structures, true⟩ := rfl
  exact Text.scan_emit step

theorem normalFrom_closer {c : Char} (h : c = '}' ∨ c = ']') (s : NormalState) (cs : List Char) :
    normalFrom marker s (c :: cs) =
      c :: normalFrom marker ⟨s.structures.tail, inObject s.structures.tail⟩ cs := by
  have step : normalStep marker s c cs = .emit [c] ⟨s.structures.tail, inObject s.structures.tail⟩ := by
    rcases h with rfl | rfl <;> rfl
  exact Text.scan_emit step

/-! ### Commas -/

/-- A key or a value starts here, whatever follows. -/
structure Starts (cs : List Char) : Prop where
  gapless : ∀ rest, gapLength 0 (cs ++ rest) = 0
  inside : ∃ c tail, cs = c :: tail ∧ c ≠ '}' ∧ c ≠ ']'

theorem Starts.append {cs : List Char} (h : Starts cs) (rest : List Char) : Starts (cs ++ rest) where
  gapless rest' := by rw [List.append_assoc, h.gapless]
  inside := by
    obtain ⟨c, tail, rfl, inside⟩ := h.inside
    exact ⟨c, tail ++ rest, rfl, inside⟩

theorem starts_cons {c : Char} {cs : List Char} (space : isSpace c = false) (inside : c ≠ '}' ∧ c ≠ ']')
    (commentless : ∀ rest, (c == '/' && opensComment (cs ++ rest)) = false) : Starts (c :: cs) where
  gapless rest := by simp only [List.cons_append, gapLength, space, commentless rest, Bool.false_eq_true, ↓reduceIte]
  inside := ⟨c, cs, rfl, inside⟩

theorem not_closer_of_structural {c : Char} (h : isStructural c = false) : c ≠ '}' ∧ c ≠ ']' := by
  constructor <;> rintro rfl <;> cases h

theorem Quotation.starts (q : Quotation) : Starts q.chars := by
  obtain ⟨shown, structural, slash⟩ := quote_facts q.isQuote
  exact starts_cons (isSpace_of_shown shown) (not_closer_of_structural structural) fun rest => by simp [slash]

theorem Name.starts (name : Name) : Starts name.chars := by
  cases name with
  | bare key =>
    obtain ⟨text, nonempty, plain, uncommented⟩ := key
    obtain ⟨c, text, rfl⟩ := List.exists_cons_of_ne_nil nonempty
    obtain ⟨space, structural, quote⟩ := plain c List.mem_cons_self
    exact starts_cons space (not_closer_of_structural structural) uncommented.not_opens
  | quoted string => exact string.starts

theorem Source.starts (v : Source) : Starts v.chars := by
  cases v with
  | bare token =>
    obtain ⟨c, text, split, space, structural, quote⟩ := token.head
    rw [Source.chars, split]
    exact starts_cons space (not_closer_of_structural structural) (split ▸ token.uncommented).not_opens
  | quoted string => rw [Source.chars]; exact string.starts
  | array items => rw [Source.chars]; exact starts_cons rfl (by decide) fun _ => rfl
  | object members => rw [Source.chars]; exact starts_cons rfl (by decide) fun _ => rfl

theorem gapLength_skip (skipped cs : List Char) :
    gapLength skipped.length (skipped ++ cs) = skipped.length + gapLength 0 cs := by
  induction skipped with
  | nil => simp
  | cons c skipped ih =>
    rw [List.cons_append, List.length_cons, gapLength, ih]
    omega

theorem gapLength_spaces {w : List Char} (h : ∀ c ∈ w, isSpace c = true) (cs : List Char) :
    gapLength 0 (w ++ cs) = w.length + gapLength 0 cs := by
  induction w with
  | nil => simp
  | cons c w ih =>
    obtain ⟨space, h⟩ := List.forall_mem_cons.1 h
    rw [List.cons_append, gapLength, if_pos space, ih h, List.length_cons]
    omega

theorem gapLength_comment {text rest : List Char} (opens : opensComment (text ++ rest) = true)
    (length : commentLength (text ++ rest) = text.length) :
    gapLength 0 ('/' :: (text ++ rest)) = text.length + gapLength 0 rest + 1 := by
  simp [gapLength, isSpace, opens, length, gapLength_skip]

theorem gapLength_filler (filler : Filler) (cs : List Char) :
    gapLength 0 (filler.chars ++ cs) = filler.chars.length + gapLength 0 cs := by
  rcases filler.split with same | ⟨body, split, comment⟩
  · rw [same, gapLength_spaces filler.isSpace_of_spaces]
  · obtain ⟨opens, length⟩ := comment cs
    rw [split, List.cons_append, List.append_assoc, gapLength_comment opens length,
      gapLength_spaces filler.isSpace_of_spaces, List.length_cons, List.length_append]
    omega

theorem gapLength_gap (g : Gap) (cs : List Char) :
    gapLength 0 (g.chars ++ cs) = g.chars.length + gapLength 0 cs := by
  induction g with
  | nil => exact (Nat.zero_add _).symm
  | cons filler g ih =>
    rw [Gap.chars, List.flatMap_cons, List.append_assoc, gapLength_filler, List.length_append, Nat.add_assoc]
    exact congrArg _ ih

theorem commaStep_more (g : Gap) {cs : List Char} (starts : Starts cs) (s : NormalState) :
    commaStep s (g.chars ++ cs) = .emit [','] { s with atKey := inObject s.structures } := by
  have behind : (g.chars ++ cs).drop (gapLength 0 (g.chars ++ cs)) = cs := by
    have gapless := starts.gapless []
    rw [List.append_nil] at gapless
    rw [gapLength_gap, gapless, Nat.add_zero, List.drop_left]
  obtain ⟨c, tail, rfl, brace, bracket⟩ := starts.inside
  unfold commaStep
  simp only [behind]
  split
  case h_1 same => exact absurd (List.cons.inj same).1 brace
  case h_2 same => exact absurd (List.cons.inj same).1 bracket
  case h_3 => rfl

theorem commaStep_trailing (g : Gap) {c : Char} (h : c = '}' ∨ c = ']') (s : NormalState) (cs : List Char) :
    commaStep s (g.chars ++ c :: cs) = .swallow [] g.chars.length s := by
  have gapless : gapLength 0 (c :: cs) = 0 := by
    rcases h with rfl | rfl <;> simp [gapLength, isSpace]
  have length : gapLength 0 (g.chars ++ c :: cs) = g.chars.length := by
    rw [gapLength_gap, gapless, Nat.add_zero]
  unfold commaStep
  simp only [length, List.drop_left]
  rcases h with rfl | rfl <;> rfl

/-- Behind a gap there is more. -/
def Continues (cs : List Char) : Prop := ∃ g more, cs = Gap.chars g ++ more ∧ Starts more

theorem normalFrom_comma {cs : List Char} (continues : Continues cs) (s : NormalState) (rest : List Char) :
    normalFrom marker s (',' :: (cs ++ rest)) =
      ',' :: normalFrom marker { s with atKey := inObject s.structures } (cs ++ rest) := by
  obtain ⟨g, more, rfl, starts⟩ := continues
  have step : normalStep marker s ',' (g.chars ++ more ++ rest) =
      .emit [','] { s with atKey := inObject s.structures } := by
    rw [List.append_assoc]
    exact commaStep_more g (starts.append rest) s
  exact Text.scan_emit step

/-- A comma goes when a bracket closes behind it. -/
theorem normalFrom_trailing (g : Gap) {c : Char} (h : c = '}' ∨ c = ']') (s : NormalState) (cs : List Char) :
    normalFrom marker s (',' :: (g.chars ++ c :: cs)) =
      c :: normalFrom marker ⟨s.structures.tail, inObject s.structures.tail⟩ cs := by
  have step : normalStep marker s ',' (g.chars ++ c :: cs) = .swallow [] g.chars.length s :=
    commaStep_trailing g h s cs
  rw [← normalFrom_closer h]
  exact Text.scan_swallow step

/-! ## Documents -/

theorem Items.continues (items : Items) (more : items.isClose = false) : Continues items.chars := by
  cases items with
  | close gap => cases more
  | last before value after => exact ⟨before, _, by rw [Items.chars], value.starts.append _⟩
  | more before value after rest => exact ⟨before, _, by rw [Items.chars], value.starts.append _⟩

theorem Key.continues (key : Key) (rest : List Char) : Continues (key.chars ++ rest) :=
  ⟨key.before, _, by rw [Key.chars, List.append_assoc], (key.name.starts.append _).append rest⟩

theorem Members.continues (members : Members) (more : members.isClose = false) : Continues members.chars := by
  cases members with
  | close gap => cases more
  | last key value after =>
    rw [Members.chars]
    exact key.continues _
  | more key value after rest =>
    rw [Members.chars]
    exact key.continues _

theorem Items.closes (items : Items) (close : items.isClose = true) : ∃ g, items.chars = Gap.chars g ++ [']'] := by
  cases items with
  | close gap => exact ⟨gap, by rw [Items.chars]⟩
  | last | more => cases close

theorem Members.closes (members : Members) (close : members.isClose = true) :
    ∃ g, members.chars = Gap.chars g ++ ['}'] := by
  cases members with
  | close gap => exact ⟨gap, by rw [Members.chars]⟩
  | last | more => cases close

/-- From a comma on, where what stands behind it either closes the structure or goes on, and is known. -/
theorem normalFrom_more {object close : Bool} {c : Char} {cs strict : List Char} {structures : List Bool}
    (closer : c = '}' ∨ c = ']') (closes : close = true → ∃ g, cs = Gap.chars g ++ [c])
    (continues : close = false → Continues cs)
    (h : ∀ rest, normalFrom marker ⟨object :: structures, object⟩ (cs ++ rest) =
      strict ++ normalFrom marker ⟨structures, inObject structures⟩ rest) (k : Bool) (rest : List Char) :
    normalFrom marker ⟨object :: structures, k⟩ (',' :: (cs ++ rest)) =
      (if close then [c] else ',' :: strict) ++ normalFrom marker ⟨structures, inObject structures⟩ rest := by
  cases close with
  | true =>
    obtain ⟨g, rfl⟩ := closes rfl
    rw [if_pos rfl, List.append_assoc, List.singleton_append, normalFrom_trailing g closer]
    rfl
  | false =>
    have same : inObject (object :: structures) = object := by cases object <;> rfl
    rw [if_neg Bool.false_ne_true, List.cons_append, ← h, normalFrom_comma (continues rfl), same]

variable (marker)

mutual
theorem normalFrom_source (structures : List Bool) : (v : Source) → ∃ k, ∀ rest,
    Follows (!structures.isEmpty) rest →
      normalFrom marker ⟨structures, false⟩ (v.chars ++ rest) =
        v.strict marker ++ normalFrom marker ⟨structures, k⟩ rest
  | .bare token => ⟨false, fun _ follows => normalFrom_bareValue token follows⟩
  | .quoted string => ⟨false, fun rest _ => normalFrom_quotation string _ rest⟩
  | .array items => ⟨inObject structures, fun rest _ => by
      rw [Source.chars, Source.strict, List.cons_append, normalFrom_openBracket, normalFrom_items structures items,
        List.cons_append]⟩
  | .object members => ⟨inObject structures, fun rest _ => by
      rw [Source.chars, Source.strict, List.cons_append, normalFrom_openBrace, normalFrom_members structures members,
        List.cons_append]⟩

theorem normalFrom_items (structures : List Bool) : (items : Items) → (rest : List Char) →
    normalFrom marker ⟨false :: structures, false⟩ (items.chars ++ rest) =
      items.strict marker ++ normalFrom marker ⟨structures, inObject structures⟩ rest
  | .close gap, rest => by
    simp only [Items.chars, Items.strict, List.append_assoc, List.singleton_append]
    rw [normalFrom_gap, normalFrom_closer (.inr rfl)]
    rfl
  | .last before value after, rest => by
    obtain ⟨k, scanned⟩ := normalFrom_source (false :: structures) value
    simp only [Items.chars, Items.strict, List.append_assoc, List.singleton_append]
    rw [normalFrom_gap, scanned _ (.gap after (Stops.closer (.inr rfl)).follows), normalFrom_gap,
      normalFrom_closer (.inr rfl)]
    rfl
  | .more before value after items, rest => by
    obtain ⟨k, scanned⟩ := normalFrom_source (false :: structures) value
    simp only [Items.chars, Items.strict, List.append_assoc, List.cons_append]
    rw [normalFrom_gap, scanned _ (.gap after (Stops.comma rfl).follows), normalFrom_gap,
      normalFrom_more (.inr rfl) items.closes items.continues (normalFrom_items structures items)]

theorem normalFrom_members (structures : List Bool) : (members : Members) → (rest : List Char) →
    normalFrom marker ⟨true :: structures, true⟩ (members.chars ++ rest) =
      members.strict marker ++ normalFrom marker ⟨structures, inObject structures⟩ rest
  | .close gap, rest => by
    simp only [Members.chars, Members.strict, List.append_assoc, List.singleton_append]
    rw [normalFrom_gap, normalFrom_closer (.inl rfl)]
    rfl
  | .last key value after, rest => by
    obtain ⟨k, scanned⟩ := normalFrom_source (true :: structures) value
    simp only [Members.chars, Members.strict, List.append_assoc, List.singleton_append]
    rw [normalFrom_key, scanned _ (.gap after (Stops.closer (.inl rfl)).follows), normalFrom_gap,
      normalFrom_closer (.inl rfl)]
    rfl
  | .more key value after members, rest => by
    obtain ⟨k, scanned⟩ := normalFrom_source (true :: structures) value
    simp only [Members.chars, Members.strict, List.append_assoc, List.cons_append]
    rw [normalFrom_key, scanned _ (.gap after (Stops.comma rfl).follows), normalFrom_gap,
      normalFrom_more (.inl rfl) members.closes members.continues (normalFrom_members structures members)]
end

end ExactFormula.Relaxed
