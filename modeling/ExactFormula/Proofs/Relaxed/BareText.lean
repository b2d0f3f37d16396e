import ExactFormula.Proofs.Relaxed.Normalizing
import ExactFormula.Proofs.Relaxed.WrappedValues

/-!
Bare values of any kind, groups with commas and colons included. Where the scan goes over all of a bare value, it is
read as one; without quotes and comments it does so over balanced text.
-/

namespace ExactFormula.Relaxed

variable {marker text rest : List Char} {c : Char} {nested : Bool}

/-! ## Comments -/

/-- No comment starts in the text when the rest follows. -/
def Commentless (text rest : List Char) : Prop :=
  ∀ before cs, text = before ++ '/' :: cs → opensComment (cs ++ rest) = false

theorem Uncommented.commentless (h : Uncommented text) (rest : List Char) : Commentless text rest := by
  rintro before cs rfl
  have behind : Uncommented ('/' :: cs) :=
    ⟨fun infix_ => h.line (infix_.trans (List.suffix_append _ _).isInfix),
      fun infix_ => h.block (infix_.trans (List.suffix_append _ _).isInfix),
      fun suffix => h.slash (suffix.trans (List.suffix_append _ _))⟩
  exact behind.opensComment_eq rest

namespace Commentless

variable {cs inner : List Char}

theorem not_opens (h : Commentless (c :: cs) rest) : (c == '/' && opensComment (cs ++ rest)) = false := by
  by_cases slash : c = '/'
  · rw [h [] cs (by rw [slash]; rfl), Bool.and_false]
  · simp [slash]

theorem tail (h : Commentless (c :: cs) rest) : Commentless cs rest :=
  fun before cs' split => h (c :: before) cs' (congrArg (c :: ·) split)

/-- What stands behind a part of the text counts as what follows that part. -/
theorem left (h : Commentless (inner ++ cs) rest) : Commentless inner (cs ++ rest) := by
  intro before cs' split
  have opens := h before (cs' ++ cs) (by rw [split, List.append_assoc, List.cons_append])
  rwa [List.append_assoc] at opens

theorem right (h : Commentless (inner ++ cs) rest) : Commentless cs rest := by
  intro before cs' split
  exact h (inner ++ before) cs' (by rw [split, List.append_assoc])

end Commentless

/-! ## Groups -/

theorem bareValue_steady (steady : Lexeme.Steady c) {b k p : Nat} (held : 0 < b + k + p ∨ c ≠ ',') {cs : List Char}
    (commentless : (c == '/' && opensComment cs) = false) :
    bareValue nested b k p (c :: cs) = c :: bareValue nested b k p cs := by
  obtain ⟨quote, opens, closes⟩ := steady
  simp only [Lexeme.isOpener, Lexeme.isCloser, Bool.or_eq_false_iff, beq_eq_false_iff_ne] at opens closes
  have held : ¬((((c = ',' ∧ nested = true) ∧ b = 0) ∧ k = 0) ∧ p = 0) := by
    rintro ⟨⟨⟨⟨rfl, -⟩, none⟩, none'⟩, none''⟩
    rcases held with some | other
    · omega
    · exact other rfl
  rw [bareValue]
  simp [quote, opens, closes, held, commentless]

/-- A group is counted while it is open. -/
theorem bareValue_group (opens : Lexeme.isOpener c = true) (b k p : Nat) : ∃ b' k' p', 0 < b' + k' + p' ∧
    (∀ cs, bareValue nested b k p (c :: cs) = c :: bareValue nested b' k' p' cs) ∧
    ∀ cs, bareValue nested b' k' p' (Lexeme.closer c :: cs) = Lexeme.closer c :: bareValue nested b k p cs := by
  rcases Lexeme.isOpener_cases opens with rfl | rfl | rfl
  · refine ⟨b, k, p + 1, by omega, fun cs => ?_, fun cs => ?_⟩ <;> simp [bareValue, Lexeme.closer]
  · refine ⟨b, k + 1, p, by omega, fun cs => ?_, fun cs => ?_⟩ <;> simp [bareValue, Lexeme.closer]
  · refine ⟨b + 1, k, p, by omega, fun cs => ?_, fun cs => ?_⟩ <;> simp [bareValue, Lexeme.closer]

theorem bareValue_matched {escapes : Bool} (h : Matched escapes text) (quoteless : ∀ c ∈ text, Text.isQuote c = false)
    (commentless : Commentless text rest) {b k p : Nat} (inside : 0 < b + k + p) :
    bareValue nested b k p (text ++ rest) = text ++ bareValue nested b k p rest := by
  induction h generalizing b k p rest with
  | nil => rfl
  | plain steady _ ih =>
    rw [List.cons_append, bareValue_steady steady (.inl inside) commentless.not_opens,
      ih (fun x mem => quoteless x (List.mem_cons_of_mem _ mem)) commentless.tail inside, List.cons_append]
  | quotation isQuote =>
    have quote := quoteless _ List.mem_cons_self
    rw [isQuote] at quote
    cases quote
  | @group _ c inner cs opens _ _ ih ih' =>
    obtain ⟨b', k', p', deeper, opened, closed⟩ := bareValue_group opens b k p
    have behind := commentless.tail
    rw [List.cons_append, List.append_assoc, opened, ih (fun x mem => quoteless x (by simp [mem])) behind.left deeper,
      List.cons_append, closed, ih' (fun x mem => quoteless x (by simp [mem])) behind.right.tail inside]
    simp

/-- A bare value goes on through text that is inline. -/
theorem Inline.bareValue_eq {all : Bool} (h : Inline all text) (quoteless : ∀ c ∈ text, Text.isQuote c = false)
    (commentless : Commentless text rest) :
    bareValue nested 0 0 0 (text ++ rest) = text ++ bareValue nested 0 0 0 rest := by
  induction h with
  | nil => rfl
  | plain steady comma _ ih =>
    rw [List.cons_append, bareValue_steady steady (.inr comma) commentless.not_opens,
      ih (fun x mem => quoteless x (List.mem_cons_of_mem _ mem)) commentless.tail, List.cons_append]
  | quotation isQuote =>
    have quote := quoteless _ List.mem_cons_self
    rw [isQuote] at quote
    cases quote
  | @group c inner cs opens _ inside _ ih =>
    obtain ⟨b, k, p, deeper, opened, closed⟩ := @bareValue_group _ nested opens 0 0 0
    have behind := commentless.tail
    rw [List.cons_append, List.append_assoc, opened,
      bareValue_matched inside (fun x mem => quoteless x (by simp [mem])) behind.left deeper, List.cons_append, closed,
      ih (fun x mem => quoteless x (by simp [mem])) behind.right.tail]
    simp

/-! ## The extent -/

/-- Whatever follows, but for a comment that opens, a bare value ends at a character or goes on behind it. -/
theorem bareValue_cons_cases (nested : Bool) (b k p : Nat) (c : Char) (opens : Bool) :
    (∀ cs, opensComment cs = opens → bareValue nested b k p (c :: cs) = []) ∨ ∃ b' k' p',
      (∀ cs, opensComment cs = opens → bareValue nested b k p (c :: cs) = c :: bareValue nested b' k' p' cs) ∧
        (Lexeme.isOpener c = false → b' ≤ b ∧ k' ≤ k ∧ p' ≤ p) := by
  by_cases opener : Lexeme.isOpener c = true
  · obtain ⟨b', k', p', -, opened, -⟩ := @bareValue_group c nested opener b k p
    exact .inr ⟨b', k', p', fun cs _ => opened cs, fun shut => by rw [opener] at shut; cases shut⟩
  by_cases closer : Lexeme.isCloser c = true
  · simp only [Lexeme.isCloser, Bool.or_eq_true, beq_iff_eq, or_assoc] at closer
    rcases closer with rfl | rfl | rfl
    · exact .inr ⟨b, k, p - 1, fun cs _ => by cases p <;> simp [bareValue, Text.isQuote], fun _ => by omega⟩
    · by_cases held : 0 < k ∨ 0 < b + p
      · refine .inr ⟨b, k - 1, p, fun cs _ => ?_, fun _ => by omega⟩
        rcases Nat.eq_zero_or_pos k with rfl | inside
        · have other : ¬(b = 0 ∧ p = 0) := by omega
          simp [bareValue, Text.isQuote, other]
        · simp [bareValue, inside]
      · obtain ⟨rfl, rfl, rfl⟩ : k = 0 ∧ b = 0 ∧ p = 0 := by omega
        exact .inl fun cs _ => by simp [bareValue]
    · by_cases held : 0 < b ∨ 0 < k + p
      · refine .inr ⟨b - 1, k, p, fun cs _ => ?_, fun _ => by omega⟩
        rcases Nat.eq_zero_or_pos b with rfl | inside
        · have other : ¬(k = 0 ∧ p = 0) := by omega
          simp [bareValue, Text.isQuote, other]
        · simp [bareValue, inside]
      · obtain ⟨rfl, rfl, rfl⟩ : b = 0 ∧ k = 0 ∧ p = 0 := by omega
        exact .inl fun cs _ => by simp [bareValue]
  simp only [Lexeme.isOpener, Lexeme.isCloser, Bool.or_eq_true, beq_iff_eq, not_or] at closer opener
  by_cases ends : c = ',' ∧ nested = true ∧ b = 0 ∧ k = 0 ∧ p = 0 ∨ Text.isQuote c = true ∨ c = '/' ∧ opens = true
  · refine .inl fun cs same => ?_
    rw [bareValue, same]
    simp only [closer, opener, beq_iff_eq, Bool.and_eq_true, decide_eq_true_eq, false_and, if_false]
    grind
  · refine .inr ⟨b, k, p, fun cs same => ?_, fun _ => ⟨Nat.le_refl _, Nat.le_refl _, Nat.le_refl _⟩⟩
    rw [bareValue, same]
    simp only [closer, opener, beq_iff_eq, Bool.and_eq_true, decide_eq_true_eq, false_and, if_false]
    grind

/-- What is taken of a text in front of a comma is taken of it in front of any mark. -/
theorem bareValue_mark {taken : List Char} {b k p : Nat} (h : bareValue true b k p (text ++ [',']) = taken)
    (short : taken.length ≤ text.length) (mark : c = ',' ∨ c = '}' ∨ c = ']') :
    bareValue true b k p (text ++ c :: rest) = taken := by
  induction text generalizing taken b k p with
  | nil =>
    obtain rfl := List.length_eq_zero_iff.1 (Nat.le_zero.1 short)
    have counted : b = 0 ∧ k = 0 ∧ p = 0 := by
      rw [List.nil_append, bareValue] at h
      simp [Text.isQuote] at h
      omega
    obtain ⟨rfl, rfl, rfl⟩ := counted
    rcases mark with rfl | rfl | rfl
    · exact (Stops.comma rfl).bareValue_eq
    · exact (Stops.closer (.inl rfl)).bareValue_eq
    · exact (Stops.closer (.inr rfl)).bareValue_eq
  | cons d text ih =>
    have same : opensComment (text ++ c :: rest) = opensComment (text ++ [',']) := by
      cases text with
      | nil => rcases mark with rfl | rfl | rfl <;> rfl
      | cons => rfl
    subst h
    rcases bareValue_cons_cases true b k p d (opensComment (text ++ [','])) with ends | ⟨b', k', p', step, -⟩
    · rw [List.cons_append, List.cons_append, ends _ rfl, ends _ same]
    · rw [List.cons_append, step _ rfl] at short
      rw [List.cons_append, List.cons_append, step _ rfl, step _ same, ih rfl (Nat.le_of_succ_le_succ short)]

/-- Without an opening bracket in front of it, a mark ends a bare value. -/
theorem length_bareValue_le {cs : List Char} (closed : ∀ x ∈ text, Lexeme.isOpener x = false)
    (mark : c = ',' ∨ c = '}' ∨ c = ']') : (bareValue true 0 0 0 (text ++ c :: cs)).length ≤ text.length := by
  induction text with
  | nil => rcases mark with rfl | rfl | rfl <;> simp [bareValue]
  | cons d text ih =>
    obtain ⟨first, closed⟩ := List.forall_mem_cons.1 closed
    rw [List.cons_append]
    rcases bareValue_cons_cases true 0 0 0 d (opensComment (text ++ c :: cs)) with ends | ⟨b, k, p, step, fewer⟩
    · rw [ends _ rfl]
      exact Nat.zero_le _
    · obtain ⟨hb, hk, hp⟩ := fewer first
      obtain rfl := Nat.le_zero.1 hb
      obtain rfl := Nat.le_zero.1 hk
      obtain rfl := Nat.le_zero.1 hp
      rw [step _ rfl]
      exact Nat.succ_le_succ (ih closed)

/-! ## Dates -/

/-- What is cut from a text as a date has spaces and a colon behind it. -/
theorem bareDate?_cut {date more : List Char} (solid : Text.Solid text)
    (whole : text.length ≤ (bareValue true 0 0 0 (text ++ more)).length) (breaks : BreaksDate rest)
    (found : bareDate? (text ++ rest) = some date) : date = text ∨ ∃ w behind,
      text = date ++ ' ' :: (w ++ ':' :: behind) ∧ (∀ x ∈ w, x = ' ') ∧ isDate date = true ∧
        ∀ x ∈ date, isDateChar x = true := by
  obtain ⟨dated, same | ⟨y, other, d, split, all, otherwise, next, cut⟩⟩ := bareDate?_cases solid found
  · exact .inl (breaks.eq same dated)
  obtain ⟨behind, left⟩ := List.head?_eq_some_iff.1 next
  have spaces : ∀ x ∈ (y :: other).takeWhile (· == ' '), x = ' ' := fun x mem => by
    simpa using List.mem_takeWhile_imp mem
  have parted : y :: other = (y :: other).takeWhile (· == ' ') ++ d :: behind := by
    rw [← left, List.takeWhile_append_dropWhile]
  generalize (y :: other).takeWhile (· == ' ') = w at spaces parted
  rw [parted] at split
  by_cases colon : d = ':'
  · cases w with
    | nil =>
      cases parted
      rw [colon] at otherwise
      cases otherwise
    | cons x w =>
      obtain ⟨blank, inner⟩ := List.forall_mem_cons.1 spaces
      rw [blank, colon] at split
      exact .inr ⟨w, behind, split, inner, dated, all⟩
  -- Up to another mark there are only characters of dates and spaces, so that it would end the value.
  exfalso
  have closed : ∀ x ∈ date ++ w, Lexeme.isOpener x = false := by
    intro x mem
    rcases List.mem_append.1 mem with mem | mem
    · exact (Lexeme.steady_of_apart rfl (all x mem)).opens
    · rw [spaces x mem]
      rfl
  have mark : d = ',' ∨ d = '}' ∨ d = ']' := by
    simp only [List.mem_cons, List.not_mem_nil, or_false] at cut
    tauto
  have short := @length_bareValue_le _ d (behind ++ more) closed mark
  have assoc : text ++ more = date ++ w ++ d :: (behind ++ more) := by
    rw [split]
    simp
  rw [← assoc] at short
  have longer := congrArg List.length split
  simp only [List.length_append, List.length_cons] at longer short
  omega

/-- Where a colon follows, spaces apart, it does not matter what comes behind that. -/
theorem bareDate?_colon {date w : List Char} (all : ∀ x ∈ date, isDateChar x = true) (spaces : ∀ x ∈ w, x = ' ')
    (behind behind' : List Char) :
    bareDate? (date ++ ' ' :: (w ++ ':' :: behind)) = bareDate? (date ++ ' ' :: (w ++ ':' :: behind')) := by
  have front (tail : List Char) : (date ++ ' ' :: tail).takeWhile isDateChar = date := by
    rw [List.takeWhile_append_of_pos all, List.takeWhile_cons_of_neg (by decide), List.append_nil]
  have ends (tail : List Char) : endsDate (' ' :: (w ++ ':' :: tail)) = true := by
    have skipped : (' ' :: (w ++ ':' :: tail)).dropWhile (· == ' ') = ':' :: tail := by
      rw [List.dropWhile_cons_of_pos rfl, List.dropWhile_append_of_pos (by simpa using spaces)]
      rfl
    simp [endsDate, skipped, isNameStart]
  simp only [bareDate?, front, List.drop_left, ends]
  by_cases long : 8 ≤ date.length
  · rw [List.take_append_of_le_length (by omega), List.take_append_of_le_length (by omega)]
  · simp [long]

/-! ## Whole values -/

/-- A bare value inside a structure that normalizing takes as one: the scan goes over all of it and the spaces behind
it, no blank is at its end, and no date is cut from it. -/
structure Taken (text : List Char) (after : Gap) : Prop where
  starts : ∃ c ∈ text.head?, isSpace c = false ∧ isStructural c = false
  ends : ∃ c ∈ text.getLast?, Text.isBlank c = false
  whole : bareValue true 0 0 0 (text ++ (after.chars ++ [','])) = text ++ after.chars.takeWhile isSpace
  undivided : ∀ date, bareDate? text = some date → date = text

theorem Gap.stops (g : Gap) (mark : c = ',' ∨ c = '}' ∨ c = ']') :
    Stops true (g.chars.dropWhile isSpace ++ c :: rest) := by
  induction g with
  | nil =>
    rcases mark with rfl | closer
    · exact .comma rfl
    · exact .closer closer
  | cons filler g ih =>
    cases filler with
    | space x space =>
      have skipped : (Gap.chars (.space x space :: g)).dropWhile isSpace = (Gap.chars g).dropWhile isSpace :=
        List.dropWhile_cons_of_pos space
      rwa [skipped]
    | line text h => exact .comment rfl
    | block text h => exact .comment rfl

theorem strictText_ends (marker : List Char) (ends : ∃ c ∈ text.getLast?, Text.isBlank c = false) :
    strictText marker text = strictValue marker (Text.trimStart text) := by
  obtain ⟨d, last, shown⟩ := ends
  obtain ⟨body, rfl⟩ := List.getLast?_eq_some_iff.1 last
  obtain ⟨core, start⟩ : ∃ core, Text.trimStart (body ++ [d]) = core ++ [d] := by
    rw [Text.trimStart, List.dropWhile_append]
    split
    · exact ⟨[], List.dropWhile_cons_of_neg (by simp [shown])⟩
    · exact ⟨_, rfl⟩
  have kept : Text.trimEnd (core ++ [d]) = core ++ [d] := by simp [Text.trimEnd, shown]
  simp [strictText, start, kept]

namespace Taken

variable {after : Gap}

theorem bareValue_eq (h : Taken text after) (mark : c = ',' ∨ c = '}' ∨ c = ']') :
    bareValue true 0 0 0 (text ++ (after.chars ++ c :: rest)) = text ++ after.chars.takeWhile isSpace := by
  have whole := h.whole
  rw [← List.append_assoc] at whole ⊢
  refine bareValue_mark whole ?_ mark
  rw [List.length_append, List.length_append]
  exact Nat.add_le_add_left (List.takeWhile_sublist _).length_le _

/-- Something starts with it. -/
theorem starts_mark (h : Taken text after) (mark : c = ',' ∨ c = '}' ∨ c = ']') :
    Starts (text ++ (after.chars ++ c :: rest)) := by
  obtain ⟨x, first, space, structural⟩ := h.starts
  obtain ⟨body, rfl⟩ := List.head?_eq_some_iff.1 first
  rw [List.cons_append]
  refine starts_cons space (not_closer_of_structural structural) fun rest' => ?_
  have taken := @bareValue_eq _ (rest ++ rest') c after h mark
  have assoc : body ++ (after.chars ++ c :: rest) ++ rest' = body ++ (after.chars ++ c :: (rest ++ rest')) := by simp
  rw [List.cons_append] at taken
  rw [assoc]
  exact (bareValue_head (by rw [taken]; exact List.cons_ne_nil x _)).2

theorem length_le (h : Taken text after) :
    text.length ≤ (bareValue true 0 0 0 (text ++ (after.chars ++ [',']))).length := by
  rw [h.whole, List.length_append]
  exact Nat.le_add_right _ _

/-- A date at the start of the text is all of it. -/
theorem bareDate?_eq (h : Taken text after) (mark : c = ',' ∨ c = '}' ∨ c = ']') {date : List Char}
    (found : bareDate? (text ++ (after.chars ++ c :: rest)) = some date) : date = text := by
  obtain ⟨x, first, -⟩ := h.starts
  obtain ⟨body, rfl⟩ := List.head?_eq_some_iff.1 first
  have shown : Text.isBlank x = false := by
    refine Bool.eq_false_iff.2 fun blank => ?_
    simp [bareDate?, isDigit_of_blank blank] at found
  have follows : Follows true (after.chars ++ c :: rest) := ⟨after.chars.takeWhile isSpace, _,
    by rw [← List.append_assoc, List.takeWhile_append_dropWhile], fun _ => List.mem_takeWhile_imp, after.stops mark⟩
  rcases bareDate?_cut (Text.solid_of_shown_ends ⟨x, rfl, shown⟩ h.ends) h.length_le follows.breaksDate found with
    same | ⟨w, behind, split, spaces, -, all⟩
  · exact same
  · refine h.undivided date ?_
    have assoc : date ++ ' ' :: (w ++ ':' :: behind) ++ (after.chars ++ c :: rest) =
        date ++ ' ' :: (w ++ ':' :: (behind ++ (after.chars ++ c :: rest))) := by simp
    rw [split, assoc] at found
    rw [split, ← found]
    exact bareDate?_colon all spaces _ _

/-- It is read as one value, without the blanks in front of it. -/
theorem normalFrom_eq (h : Taken text after) (mark : c = ',' ∨ c = '}' ∨ c = ']') (object : Bool)
    (structures : List Bool) : normalFrom marker ⟨object :: structures, false⟩ (text ++ (after.chars ++ c :: rest)) =
      strictValue marker (Text.trimStart text) ++
        (after.spaces ++ normalFrom marker ⟨object :: structures, false⟩ (c :: rest)) := by
  have spaces : ∀ x ∈ after.chars.takeWhile isSpace, isSpace x = true := fun _ => List.mem_takeWhile_imp
  have split : after.chars ++ c :: rest =
      after.chars.takeWhile isSpace ++ (after.chars.dropWhile isSpace ++ c :: rest) := by
    rw [← List.append_assoc, List.takeWhile_append_dropWhile]
  have stops := @Gap.stops rest c after mark
  have whole := @bareValue_eq _ rest c after h mark
  have undivided : Undivided text (after.chars ++ c :: rest) := fun date found =>
    ⟨[], by rw [h.bareDate?_eq mark found, List.append_nil], List.forall_mem_nil _⟩
  rw [← normalFrom_gap, ← strictText_ends marker h.ends, split, normalFrom_spaces spaces]
  rw [split] at whole undivided
  exact normalFrom_taken h.starts whole undivided (fun x mem => isBlank_of_isSpace (spaces x mem)) stops.bareValue_eq

end Taken

/-! ## Inline values -/

theorem Inline.behind {all : Bool} {w cs : List Char} (steady : ∀ x ∈ w, Lexeme.Steady x) (h : Inline all (w ++ cs)) :
    Inline all cs := by
  induction w with
  | nil => exact h
  | cons c w ih =>
    obtain ⟨first, steady⟩ := List.forall_mem_cons.1 steady
    refine ih steady ?_
    generalize split : c :: w ++ cs = text at h
    cases h with
    | nil => cases split
    | plain _ _ rest =>
      cases split
      exact rest
    | quotation isQuote =>
      rw [← (List.cons.inj split).1, first.quote] at isQuote
      cases isQuote
    | group opens =>
      rw [← (List.cons.inj split).1, first.opens] at opens
      cases opens

/-- No date in the text has spaces and a colon behind it. -/
def Dateless (text : List Char) : Prop :=
  ∀ date w more, text = date ++ ' ' :: (w ++ ':' :: more) → (∀ c ∈ w, c = ' ') → isDate date = false

/-- A bare value without quotations and comments. -/
structure Unadorned (text : List Char) : Prop where
  quoteless : ∀ c ∈ text, Text.isQuote c = false
  uncommented : Uncommented text
  dateless : Dateless text

theorem Inline.taken {all : Bool} (h : Inline all text) (solid : Text.Solid text)
    (starts : ∀ c ∈ text.head?, isStructural c = false) (unadorned : Unadorned text) (after : Gap) :
    Taken text after := by
  have split : after.chars ++ [','] = after.chars.takeWhile isSpace ++ (after.chars.dropWhile isSpace ++ [',']) := by
    rw [← List.append_assoc, List.takeWhile_append_dropWhile]
  have whole : bareValue true 0 0 0 (text ++ (after.chars ++ [','])) = text ++ after.chars.takeWhile isSpace := by
    rw [h.bareValue_eq unadorned.quoteless (unadorned.uncommented.commentless _), split,
      bareValue_spaces (fun _ => List.mem_takeWhile_imp) (after.stops (.inl rfl))]
  refine ⟨?_, ?_, whole, fun date found => ?_⟩
  · obtain ⟨c, cs, rfl, shown⟩ := solid.head
    exact ⟨c, rfl, isSpace_of_shown shown, starts c rfl⟩
  · obtain ⟨body, d, rfl⟩ := List.eq_nil_or_concat' text |>.resolve_left solid.shown
    obtain ⟨c, mem, shown⟩ := solid.exists_shown (List.cons_ne_nil d [])
    cases List.mem_singleton.1 mem
    exact ⟨d, List.getLast?_concat, shown⟩
  · have length : text.length ≤ (bareValue true 0 0 0 (text ++ (after.chars ++ [',']))).length := by
      rw [whole, List.length_append]
      exact Nat.le_add_right _ _
    rw [← List.append_nil text] at found
    rcases bareDate?_cut solid length (.inl rfl) found with same | ⟨w, behind, split, spaces, dated, -⟩
    · exact same
    · rw [unadorned.dateless date w behind split spaces] at dated
      cases dated

end ExactFormula.Relaxed
