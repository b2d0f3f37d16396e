import ExactFormula.Proofs.Relaxed.BareText

/-!
A block comment put between two tokens of a relaxed text. The scan looks ahead where bare tokens end and behind
commas, and still finds the same tokens around the comment, and gives the same strict text.
-/

namespace ExactFormula.Relaxed

/-! ## Ahead of a token -/

def atComment : List Char → Bool
  | [] => false
  | c :: cs => c == '/' && opensComment cs

/-- What the scans for bare tokens see of the rest: its first character, and whether that opens a comment. -/
structure SameStart (rest rest' : List Char) : Prop where
  head : rest'.head? = rest.head?
  comment : atComment rest' = atComment rest

/-- If a bare token ends with the text before one rest, it ends there before the other. -/
def EndsAlike (text rest rest' : List Char) : Prop :=
  SameStart rest rest' ∨ atComment rest' = true ∧ ¬['/'] <:+ text

variable {nested : Bool} {c : Char} {text rest rest' : List Char}

theorem opensComment_congr {cs cs' : List Char} (h : cs'.head? = cs.head?) : opensComment cs' = opensComment cs := by
  cases cs <;> cases cs' <;> cases h <;> rfl

theorem exists_of_atComment (h : atComment rest = true) : ∃ cs, rest = '/' :: cs ∧ opensComment cs = true := by
  cases rest with
  | nil => cases h
  | cons c cs =>
    rw [atComment, Bool.and_eq_true, beq_iff_eq] at h
    exact ⟨cs, by rw [h.1], h.2⟩

namespace EndsAlike

theorem tail (h : EndsAlike (c :: text) rest rest') : EndsAlike text rest rest' :=
  h.imp_right fun ⟨comment, seam⟩ => ⟨comment, fun suffix => seam (suffix.trans (List.suffix_cons c text))⟩

/-- The last character of the text makes no comment of what follows it. -/
theorem comment_eq (h : EndsAlike (c :: text) rest rest') :
    (c == '/' && opensComment (text ++ rest')) = (c == '/' && opensComment (text ++ rest)) := by
  cases text with
  | cons d text => rfl
  | nil =>
    rcases h with same | ⟨-, seam⟩
    · exact congrArg _ (opensComment_congr same.head)
    · have other : (c == '/') = false := by
        rw [beq_eq_false_iff_ne]
        rintro rfl
        exact seam (List.suffix_refl _)
      rw [other, Bool.false_and, Bool.false_and]

/-- What the scans see of the rest itself. -/
theorem rest_cases (h : EndsAlike text rest rest') : atComment rest' = true ∨ rest = [] ∧ rest' = [] ∨
    ∃ c cs cs', rest = c :: cs ∧ rest' = c :: cs' ∧ (c == '/' && opensComment cs') = (c == '/' && opensComment cs) := by
  rcases h with ⟨head, comment⟩ | ⟨comment, -⟩
  · cases rest with
    | nil => exact .inr (.inl ⟨rfl, List.head?_eq_none_iff.1 head⟩)
    | cons c cs =>
      obtain ⟨cs', rfl⟩ := List.head?_eq_some_iff.1 head
      exact .inr (.inr ⟨c, cs, cs', rfl, rfl, comment⟩)
  · exact .inl comment

theorem bareKey_eq (h : EndsAlike text rest rest') (key : bareKey (text ++ rest) = text) :
    bareKey (text ++ rest') = text := by
  induction text with
  | nil =>
    rcases h.rest_cases with comment | ⟨rfl, rfl⟩ | ⟨c, cs, cs', rfl, rfl, same⟩
    · obtain ⟨cs, rfl, opens⟩ := exists_of_atComment comment
      exact (EndsKey.comment opens).bareKey_eq
    · rfl
    · simp only [List.nil_append, bareKey, same] at key ⊢
      split at key
      case isTrue ends => rw [if_pos ends]
      case isFalse => cases key
  | cons c text ih =>
    have same := h.comment_eq
    simp only [List.cons_append, bareKey, same] at key ⊢
    split at key
    case isTrue => cases key
    case isFalse goesOn => rw [if_neg goesOn, ih h.tail (List.cons.inj key).2]

end EndsAlike

/-- Either a bare value ends before the character whatever follows it, and also with no bracket open, or the character
belongs to it where it opens no comment. -/
theorem bareValue_next (nested : Bool) (b k p : Nat) (c : Char) :
    (∀ cs, bareValue nested b k p (c :: cs) = [] ∧ bareValue nested 0 0 0 (c :: cs) = []) ∨
      ∃ b' k' p', ∀ cs, (c == '/' && opensComment cs) = false →
        bareValue nested b k p (c :: cs) = c :: bareValue nested b' k' p' cs := by
  cases quote : Text.isQuote c with
  | true =>
    left
    rcases Text.isQuote_cases quote with rfl | rfl | rfl <;> simp [bareValue, Text.isQuote]
  | false =>
  cases opens : Lexeme.isOpener c with
  | true =>
    obtain ⟨b', k', p', -, taken, -⟩ := @bareValue_group c nested opens b k p
    exact .inr ⟨b', k', p', fun cs _ => taken cs⟩
  | false =>
  cases closes : Lexeme.isCloser c with
  | true =>
    rcases Lexeme.isCloser_cases closes with rfl | rfl | rfl
    · by_cases inside : 0 < p
      · exact .inr ⟨b, k, p - 1, fun cs _ => by simp [bareValue, inside]⟩
      · exact .inr ⟨b, k, p, fun cs _ => by simp [bareValue, inside, quote]⟩
    · by_cases inside : 0 < k
      · exact .inr ⟨b, k - 1, p, fun cs _ => by simp [bareValue, inside]⟩
      by_cases held : b = 0 ∧ p = 0
      · exact .inl fun cs => by simp [bareValue, inside, held]
      · exact .inr ⟨b, k, p, fun cs _ => by simp [bareValue, inside, held, quote]⟩
    · by_cases inside : 0 < b
      · exact .inr ⟨b - 1, k, p, fun cs _ => by simp [bareValue, inside]⟩
      by_cases held : k = 0 ∧ p = 0
      · exact .inl fun cs => by simp [bareValue, inside, held]
      · exact .inr ⟨b, k, p, fun cs _ => by simp [bareValue, inside, held, quote]⟩
  | false =>
  simp only [Lexeme.isOpener, Lexeme.isCloser, Bool.or_eq_false_iff, beq_eq_false_iff_ne] at opens closes
  by_cases ends : c = ',' ∧ nested = true ∧ b = 0 ∧ k = 0 ∧ p = 0
  · obtain ⟨rfl, rfl, rfl, rfl, rfl⟩ := ends
    exact .inl fun cs => by simp [bareValue]
  · refine .inr ⟨b, k, p, fun cs commentless => ?_⟩
    rw [bareValue]
    simp [quote, opens, closes, ends, commentless, and_assoc]

theorem bareValue_comment {b k p : Nat} {cs : List Char} (opens : opensComment cs = true) :
    bareValue nested b k p ('/' :: cs) = [] := by
  simp [bareValue, opens]

/-- Where a bare value ends with brackets open, it also ends with none open. -/
theorem bareValue_ends {b k p : Nat} (h : bareValue nested b k p (text ++ rest) = text) :
    bareValue nested 0 0 0 rest = [] := by
  induction text generalizing b k p with
  | nil =>
    cases rest with
    | nil => rfl
    | cons c cs =>
      rcases bareValue_next nested b k p c with ends | ⟨b', k', p', taken⟩
      · exact (ends cs).2
      · cases comment : c == '/' && opensComment cs with
        | true =>
          obtain ⟨slash, opens⟩ := Bool.and_eq_true_iff.1 comment
          rw [beq_iff_eq.1 slash, bareValue_comment opens]
        | false => rw [List.nil_append, taken cs comment] at h; cases h
  | cons c text ih =>
    rw [List.cons_append] at h
    rcases bareValue_next nested b k p c with ends | ⟨b', k', p', taken⟩
    · rw [(ends _).1] at h
      cases h
    · rw [taken _ (bareValue_head (h ▸ List.cons_ne_nil c text)).2] at h
      exact ih (List.cons.inj h).2

/-- With a comment behind it, a bare value also ends before the blanks that it ended with. -/
theorem EndsAlike.bareValue_eq {b k p : Nat} {w : List Char} (h : EndsAlike text rest rest')
    (value : bareValue nested b k p (text ++ rest) = text ++ w) (ends : w = [] ∨ atComment rest' = true) :
    bareValue nested b k p (text ++ rest') = text := by
  induction text generalizing b k p with
  | nil =>
    by_cases comment : atComment rest' = true
    · obtain ⟨cs, rfl, opens⟩ := exists_of_atComment comment
      exact bareValue_comment opens
    obtain rfl := ends.resolve_right comment
    rcases h.rest_cases with opens | ⟨rfl, rfl⟩ | ⟨c, cs, cs', rfl, rfl, same⟩
    · exact absurd opens comment
    · rfl
    · rcases bareValue_next nested b k p c with ends | ⟨b', k', p', taken⟩
      · exact (ends cs').1
      · have commentless := same.symm.trans (Bool.eq_false_iff.2 comment)
        rw [List.nil_append, taken cs commentless] at value
        cases value
  | cons c text ih =>
    rw [List.cons_append] at value ⊢
    rcases bareValue_next nested b k p c with ends | ⟨b', k', p', taken⟩
    · rw [(ends _).1] at value
      cases value
    · have nonempty : bareValue nested b k p (c :: (text ++ rest)) ≠ [] := by
        rw [value]
        exact List.cons_ne_nil c (text ++ w)
      have commentless := (bareValue_head nonempty).2
      rw [taken _ commentless] at value
      rw [taken _ (h.comment_eq.trans commentless), ih h.tail (List.cons.inj value).2]

/-! ### Dates -/

theorem breaksDate_of_ends (h : bareValue nested 0 0 0 rest = []) : BreaksDate rest := by
  cases rest with
  | nil => exact .inl rfl
  | cons c cs =>
    cases date : isDateChar c with
    | false => exact .inl (List.takeWhile_cons_of_neg (by simp [date]))
    | true =>
      cases comment : c == '/' && opensComment cs with
      | true =>
        obtain ⟨slash, opens⟩ := Bool.and_eq_true_iff.1 comment
        exact .inr ⟨cs, by rw [beq_iff_eq.1 slash], opens⟩
      | false =>
        have other : Text.isQuote c = false ∧ c ∉ ['(', ')', '{', '}', '[', ']', ','] := by
          constructor
          · refine Bool.eq_false_iff.2 fun quote => ?_
            rcases Text.isQuote_cases quote with rfl | rfl | rfl <;> cases date
          · intro mem
            simp only [List.mem_cons, List.not_mem_nil, or_false] at mem
            rcases mem with rfl | rfl | rfl | rfl | rfl | rfl | rfl <;> cases date
        rw [bareValue_cons other comment] at h
        cases h

/-- A date that breaks off inside a text is one, or none, whatever follows the text. -/
theorem bareDate?_broken {date other : List Char} (all : ∀ x ∈ date, isDateChar x = true)
    (otherwise : isDateChar c = false) (shown : ∃ x ∈ c :: other, x ≠ ' ') :
    bareDate? (date ++ c :: other ++ rest') = bareDate? (date ++ c :: other ++ rest) := by
  have cut (rest : List Char) : (date ++ (c :: other ++ rest)).takeWhile isDateChar = date := by
    rw [List.takeWhile_append_of_pos all, List.cons_append, List.takeWhile_cons_of_neg (by simp [otherwise]),
      List.append_nil]
  have ends : endsDate (c :: other ++ rest') = endsDate (c :: other ++ rest) := by
    have left : (c :: other).dropWhile (· == ' ') ≠ [] := by
      rw [ne_eq, List.dropWhile_eq_nil_iff]
      obtain ⟨x, mem, shown⟩ := shown
      exact fun spaces => shown (by simpa using spaces x mem)
    obtain ⟨d, ds, split⟩ := List.exists_cons_of_ne_nil left
    have behind (rest : List Char) : (c :: other ++ rest).dropWhile (· == ' ') = d :: ds ++ rest := by
      rw [List.dropWhile_append, split]
      rfl
    have known (rest : List Char) : endsDate (c :: other ++ rest) =
        (!isNameStart c && (d == ',' || d == '}' || d == ']' || d == ':')) := by
      have behind := behind rest
      rw [List.cons_append] at behind ⊢
      simp only [endsDate, behind, List.cons_append]
    rw [known, known]
  by_cases long : 8 ≤ date.length
  · have first (rest : List Char) : (date ++ (c :: other ++ rest)).take 4 = date.take 4 :=
      List.take_append_of_le_length (by omega)
    simp only [bareDate?, List.append_assoc, cut, first, List.drop_left, ends]
  · simp only [bareDate?, List.append_assoc, cut, long, decide_false, Bool.and_false, Bool.false_and,
      Bool.false_eq_true, ↓reduceIte]

theorem Undivided.behind (h : Undivided text rest) (ends : bareValue nested 0 0 0 rest' = []) :
    Undivided text rest' := by
  intro date found
  obtain ⟨isDate, -, cut⟩ := isDate_of_bareDate? found
  rcases exists_takeWhile_isDateChar text with all | ⟨before, c, other, rfl, all, otherwise⟩
  · rw [List.takeWhile_append_of_pos all] at cut
    exact ⟨[], by rw [(breaksDate_of_ends ends).eq cut isDate, List.append_nil], List.forall_mem_nil _⟩
  · by_cases shown : ∃ x ∈ c :: other, x ≠ ' '
    · exact h date (by rw [← bareDate?_broken all otherwise shown, found])
    · rw [List.append_assoc, List.takeWhile_append_of_pos all, List.cons_append,
        List.takeWhile_cons_of_neg (by simp [otherwise]), List.append_nil] at cut
      refine ⟨c :: other, by rw [cut], fun x mem => ?_⟩
      exact Decidable.not_not.1 fun other => shown ⟨x, mem, other⟩

/-! ## Bare values -/

variable {marker : List Char} {structures : List Bool} {s : NormalState}

theorem normalFrom_value (starts : ∃ c ∈ text.head?, isSpace c = false ∧ isStructural c = false)
    (whole : bareValue (!structures.isEmpty) 0 0 0 (text ++ rest) = text) (undivided : Undivided text rest) :
    normalFrom marker ⟨structures, false⟩ (text ++ rest) =
      strictText marker text ++ normalFrom marker ⟨structures, false⟩ rest :=
  normalFrom_taken (w := []) starts (whole.trans (List.append_nil text).symm) undivided (List.forall_mem_nil _)
    (bareValue_ends whole)

/-! ## Quotations -/

theorem requote_closed {q : Char} {body : List Char} (closes : Text.closingLength? true q body = some body.length) :
    ∃ content, ∀ rest, requote q (body ++ rest) = (content, body.length) := by
  fun_induction Text.closingLength? true q body with
  | case1 => cases closes
  | case2 => cases closes
  | case3 c escape d cs ih =>
    obtain ⟨n, found, length⟩ := Option.map_eq_some_iff.1 closes
    obtain ⟨content, same⟩ := ih (found.trans (congrArg some (Nat.add_right_cancel length)))
    rw [Bool.true_and, beq_iff_eq] at escape
    subst escape
    exact ⟨if d == q then d :: content else '\\' :: d :: content, fun rest => by simp [requote, same]⟩
  | case4 c cs other quote =>
    have ended : cs = [] := by simpa using closes
    subst ended
    refine ⟨[], fun rest => ?_⟩
    rw [List.singleton_append, requote.eq_def]
    simp_all
  | case5 c cs other inside ih =>
    obtain ⟨n, found, length⟩ := Option.map_eq_some_iff.1 closes
    obtain ⟨content, same⟩ := ih (found.trans (congrArg some (Nat.add_right_cancel length)))
    refine ⟨if c == '"' then '\\' :: '"' :: content else c :: content, fun rest => ?_⟩
    rw [List.cons_append, requote.eq_def]
    simp_all

/-- A closed quotation is read the same way, whatever follows it. -/
theorem normalFrom_closed (marker : List Char) {q : Char} {body : List Char} (isQuote : Text.isQuote q = true)
    (closes : ∀ rest, Text.closingLength? true q (body ++ rest) = some body.length) :
    ∃ content, ∀ (s : NormalState) rest,
      normalFrom marker s (q :: (body ++ rest)) = content ++ normalFrom marker s rest := by
  by_cases double : q = '"'
  · subst double
    refine ⟨'"' :: body, fun s rest => Text.scan_swallow ?_⟩
    have length : Text.quotationLength '"' (body ++ rest) = body.length := by
      rw [Text.quotationLength, closes rest]
      rfl
    simp [normalStep, isSpace, length]
  · have closed := closes []
    rw [List.append_nil] at closed
    obtain ⟨content, same⟩ := requote_closed closed
    refine ⟨'"' :: (content ++ ['"']), fun s rest => Text.scan_swallow ?_⟩
    rw [normalStep_requote isQuote double, same]

/-! ## Marks -/

/-- Where the scan stands behind a mark. -/
def NormalState.behind (s : NormalState) (c : Char) : NormalState :=
  if c == '{' then ⟨true :: s.structures, true⟩
  else if c == '[' then ⟨false :: s.structures, false⟩
  else if c == ':' then { s with atKey := false }
  else if c == ',' then { s with atKey := inObject s.structures }
  else ⟨s.structures.tail, inObject s.structures.tail⟩

theorem normalFrom_mark (structural : isStructural c = true) (other : c ≠ ',') (cs : List Char) :
    normalFrom marker s (c :: cs) = c :: normalFrom marker (s.behind c) cs := by
  simp only [isStructural, Bool.or_eq_true, beq_iff_eq, or_assoc] at structural
  rcases structural with rfl | rfl | rfl | rfl | rfl | rfl
  · exact normalFrom_openBrace s cs
  · exact normalFrom_closer (.inl rfl) s cs
  · exact normalFrom_openBracket s cs
  · exact normalFrom_closer (.inr rfl) s cs
  · exact normalFrom_colon s cs
  · exact absurd rfl other

/-- What stands behind spaces and comments. -/
def behindGap (cs : List Char) : List Char := cs.drop (gapLength 0 cs)

/-- A structure closes here. -/
def Closes (cs : List Char) : Prop := ∃ c ∈ cs.head?, c = '}' ∨ c = ']'

/-- A comma goes, with the gap behind it, when a structure closes there. -/
theorem normalFrom_dropped {cs : List Char} (closes : Closes (behindGap cs)) :
    normalFrom marker s (',' :: cs) = normalFrom marker (s.behind ',') (behindGap cs) := by
  obtain ⟨c, first, closer⟩ := closes
  obtain ⟨more, split⟩ := List.head?_eq_some_iff.1 first
  have step : normalStep marker s ',' cs = .swallow [] (gapLength 0 cs) s := by
    have split : cs.drop (gapLength 0 cs) = c :: more := split
    have comma : normalStep marker s ',' cs = commaStep s cs := rfl
    rw [comma, commaStep]
    rcases closer with rfl | rfl <;> simp only [split]
  have scanned : normalFrom marker s (',' :: cs) = normalFrom marker s (behindGap cs) := by
    rw [normalFrom, Text.scan_cons, step]
    rfl
  rw [scanned, split, normalFrom_closer closer, normalFrom_closer closer]
  rfl

theorem normalFrom_kept {cs : List Char} (continues : ¬Closes (behindGap cs)) :
    normalFrom marker s (',' :: cs) = ',' :: normalFrom marker (s.behind ',') cs := by
  have step : normalStep marker s ',' cs = .emit [','] (s.behind ',') := by
    have comma : normalStep marker s ',' cs = commaStep s cs := rfl
    rw [comma, commaStep]
    split
    case h_1 split => exact absurd ⟨_, by rw [behindGap, split]; rfl, .inl rfl⟩ continues
    case h_2 split => exact absurd ⟨_, by rw [behindGap, split]; rfl, .inr rfl⟩ continues
    case h_3 => rfl
  exact Text.scan_emit step

/-! ## Places -/

/-- Over tokens, spaces and comments one comes from a place where the scan stands in the state to another place between
two tokens. The first text is what stands between both, the second one what is behind. -/
inductive Between : NormalState → List Char → List Char → Prop
  | here {s : NormalState} {after : List Char} : Between s [] after
  | filler {s : NormalState} {before after : List Char} (filler : Filler) (later : Between s before after) :
      Between s (filler.chars ++ before) after
  | mark {s : NormalState} {c : Char} {before after : List Char} (structural : isStructural c = true)
      (later : Between (s.behind c) before after) : Between s (c :: before) after
  | quotation {s : NormalState} {q : Char} {body before after : List Char} (isQuote : Text.isQuote q = true)
      (closes : ∀ rest, Text.closingLength? true q (body ++ rest) = some body.length)
      (later : Between s before after) : Between s (q :: (body ++ before)) after
  | key {structures : List Bool} {text before after : List Char} (nonempty : text ≠ [])
      (whole : bareKey (text ++ (before ++ after)) = text) (seam : before = [] → ¬['/'] <:+ text)
      (later : Between ⟨structures, true⟩ before after) : Between ⟨structures, true⟩ (text ++ before) after
  | value {structures : List Bool} {text before after : List Char}
      (starts : ∃ c ∈ text.head?, isSpace c = false ∧ isStructural c = false)
      (whole : bareValue (!structures.isEmpty) 0 0 0 (text ++ (before ++ after)) = text)
      (undivided : Undivided text (before ++ after)) (seam : before = [] → ¬['/'] <:+ text)
      (later : Between ⟨structures, false⟩ before after) : Between ⟨structures, false⟩ (text ++ before) after
  | blanks {structures : List Bool} {text w rest : List Char}
      (starts : ∃ c ∈ text.head?, isSpace c = false ∧ isStructural c = false)
      (whole : bareValue (!structures.isEmpty) 0 0 0 (text ++ (w ++ rest)) = text ++ w)
      (undivided : Undivided text (w ++ rest)) (blank : ∀ c ∈ w, Text.isBlank c = true) (seam : ¬['/'] <:+ text) :
      Between ⟨structures, false⟩ text (w ++ rest)

variable {before after : List Char}

theorem Between.not_slash (h : Between s before after) : before ≠ ['/'] := by
  have bare {text before : List Char} (nonempty : text ≠ []) (seam : before = [] → ¬['/'] <:+ text) :
      text ++ before ≠ ['/'] := by
    intro same
    rcases List.append_eq_singleton_iff.1 same with ⟨none, -⟩ | ⟨rfl, rfl⟩
    · exact nonempty none
    · exact seam rfl (List.suffix_refl _)
  cases h with
  | here => nofun
  | filler filler =>
    cases filler with
    | space c space =>
      rintro ⟨⟩
      cases space
    | line => nofun
    | block => nofun
  | mark structural =>
    rintro ⟨⟩
    cases structural
  | quotation isQuote =>
    intro same
    rw [(List.cons.inj same).1] at isQuote
    cases isQuote
  | key nonempty whole seam => exact bare nonempty seam
  | value starts whole undivided seam =>
    refine bare ?_ seam
    rintro rfl
    obtain ⟨c, first, -⟩ := starts
    cases first
  | blanks starts whole undivided blank seam =>
    rintro rfl
    exact seam (List.suffix_refl _)

theorem sameStart_append (nonempty : before ≠ []) (slash : before ≠ ['/']) (rest rest' : List Char) :
    SameStart (before ++ rest) (before ++ rest') := by
  obtain ⟨c, cs, rfl⟩ := List.exists_cons_of_ne_nil nonempty
  refine ⟨rfl, ?_⟩
  cases cs with
  | cons d cs => rfl
  | nil =>
    have other : (c == '/') = false := by
      rw [beq_eq_false_iff_ne]
      rintro rfl
      exact slash rfl
    simp [atComment, other]

/-- A bare token in front of the place ends where it did when the comment is there. -/
theorem Between.endsAlike (h : Between s before after) (seam : before = [] → ¬['/'] <:+ text) {comment : List Char}
    (opens : atComment (comment ++ after) = true) :
    EndsAlike text (before ++ after) (before ++ (comment ++ after)) := by
  by_cases nonempty : before = []
  · subst nonempty
    exact .inr ⟨opens, seam rfl⟩
  · exact .inl (sameStart_append nonempty h.not_slash after (comment ++ after))

/-! ## The comment -/

/-- The scan gives the same for two texts, and also behind the gaps at their start. -/
structure ScannedAlike (s : NormalState) (cs cs' : List Char) : Prop where
  scan : ∀ marker, normalFrom marker s cs' = normalFrom marker s cs
  head : (behindGap cs').head? = (behindGap cs).head?
  behind : ∀ marker, normalFrom marker s (behindGap cs') = normalFrom marker s (behindGap cs)

theorem behindGap_filler (filler : Filler) (cs : List Char) : behindGap (filler.chars ++ cs) = behindGap cs := by
  rw [behindGap, gapLength_filler, List.drop_append, behindGap]
  simp

/-- No gap stands in front of a token. -/
theorem ScannedAlike.token (starts : ∃ c ∈ text.head?, isSpace c = false)
    (commentless : atComment (text ++ rest) = false) (commentless' : atComment (text ++ rest') = false)
    (scan : ∀ marker, normalFrom marker s (text ++ rest') = normalFrom marker s (text ++ rest)) :
    ScannedAlike s (text ++ rest) (text ++ rest') := by
  obtain ⟨c, first, space⟩ := starts
  obtain ⟨cs, rfl⟩ := List.head?_eq_some_iff.1 first
  have gapless {rest : List Char} (commentless : atComment (c :: cs ++ rest) = false) :
      behindGap (c :: cs ++ rest) = c :: cs ++ rest := by
    rw [List.cons_append, atComment] at commentless
    rw [List.cons_append, behindGap, gapLength, space, commentless]
    rfl
  refine ⟨scan, ?_, ?_⟩
  · rw [gapless commentless, gapless commentless']
    rfl
  · rwa [gapless commentless, gapless commentless']

theorem ScannedAlike.bareValue (starts : ∃ c ∈ text.head?, isSpace c = false ∧ isStructural c = false)
    (taken : text <+: bareValue nested 0 0 0 (text ++ rest)) (taken' : text <+: bareValue nested 0 0 0 (text ++ rest'))
    (scan : ∀ marker, normalFrom marker s (text ++ rest') = normalFrom marker s (text ++ rest)) :
    ScannedAlike s (text ++ rest) (text ++ rest') := by
  obtain ⟨c, first, space, -⟩ := starts
  obtain ⟨cs, rfl⟩ := List.head?_eq_some_iff.1 first
  have commentless {rest : List Char} (taken : c :: cs <+: bareValue nested 0 0 0 (c :: cs ++ rest)) :
      atComment (c :: cs ++ rest) = false :=
    (bareValue_head (taken.ne_nil (List.cons_ne_nil c cs))).2
  exact .token ⟨c, first, space⟩ (commentless taken) (commentless taken') scan

/-- A block comment between two tokens changes nothing of what the scan gives. -/
theorem Between.scannedAlike {note : List Char} (closed : ¬['*', '/'] <:+: note) (h : Between s before after) :
    ScannedAlike s (before ++ after) (before ++ ((Filler.block note closed).chars ++ after)) := by
  have opens (after : List Char) : atComment ((Filler.block note closed).chars ++ after) = true := rfl
  have skipped (marker : List Char) (s : NormalState) (cs : List Char) :
      normalFrom marker s ((Filler.block note closed).chars ++ cs) = normalFrom marker s cs :=
    normalFrom_filler (.block note closed) s cs
  induction h with
  | here =>
    refine ⟨fun marker => skipped marker _ _, ?_, fun marker => ?_⟩
    · rw [List.nil_append, List.nil_append, behindGap_filler]
    · rw [List.nil_append, List.nil_append, behindGap_filler]
  | filler filler later ih =>
    rw [List.append_assoc, List.append_assoc]
    refine ⟨fun marker => ?_, ?_, fun marker => ?_⟩
    · rw [normalFrom_filler, normalFrom_filler, ih.scan]
    · rw [behindGap_filler, behindGap_filler, ih.head]
    · rw [behindGap_filler, behindGap_filler, ih.behind]
  | @mark s c before after structural later ih =>
    have apart : isSpace c = false ∧ ∀ cs, atComment (c :: cs) = false := by
      simp only [isStructural, Bool.or_eq_true, beq_iff_eq, or_assoc] at structural
      rcases structural with rfl | rfl | rfl | rfl | rfl | rfl <;> exact ⟨rfl, fun _ => rfl⟩
    have text (rest : List Char) : c :: before ++ rest = [c] ++ (before ++ rest) := rfl
    rw [text, text]
    refine .token ⟨c, rfl, apart.1⟩ (apart.2 _) (apart.2 _) fun marker => ?_
    rw [List.singleton_append, List.singleton_append]
    by_cases comma : c = ','
    · subst comma
      by_cases closes : Closes (behindGap (before ++ after))
      · rw [normalFrom_dropped closes, normalFrom_dropped (by rwa [Closes, ih.head]), ih.behind]
      · rw [normalFrom_kept closes, normalFrom_kept (by rwa [Closes, ih.head]), ih.scan]
    · rw [normalFrom_mark structural comma, normalFrom_mark structural comma, ih.scan]
  | @quotation s q body before after isQuote closes later ih =>
    obtain ⟨shown, -, slash⟩ := quote_facts isQuote
    have apart (cs : List Char) : atComment (q :: cs) = false := by simp [atComment, slash]
    have text (rest : List Char) : q :: (body ++ before) ++ rest = q :: body ++ (before ++ rest) := by simp
    rw [text, text]
    refine .token ⟨q, rfl, isSpace_of_shown shown⟩ (apart _) (apart _) fun marker => ?_
    obtain ⟨content, read⟩ := normalFrom_closed marker isQuote closes
    rw [List.cons_append, List.cons_append, read, read, ih.scan]
  | @key structures text before after nonempty whole seam later ih =>
    have whole' := (later.endsAlike seam (opens after)).bareKey_eq whole
    obtain ⟨c, cs, rfl⟩ := List.exists_cons_of_ne_nil nonempty
    rw [List.append_assoc, List.append_assoc]
    have head := bareKey_head (whole.symm ▸ nonempty)
    have head' := bareKey_head (whole'.symm ▸ nonempty)
    refine .token ⟨c, rfl, head.1⟩ head.2.2.2 head'.2.2.2 fun marker => ?_
    rw [normalFrom_takenKey nonempty whole, normalFrom_takenKey nonempty whole', ih.scan]
  | @value structures text before after starts whole undivided seam later ih =>
    have taken := whole.trans (List.append_nil text).symm
    have whole' := (later.endsAlike seam (opens after)).bareValue_eq taken (.inl rfl)
    have taken' := whole'.trans (List.append_nil text).symm
    have undivided' := undivided.behind (bareValue_ends whole')
    rw [List.append_assoc, List.append_assoc]
    refine .bareValue starts ⟨[], taken.symm⟩ ⟨[], taken'.symm⟩ fun marker => ?_
    rw [normalFrom_value starts whole undivided, normalFrom_value starts whole' undivided', ih.scan]
  | @blanks structures text w rest starts whole undivided blank seam =>
    have whole' := EndsAlike.bareValue_eq (.inr ⟨opens (w ++ rest), seam⟩) whole (.inr (opens _))
    have ends : bareValue (!structures.isEmpty) 0 0 0 rest = [] := by
      rw [← List.append_assoc] at whole
      exact bareValue_ends whole
    refine .bareValue starts ⟨w, whole.symm⟩ ⟨[], (List.append_nil text).trans whole'.symm⟩ fun marker => ?_
    rw [normalFrom_taken starts whole undivided blank ends,
      normalFrom_value starts whole' (undivided.behind (bareValue_ends whole')), skipped, normalFrom_blanks blank ends]

/-- An object is the same document with a block comment between two of its tokens. -/
theorem Between.parseChars_eq {front back note : List Char} (h : Between ⟨[true], true⟩ front (back ++ ['}']))
    (closed : ¬['*', '/'] <:+: note) (marker : List Char) :
    parseChars marker false ('{' :: (front ++ ((Filler.block note closed).chars ++ back) ++ ['}'])) =
      parseChars marker false ('{' :: (front ++ back ++ ['}'])) := by
  have same : normalFrom marker ⟨[], false⟩ ('{' :: (front ++ ((Filler.block note closed).chars ++ back) ++ ['}'])) =
      normalFrom marker ⟨[], false⟩ ('{' :: (front ++ back ++ ['}'])) := by
    have scan := (h.scannedAlike closed).scan marker
    rw [normalFrom_openBrace, normalFrom_openBrace]
    simpa using scan
  rw [parseChars, parseChars, normalizeChars, normalizeChars, if_neg Bool.false_ne_true, if_neg Bool.false_ne_true]
  exact congrArg (fun scanned => Json.ofChars (Text.trim scanned)) same

end ExactFormula.Relaxed
