import ExactFormula.Proofs.Reading.Delimiters
import ExactFormula.Proofs.Relaxed.Wrapping

/-!
Calls in a value: the scan finds one exactly where a name, spaces apart, has an opening parenthesis behind it
outside all quotations.
-/

namespace ExactFormula.Relaxed

/-- Every quotation that starts in the text is closed in it. -/
inductive OutsideQuotes : List Char → Prop
  | nil : OutsideQuotes []
  | char {c : Char} {cs : List Char} (plain : Text.isQuote c = false) (rest : OutsideQuotes cs) :
    OutsideQuotes (c :: cs)
  | quotation {q : Char} {body cs : List Char} (isQuote : Text.isQuote q = true)
    (closes : ∀ rest, Text.closingLength? true q (body ++ rest) = some body.length) (rest : OutsideQuotes cs) :
    OutsideQuotes (q :: (body ++ cs))

/-- Outside all quotations there is a name with an opening parenthesis behind it. -/
def Calls (text : List Char) : Prop :=
  ∃ before c name spaces rest, text = before ++ c :: (name ++ (spaces ++ '(' :: rest)) ∧ OutsideQuotes before ∧
    isNameStart c = true ∧ (∀ x ∈ name, isNamePart x = true) ∧ ∀ x ∈ spaces, isSpace x = true

variable {c q : Char} {name rest text body cs : List Char}

theorem quote_of_isNamePart {c : Char} (h : isNamePart c = true) : Text.isQuote c = false := by
  refine Bool.eq_false_iff.2 fun quote => ?_
  rcases Text.isQuote_cases quote with rfl | rfl | rfl <;> cases h

/-- A name is looked at as a whole. -/
theorem hasCall_name (start : isNameStart c = true) (parts : ∀ x ∈ name, isNamePart x = true)
    (ends : rest.takeWhile isNamePart = []) :
    hasCall 0 (c :: (name ++ rest)) = ((rest.dropWhile isSpace).head? == some '(' || hasCall 0 rest) := by
  have whole : (name ++ rest).takeWhile isNamePart = name := by
    rw [List.takeWhile_append_of_pos parts, ends, List.append_nil]
  have quote : Text.isQuote c = false := quote_of_isNamePart (Bool.or_eq_true_iff.2 (.inl start))
  rw [hasCall, quote, start]
  simp [whole, hasCall_skip]

theorem hasCall_char (quote : Text.isQuote c = false) (start : isNameStart c = false) (cs : List Char) :
    hasCall 0 (c :: cs) = hasCall 0 cs := by
  simp [hasCall, quote, start]

/-- Part of a name in front of a text takes no call away. -/
theorem hasCall_behind (parts : ∀ x ∈ name, isNamePart x = true) (ends : rest.takeWhile isNamePart = [])
    (h : hasCall 0 (name ++ rest) = true) : ((rest.dropWhile isSpace).head? == some '(' || hasCall 0 rest) = true := by
  induction name with
  | nil => exact Bool.or_eq_true_iff.2 (.inr h)
  | cons x name ih =>
    obtain ⟨first, parts⟩ := List.forall_mem_cons.1 parts
    rw [List.cons_append] at h
    cases start : isNameStart x with
    | true => rwa [hasCall_name start parts ends] at h
    | false =>
      rw [hasCall_char (quote_of_isNamePart first) start] at h
      exact ih parts h

theorem exists_name (cs : List Char) : ∃ name rest, cs = name ++ rest ∧ (∀ x ∈ name, isNamePart x = true) ∧
    rest.takeWhile isNamePart = [] := by
  refine ⟨cs.takeWhile isNamePart, cs.dropWhile isNamePart, List.takeWhile_append_dropWhile.symm,
    fun _ => List.mem_takeWhile_imp, ?_⟩
  cases left : cs.dropWhile isNamePart with
  | nil => rfl
  | cons d rest =>
    have first := List.head?_dropWhile_not isNamePart cs
    rw [left] at first
    exact List.takeWhile_cons_of_neg (by simpa using first)

theorem hasCall_cons (quote : Text.isQuote c = false) {cs : List Char} (h : hasCall 0 cs = true) :
    hasCall 0 (c :: cs) = true := by
  cases start : isNameStart c with
  | false => rwa [hasCall_char quote start]
  | true =>
    obtain ⟨name, rest, rfl, parts, ends⟩ := exists_name cs
    rw [hasCall_name start parts ends]
    exact hasCall_behind parts ends h

theorem takeWhile_opening {spaces : List Char} (h : ∀ x ∈ spaces, isSpace x = true) (rest : List Char) :
    (spaces ++ '(' :: rest).takeWhile isNamePart = [] ∧
      ((spaces ++ '(' :: rest).dropWhile isSpace).head? = some '(' := by
  refine ⟨?_, by rw [List.dropWhile_append_of_pos h]; rfl⟩
  cases spaces with
  | nil => rfl
  | cons c spaces => rcases isSpace_cases (h c List.mem_cons_self) with rfl | rfl | rfl | rfl <;> rfl

theorem Calls.hasCall_eq (h : Calls text) : hasCall 0 text = true := by
  obtain ⟨before, c, name, spaces, rest, rfl, outside, start, parts, between⟩ := h
  obtain ⟨ends, opens⟩ := takeWhile_opening between rest
  induction outside with
  | nil =>
    rw [List.nil_append, hasCall_name start parts ends, opens]
    rfl
  | char plain _ ih => exact hasCall_cons plain ih
  | quotation isQuote closes _ ih =>
    rw [List.cons_append, List.append_assoc, hasCall_quotation isQuote closes]
    exact ih

theorem OutsideQuotes.append {before : List Char} (outside : OutsideQuotes before) (h : OutsideQuotes text) :
    OutsideQuotes (before ++ text) := by
  induction outside with
  | nil => exact h
  | char plain _ ih => exact .char plain ih
  | quotation isQuote closes _ ih =>
    rw [List.cons_append, List.append_assoc]
    exact .quotation isQuote closes ih

/-- Text without open quotations in front of a call. -/
theorem Calls.behind {before : List Char} (outside : OutsideQuotes before) (h : Calls text) :
    Calls (before ++ text) := by
  obtain ⟨inner, c, name, spaces, rest, rfl, closed, found⟩ := h
  exact ⟨before ++ inner, c, name, spaces, rest, (List.append_assoc ..).symm, outside.append closed, found⟩

theorem outside_of_quoteless (quoteless : ∀ c ∈ text, Text.isQuote c = false) : OutsideQuotes text := by
  induction text with
  | nil => exact .nil
  | cons c text ih =>
    obtain ⟨plain, quoteless⟩ := List.forall_mem_cons.1 quoteless
    exact .char plain (ih quoteless)

theorem outside_of_matched {escapes : Bool} (h : Matched escapes text) (counts : escapes = true) :
    OutsideQuotes text := by
  induction h with
  | nil => exact .nil
  | plain steady _ ih => exact .char steady.quote (ih counts)
  | quotation isQuote closes _ ih =>
    subst counts
    exact .quotation isQuote closes (ih rfl)
  | @group _ c inner cs opens _ _ ih ih' =>
    subst counts
    refine .char ?_ ((ih rfl).append (.char ?_ (ih' rfl))) <;>
      rcases Lexeme.isOpener_cases opens with rfl | rfl | rfl <;> rfl

theorem calls_of_hasCall : (text : List Char) → hasCall 0 text = true → Calls text
  | [], h => by cases h
  | c :: cs, h => by
    cases quote : Text.isQuote c with
    | true =>
      cases found : Text.closingLength? true c cs with
      | none =>
        have skipped := hasCall_skip cs []
        rw [List.append_nil] at skipped
        rw [hasCall, quote, Text.quotationLength, found] at h
        cases skipped.symm.trans h
      | some n =>
        obtain ⟨body, rest, rfl, -, closes⟩ := Text.exists_body found
        rw [hasCall_quotation quote closes] at h
        have behind := (calls_of_hasCall rest h).behind (.quotation quote closes .nil)
        rwa [List.append_nil] at behind
    | false =>
    cases start : isNameStart c with
    | false =>
      rw [hasCall_char quote start] at h
      exact (calls_of_hasCall cs h).behind (.char quote .nil)
    | true =>
      obtain ⟨name, rest, rfl, parts, ends⟩ := exists_name cs
      rw [hasCall_name start parts ends, Bool.or_eq_true, beq_iff_eq] at h
      rcases h with opens | h
      · obtain ⟨more, split⟩ := List.head?_eq_some_iff.1 opens
        refine ⟨[], c, name, rest.takeWhile isSpace, more, ?_, .nil, start, parts, fun _ => List.mem_takeWhile_imp⟩
        rw [← split, List.takeWhile_append_dropWhile]
        rfl
      · have quoteless := fun x mem => quote_of_isNamePart (parts x mem)
        exact (calls_of_hasCall rest h).behind (.char quote (outside_of_quoteless quoteless))
termination_by text => text.length

theorem hasCall_iff : hasCall 0 text = true ↔ Calls text := ⟨calls_of_hasCall text, Calls.hasCall_eq⟩

instance (text : List Char) : Decidable (Calls text) := decidable_of_iff _ hasCall_iff

/-- A call starts with the first character or is found behind it. -/
theorem Calls.cons_cases {c : Char} {cs : List Char} (plain : Text.isQuote c = false) (h : Calls (c :: cs)) :
    Calls cs ∨ isNameStart c = true ∧ ∃ name spaces more, cs = name ++ (spaces ++ '(' :: more) ∧
      (∀ x ∈ name, isNamePart x = true) ∧ ∀ x ∈ spaces, isSpace x = true := by
  obtain ⟨before, d, name, spaces, more, split, outside, start, parts, between⟩ := h
  cases outside with
  | nil =>
    obtain ⟨rfl, rfl⟩ := List.cons.inj split
    exact .inr ⟨start, name, spaces, more, rfl, parts, between⟩
  | char plain outside =>
    obtain ⟨rfl, rfl⟩ := List.cons.inj split
    exact .inl ⟨_, d, name, spaces, more, rfl, outside, start, parts, between⟩
  | quotation isQuote =>
    obtain ⟨rfl, rfl⟩ := List.cons.inj split
    rw [plain] at isQuote
    cases isQuote

/-! ## Text without calls -/

theorem Calls.append (h : Calls text) (more : List Char) : Calls (text ++ more) := by
  obtain ⟨before, c, name, spaces, rest, rfl, found⟩ := h
  exact ⟨before, c, name, spaces, rest ++ more, by simp, found⟩

theorem hasCall_drop (n : Nat) (cs : List Char) : hasCall n cs = hasCall 0 (cs.drop n) := by
  induction cs generalizing n with
  | nil => cases n <;> simp [hasCall]
  | cons c cs ih =>
    cases n with
    | zero => rfl
    | succ n => rw [hasCall, ih, List.drop_succ_cons]

/-- Behind a value there is no call either. -/
theorem hasCall_behind_value {n p b k : Nat} {cs : List Char} (callless : hasCall n cs = false) :
    hasCall 0 (cs.drop (valueLength n p b k cs)) = false := by
  fun_induction valueLength n p b k cs with
  | case1 => rfl
  | case2 n p b k c cs ih =>
    rw [hasCall] at callless
    exact ih callless
  | case3 p b k c cs quote ih =>
    rw [hasCall, if_pos quote] at callless
    exact ih callless
  | case4 => exact callless
  | case5 p b k c cs quote _ _ _ _ ih =>
    refine ih (Bool.eq_false_iff.2 fun found => ?_)
    rw [hasCall_cons (Bool.eq_false_iff.2 quote) found] at callless
    cases callless

theorem Calls.of_trim (h : Calls (Text.trim text)) : Calls text := by
  obtain ⟨w, w', split, blank, -⟩ := Text.exists_trim text
  rw [split]
  exact (h.append w').behind (outside_of_quoteless fun c mem => (plain_of_blank (blank c mem)).1)

theorem valueLength_pos {c : Char} (goesOn : isStructural c = false) (cs : List Char) :
    0 < valueLength 0 0 0 0 (c :: cs) := by
  simp only [isStructural, Bool.or_eq_false_iff, beq_eq_false_iff_ne] at goesOn
  rw [valueLength]
  split
  · exact Nat.succ_pos _
  · simp [goesOn]

theorem valueLength_le (n p b k : Nat) (cs : List Char) : valueLength n p b k cs ≤ cs.length := by
  fun_induction valueLength n p b k cs <;> simp only [List.length_cons, List.length_nil] <;> omega

/-- Each step copies what it takes, and leaves no call behind. -/
theorem wrapStep_callless (marker : List Char) {c : Char} {cs : List Char} (callless : hasCall 0 (c :: cs) = false)
    (s : WrapState) : ∃ n s', wrapStep marker s c cs = .swallow ((c :: cs).take (n + 1)) n s' ∧
      hasCall 0 (cs.drop n) = false := by
  rw [wrapStep]
  split
  case isTrue quoted =>
    refine ⟨Text.quotationLength c cs, s, rfl, ?_⟩
    rwa [hasCall, if_pos (Bool.and_eq_true_iff.1 quoted).1, hasCall_drop] at callless
  case isFalse unquoted =>
  by_cases copied : (isStructural c || (isSpace c || s.atKey || !s.atValue)) = true
  · have quote : Text.isQuote c = false := by
      refine Bool.eq_false_iff.2 fun quote => ?_
      obtain ⟨shown, structural, -⟩ := quote_facts quote
      rw [structural, isSpace_of_shown shown] at copied
      exact unquoted (by rw [quote]; simpa using copied)
    have behind : hasCall 0 (cs.drop 0) = false := Bool.eq_false_iff.2 fun found => by
      rw [List.drop_zero] at found
      rw [hasCall_cons quote found] at callless
      cases callless
    refine ⟨0, ?_⟩
    split_ifs with brace bracket closer colon comma plain
    any_goals exact ⟨_, rfl, behind⟩
    rw [Bool.or_eq_true, isStructural] at copied
    grind
  · obtain ⟨structural, due⟩ := Bool.or_eq_false_iff.1 (Bool.eq_false_iff.2 copied)
    have inside := valueLength_pos structural cs
    have length := List.length_take_of_le (valueLength_le 0 0 0 0 (c :: cs))
    have value : hasCall 0 (Text.trim ((c :: cs).take (valueLength 0 0 0 0 (c :: cs)))) = false := by
      refine Bool.eq_false_iff.2 fun found => ?_
      have whole := (calls_of_hasCall _ found).of_trim.append ((c :: cs).drop (valueLength 0 0 0 0 (c :: cs)))
      rw [List.take_append_drop, ← hasCall_iff, callless] at whole
      cases whole
    have behind := hasCall_behind_value (p := 0) (b := 0) (k := 0) callless
    obtain ⟨n, more⟩ := Nat.exists_eq_succ_of_ne_zero (Nat.ne_of_gt inside)
    simp only [isStructural, Bool.or_eq_false_iff] at structural
    rw [more, List.take_succ_cons] at length value
    rw [more] at behind
    have short : min n cs.length = n := by simpa using length
    refine ⟨n, { s with atKey := s.inObject, atValue := false }, ?_, behind⟩
    simp [structural, due, more, short, value]

theorem wrapFrom_of_callless {marker : List Char} (s : WrapState) : (cs : List Char) → hasCall 0 cs = false →
    wrapFrom marker s cs = cs
  | [], _ => rfl
  | c :: cs, callless => by
    obtain ⟨n, s', step, behind⟩ := wrapStep_callless marker callless s
    have rest : Text.scan (wrapStep marker) (fun _ => []) s' (cs.drop n) = cs.drop n :=
      wrapFrom_of_callless s' (cs.drop n) behind
    refine (Text.scan_cons s c cs).trans ?_
    rw [step]
    dsimp only [Text.Step.swallow]
    rw [rest, List.take_succ_cons, List.cons_append, List.take_append_drop]
termination_by cs => cs.length

/-- Text without a call is copied. -/
theorem wrapCalls_of_callless {marker : List Char} (callless : ¬Calls text) : wrapCalls marker text = text :=
  wrapFrom_of_callless _ text (Bool.eq_false_iff.2 fun found => callless (hasCall_iff.1 found))

end ExactFormula.Relaxed
