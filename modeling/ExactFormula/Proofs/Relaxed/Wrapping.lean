import ExactFormula.Proofs.Relaxed.Bare

/-!
The scan that wraps values with calls, token by token. What is no value with a call is copied.
-/

namespace ExactFormula.Relaxed

variable {marker : List Char}

/-! ## Quotations -/

theorem quotationLength_of_closes {q : Char} {body : List Char}
    (closes : ∀ rest, Text.closingLength? true q (body ++ rest) = some body.length) (rest : List Char) :
    Text.quotationLength q (body ++ rest) = body.length := by
  rw [Text.quotationLength, closes]
  rfl

/-- Whatever follows, the quotation ends with its own last quote. -/
theorem Quotation.closes (q : Quotation) (rest : List Char) :
    Text.closingLength? true q.quote (q.raw ++ [q.quote] ++ rest) = some (q.raw ++ [q.quote]).length := by
  rw [List.append_assoc, List.length_append]
  exact q.written.closingLength?_eq q.isQuote rest

/-! ## Calls -/

theorem hasCall_skip (skipped cs : List Char) : hasCall skipped.length (skipped ++ cs) = hasCall 0 cs := by
  induction skipped with
  | nil => rfl
  | cons c skipped ih => rw [List.cons_append, List.length_cons, hasCall, ih]

theorem hasCall_eq_false {n : Nat} {cs : List Char} (h : '(' ∉ cs) : hasCall n cs = false := by
  fun_induction hasCall n cs with
  | case1 => rfl
  | case2 n c cs ih => exact ih (List.not_mem_of_not_mem_cons h)
  | case3 c cs _ ih => exact ih (List.not_mem_of_not_mem_cons h)
  | case4 c cs _ _ name ih =>
    have behind := List.not_mem_of_not_mem_cons h
    rw [ih behind, Bool.or_false, beq_eq_false_iff_ne]
    intro opens
    have mem := (List.dropWhile_sublist _).subset (List.mem_of_mem_head? opens)
    exact behind (List.mem_of_mem_drop mem)
  | case5 c cs _ _ ih => exact ih (List.not_mem_of_not_mem_cons h)

/-- A closed quotation is passed over. -/
theorem hasCall_quotation {q : Char} {body : List Char} (isQuote : Text.isQuote q = true)
    (closes : ∀ rest, Text.closingLength? true q (body ++ rest) = some body.length) (cs : List Char) :
    hasCall 0 (q :: (body ++ cs)) = hasCall 0 cs := by
  rw [hasCall, isQuote, quotationLength_of_closes closes]
  exact hasCall_skip body cs

theorem Quotation.hasCall_eq (q : Quotation) (rest : List Char) : hasCall 0 (q.chars ++ rest) = hasCall 0 rest :=
  hasCall_quotation q.isQuote q.closes rest

/-! ## Lengths of values -/

theorem valueLength_skip (skipped cs : List Char) (p b k : Nat) :
    valueLength skipped.length p b k (skipped ++ cs) = skipped.length + valueLength 0 p b k cs := by
  induction skipped with
  | nil => simp
  | cons c skipped ih =>
    rw [List.cons_append, List.length_cons, valueLength, ih]
    omega

theorem valueLength_quotation {q : Char} {body : List Char} (isQuote : Text.isQuote q = true)
    (closes : ∀ rest, Text.closingLength? true q (body ++ rest) = some body.length) (p b k : Nat) (cs : List Char) :
    valueLength 0 p b k (q :: (body ++ cs)) = body.length + 1 + valueLength 0 p b k cs := by
  rw [valueLength, isQuote, quotationLength_of_closes closes, if_pos rfl, valueLength_skip]
  omega

/-- A value ends here. -/
inductive ValueEnds : List Char → Prop
  | ended : ValueEnds []
  | mark {c : Char} {cs : List Char} (h : c = ',' ∨ c = '}' ∨ c = ']') : ValueEnds (c :: cs)

theorem ValueEnds.valueLength_eq {cs : List Char} (h : ValueEnds cs) : valueLength 0 0 0 0 cs = 0 := by
  cases h with
  | ended => rfl
  | mark h => rcases h with rfl | rfl | rfl <;> simp [valueLength, Text.isQuote]

/-! ## The scan -/

/-- The scan over the whole text, from a place inside. -/
abbrev wrapFrom (marker : List Char) (s : WrapState) (cs : List Char) : List Char :=
  Text.scan (wrapStep marker) (fun _ => []) s cs

theorem wrapFrom_space {c : Char} (h : isSpace c = true) (s : WrapState) (cs : List Char) :
    wrapFrom marker s (c :: cs) = c :: wrapFrom marker s cs := by
  have step : wrapStep marker s c cs = .emit [c] s := by
    rcases isSpace_cases h with rfl | rfl | rfl | rfl <;> simp [wrapStep, Text.isQuote, isSpace]
  exact Text.scan_emit step

theorem wrapFrom_spaces {w : List Char} (h : ∀ c ∈ w, isSpace c = true) (s : WrapState) (cs : List Char) :
    wrapFrom marker s (w ++ cs) = w ++ wrapFrom marker s cs := by
  induction w with
  | nil => rfl
  | cons c w ih =>
    obtain ⟨space, h⟩ := List.forall_mem_cons.1 h
    rw [List.cons_append, wrapFrom_space space, ih h, List.cons_append]

theorem wrapFrom_openBrace (s : WrapState) (cs : List Char) :
    wrapFrom marker s ('{' :: cs) = '{' :: wrapFrom marker ⟨true :: s.structures, true, false⟩ cs := by
  have step : wrapStep marker s '{' cs = .emit ['{'] ⟨true :: s.structures, true, false⟩ := rfl
  exact Text.scan_emit step

theorem wrapFrom_openBracket (s : WrapState) (cs : List Char) :
    wrapFrom marker s ('[' :: cs) = '[' :: wrapFrom marker ⟨false :: s.structures, false, true⟩ cs := by
  have step : wrapStep marker s '[' cs = .emit ['['] ⟨false :: s.structures, false, true⟩ := rfl
  exact Text.scan_emit step

theorem wrapFrom_closer {c : Char} (h : c = '}' ∨ c = ']') (s : WrapState) (cs : List Char) :
    wrapFrom marker s (c :: cs) = c :: wrapFrom marker ⟨s.structures.tail, false, false⟩ cs := by
  have step : wrapStep marker s c cs = .emit [c] ⟨s.structures.tail, false, false⟩ := by
    rcases h with rfl | rfl <;> rfl
  exact Text.scan_emit step

theorem wrapFrom_colon (s : WrapState) (cs : List Char) :
    wrapFrom marker s (':' :: cs) = ':' :: wrapFrom marker { s with atKey := false, atValue := true } cs := by
  have step : wrapStep marker s ':' cs = .emit [':'] { s with atKey := false, atValue := true } := rfl
  exact Text.scan_emit step

theorem wrapFrom_comma (s : WrapState) (cs : List Char) :
    wrapFrom marker s (',' :: cs) = ',' :: wrapFrom marker s.afterComma cs := by
  have step : wrapStep marker s ',' cs = .emit [','] s.afterComma := rfl
  exact Text.scan_emit step

/-- Where no value is due, quotations are copied. -/
theorem wrapFrom_closed {q : Char} {body : List Char} (isQuote : Text.isQuote q = true)
    (closes : ∀ rest, Text.closingLength? true q (body ++ rest) = some body.length) {s : WrapState}
    (copied : (s.atKey || !s.atValue) = true) (cs : List Char) :
    wrapFrom marker s (q :: (body ++ cs)) = q :: (body ++ wrapFrom marker s cs) := by
  have step : wrapStep marker s q (body ++ cs) = .swallow (q :: body) body.length s := by
    simp [wrapStep, isQuote, copied, quotationLength_of_closes closes]
  exact Text.scan_swallow step

theorem wrapFrom_quotation (q : Quotation) {s : WrapState} (copied : (s.atKey || !s.atValue) = true)
    (rest : List Char) : wrapFrom marker s (q.chars ++ rest) = q.chars ++ wrapFrom marker s rest :=
  wrapFrom_closed q.isQuote q.closes copied rest

/-- Where no value is due, characters that steer nothing are copied. -/
theorem wrapFrom_copied {text : List Char} (plain : ∀ c ∈ text, Text.isQuote c = false ∧ isStructural c = false)
    {s : WrapState} (copied : (s.atKey || !s.atValue) = true) (rest : List Char) :
    wrapFrom marker s (text ++ rest) = text ++ wrapFrom marker s rest := by
  induction text with
  | nil => rfl
  | cons c text ih =>
    obtain ⟨⟨quote, structural⟩, plain⟩ := List.forall_mem_cons.1 plain
    simp only [isStructural, Bool.or_eq_false_iff, beq_eq_false_iff_ne] at structural
    have step : wrapStep marker s c (text ++ rest) = .emit [c] s := by
      rw [wrapStep, quote, Bool.or_assoc, copied]
      simp [structural]
    rw [List.cons_append, List.cons_append, ← ih plain]
    exact Text.scan_emit step

/-- Where a value is due, all of it is taken in one step. -/
theorem wrapStep_value {c : Char} {text rest : List Char} {s : WrapState} (key : s.atKey = false)
    (value : s.atValue = true) (space : isSpace c = false) (structural : isStructural c = false)
    (length : valueLength 0 0 0 0 (c :: (text ++ rest)) = text.length + 1) :
    wrapStep marker s c (text ++ rest) = .swallow
      (if hasCall 0 (Text.trim (c :: text)) then wrapValue marker (Text.trim (c :: text)) else c :: text)
      text.length { s with atKey := s.inObject, atValue := false } := by
  simp only [isStructural, Bool.or_eq_false_iff, beq_eq_false_iff_ne] at structural
  simp [wrapStep, key, value, space, structural, length]

theorem wrapFrom_value {c : Char} {text rest : List Char} {s : WrapState} (key : s.atKey = false)
    (value : s.atValue = true) (space : isSpace c = false) (structural : isStructural c = false)
    (length : valueLength 0 0 0 0 (c :: (text ++ rest)) = text.length + 1) :
    wrapFrom marker s (c :: (text ++ rest)) =
      (if hasCall 0 (Text.trim (c :: text)) then wrapValue marker (Text.trim (c :: text)) else c :: text) ++
        wrapFrom marker { s with atKey := s.inObject, atValue := false } rest :=
  Text.scan_swallow (wrapStep_value key value space structural length)

end ExactFormula.Relaxed
