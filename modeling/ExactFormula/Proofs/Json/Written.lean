import ExactFormula.Json.Token
import ExactFormula.Text.Quotation
import ExactFormula.Text.Quoted

/-!
Strings as they are written between two quotes, and what they denote. With double quotes these are the
strings of JSON; the quote itself may always be written behind a backslash. Scanners that look for the
closing quote find it, and the JSON reader decodes what was written.
-/

namespace ExactFormula.Json

/-- What may stand behind a backslash, with the character that it denotes. -/
def namedEscapes : List (Char × Char) :=
  [('"', '"'), ('\\', '\\'), ('/', '/'), ('b', '\x08'), ('f', '\x0c'), ('n', '\n'), ('r', '\r'), ('t', '\t')]

/-- Between two quotes `q`, the characters `raw` denote the second list. A character past the basic plane
is written by a pair of escapes, none of which stands alone. -/
inductive Written (q : Char) : (raw text : List Char) → Prop
  | nil : Written q [] []
  | plain {c raw text} (shown : 0x20 ≤ c.toNat) (inside : c ≠ q) (unescaped : c ≠ '\\')
    (rest : Written q raw text) : Written q (c :: raw) (c :: text)
  | quote {raw text} (rest : Written q raw text) : Written q ('\\' :: q :: raw) (q :: text)
  | named {e c raw text} (known : (e, c) ∈ namedEscapes) (rest : Written q raw text) :
    Written q ('\\' :: e :: raw) (c :: text)
  | unicode {a b c d n raw text} (hex : hexNumber [a, b, c, d] = .ok n) (single : n < 0xD800 ∨ 0xDFFF < n)
    (rest : Written q raw text) : Written q ('\\' :: 'u' :: a :: b :: c :: d :: raw) (Char.ofNat n :: text)
  | pair {a b c d a' b' c' d' high low raw text} (hex : hexNumber [a, b, c, d] = .ok high)
    (hex' : hexNumber [a', b', c', d'] = .ok low) (isHigh : 0xD800 ≤ high ∧ high ≤ 0xDBFF)
    (isLow : 0xDC00 ≤ low ∧ low ≤ 0xDFFF) (rest : Written q raw text) :
    Written q ('\\' :: 'u' :: a :: b :: c :: d :: '\\' :: 'u' :: a' :: b' :: c' :: d' :: raw)
      (Char.ofNat (0x10000 + (high - 0xD800) * 0x400 + (low - 0xDC00)) :: text)

variable {q : Char} {raw text : List Char}

/-! ## The closing quote -/

theorem hexDigit?_of_hexNumber {a b c d : Char} {n : Nat} (h : hexNumber [a, b, c, d] = .ok n) :
    ∀ x ∈ [a, b, c, d], hexDigit? x ≠ none := by
  intro x mem unknown
  have failed : [a, b, c, d].mapM hexDigit? = none := by
    simp only [List.mem_cons, List.not_mem_nil, or_false] at mem
    rcases mem with rfl | rfl | rfl | rfl <;> simp [unknown]
  simp only [hexNumber, List.take_succ_cons, List.take_nil, failed] at h
  split at h <;> cases h

theorem hexDigit?_quote {c : Char} (h : Text.isQuote c = true) : hexDigit? c = none := by
  rcases Text.isQuote_cases h with rfl | rfl | rfl <;> decide

/-- A character that ends no quotation and starts no escape. -/
def Harmless (q c : Char) : Prop := c ≠ q ∧ c ≠ '\\'

theorem harmless_of_hexNumber {a b c d : Char} {n : Nat} (hq : Text.isQuote q = true)
    (h : hexNumber [a, b, c, d] = .ok n) : ∀ x ∈ [a, b, c, d], Harmless q x := by
  intro x mem
  have known := hexDigit?_of_hexNumber h x mem
  constructor
  · rintro rfl
    exact known (hexDigit?_quote hq)
  · rintro rfl
    exact known (by decide)

theorem closingLength?_harmless {c : Char} (h : Harmless q c) (cs : List Char) :
    Text.closingLength? true q (c :: cs) = (Text.closingLength? true q cs).map (· + 1) := by
  rw [Text.closingLength?.eq_def]
  simp [h.1, h.2]

theorem closingLength?_escape (c : Char) (cs : List Char) :
    Text.closingLength? true q ('\\' :: c :: cs) = (Text.closingLength? true q cs).map (· + 2) := by
  simp [Text.closingLength?]

theorem closingLength?_hex {a b c d : Char} {n : Nat} (hq : Text.isQuote q = true)
    (h : hexNumber [a, b, c, d] = .ok n) (cs : List Char) :
    Text.closingLength? true q ('\\' :: 'u' :: a :: b :: c :: d :: cs) =
      (Text.closingLength? true q cs).map (· + 6) := by
  have harmless := harmless_of_hexNumber hq h
  simp only [List.forall_mem_cons, List.not_mem_nil, false_imp_iff, implies_true, and_true] at harmless
  obtain ⟨ha, hb, hc, hd⟩ := harmless
  rw [closingLength?_escape, closingLength?_harmless ha, closingLength?_harmless hb,
    closingLength?_harmless hc, closingLength?_harmless hd]
  simp [Option.map_map, Function.comp_def]

theorem Written.closingLength?_eq (h : Written q raw text) (hq : Text.isQuote q = true) (rest : List Char) :
    Text.closingLength? true q (raw ++ q :: rest) = some (raw.length + 1) := by
  induction h with
  | nil =>
    have unescaped : q ≠ '\\' := by
      rintro rfl
      cases hq
    rw [List.nil_append, Text.closingLength?.eq_def]
    simp [unescaped]
  | plain shown inside unescaped _ ih => simp [closingLength?_harmless ⟨inside, unescaped⟩, ih]
  | quote _ ih => simp [closingLength?_escape, ih]
  | named _ _ ih => simp [closingLength?_escape, ih]
  | unicode hex _ _ ih => simp [closingLength?_hex hq hex, ih]
  | pair hex hex' _ _ _ ih => simp [closingLength?_hex hq hex, closingLength?_hex hq hex', ih]

theorem Written.quotationLength_eq (h : Written q raw text) (hq : Text.isQuote q = true)
    (rest : List Char) : Text.quotationLength q (raw ++ q :: rest) = raw.length + 1 := by
  rw [Text.quotationLength, h.closingLength?_eq hq]
  rfl

/-! ## Decoding -/

theorem simpleEscape?_of_named {e c : Char} (h : (e, c) ∈ namedEscapes) :
    simpleEscape? e = some c ∧ e ≠ 'u' := by
  simp only [namedEscapes, List.mem_cons, List.not_mem_nil, or_false, Prod.mk.injEq] at h
  rcases h with ⟨rfl, rfl⟩ | ⟨rfl, rfl⟩ | ⟨rfl, rfl⟩ | ⟨rfl, rfl⟩ | ⟨rfl, rfl⟩ | ⟨rfl, rfl⟩ |
    ⟨rfl, rfl⟩ | ⟨rfl, rfl⟩ <;> decide

/-- Of the quotes only the double one has an escape of its own. -/
theorem isQuote_of_named {e c : Char} (h : (e, c) ∈ namedEscapes) (quote : Text.isQuote e = true) : e = '"' := by
  simp only [namedEscapes, List.mem_cons, List.not_mem_nil, or_false, Prod.mk.injEq] at h
  rcases h with ⟨rfl, -⟩ | ⟨rfl, -⟩ | ⟨rfl, -⟩ | ⟨rfl, -⟩ | ⟨rfl, -⟩ | ⟨rfl, -⟩ | ⟨rfl, -⟩ | ⟨rfl, -⟩ <;>
    first | rfl | cases quote

/-- Only four characters count. -/
theorem hexNumber_cons {a b c d : Char} {n : Nat} (h : hexNumber [a, b, c, d] = .ok n) (cs : List Char) :
    hexNumber (a :: b :: c :: d :: cs) = .ok n := h

theorem unicodeEscape_single {a b c d : Char} {n : Nat} (hex : hexNumber [a, b, c, d] = .ok n)
    (single : n < 0xD800 ∨ 0xDFFF < n) (cs : List Char) :
    unicodeEscape (a :: b :: c :: d :: cs) = .ok (Char.ofNat n, 4) := by
  have high : isHighSurrogate n = false := by
    rw [isHighSurrogate, ← Bool.decide_and, decide_eq_false_iff_not]
    omega
  have low : isLowSurrogate n = false := by
    rw [isLowSurrogate, ← Bool.decide_and, decide_eq_false_iff_not]
    omega
  simp only [unicodeEscape, hexNumber_cons hex, bind, Except.bind, high, low]
  rfl

theorem unicodeEscape_pair {a b c d a' b' c' d' : Char} {high low : Nat}
    (hex : hexNumber [a, b, c, d] = .ok high) (hex' : hexNumber [a', b', c', d'] = .ok low)
    (isHigh : 0xD800 ≤ high ∧ high ≤ 0xDBFF) (isLow : 0xDC00 ≤ low ∧ low ≤ 0xDFFF) (cs : List Char) :
    unicodeEscape (a :: b :: c :: d :: '\\' :: 'u' :: a' :: b' :: c' :: d' :: cs) =
      .ok (Char.ofNat (0x10000 + (high - 0xD800) * 0x400 + (low - 0xDC00)), 10) := by
  have high₁ : isHighSurrogate high = true := by
    rw [isHighSurrogate, ← Bool.decide_and, decide_eq_true_iff]
    omega
  have low₁ : isLowSurrogate high = false := by
    rw [isLowSurrogate, ← Bool.decide_and, decide_eq_false_iff_not]
    omega
  have low₂ : isLowSurrogate low = true := by
    rw [isLowSurrogate, ← Bool.decide_and, decide_eq_true_iff]
    omega
  simp only [unicodeEscape, hexNumber_cons hex, bind, Except.bind, high₁, low₁, List.drop_succ_cons,
    List.drop_zero, hexNumber_cons hex', low₂]
  rfl

theorem Written.content_eq (h : Written '"' raw text) (rest : List Char) :
    content 0 (raw ++ '"' :: rest) = .ok text := by
  induction h with
  | nil => rfl
  | plain shown inside unescaped _ ih =>
    have shown' := Nat.not_lt.2 shown
    simp [content, inside, unescaped, shown', ih, Except.map]
  | quote _ ih => simp [content, simpleEscape?, ih, Except.map]
  | named known _ ih =>
    obtain ⟨simple, other⟩ := simpleEscape?_of_named known
    simp [content, simple, ih, Except.map]
  | unicode hex single _ ih =>
    simp [content, unicodeEscape_single hex single, ih, Except.map]
  | pair hex hex' isHigh isLow _ ih =>
    simp [content, unicodeEscape_pair hex hex' isHigh isLow, ih, Except.map]

theorem Written.stringLength_eq (h : Written '"' raw text) (rest : List Char) :
    stringLength 0 (raw ++ '"' :: rest) = .ok (raw.length + 1) := by
  induction h with
  | nil => rfl
  | plain shown inside unescaped _ ih =>
    have shown' := Nat.not_lt.2 shown
    simp [stringLength, inside, unescaped, shown', ih, Except.map]
  | quote _ ih => simp [stringLength, simpleEscape?, ih, Except.map]
  | named known _ ih =>
    have simple := simpleEscape?_of_named known
    simp [stringLength, simple, ih, Except.map]
  | unicode hex single _ ih =>
    simp [stringLength, hexNumber_cons hex, ih, Except.map]
  | pair hex hex' isHigh isLow _ ih =>
    simp [stringLength, hexNumber_cons hex, hexNumber_cons hex', ih, Except.map]

/-! ## Writing -/

theorem hexDigit?_digitChar : ∀ n < 16, hexDigit? (Nat.digitChar n) = some n := by decide

theorem hexNumber_control {n : Nat} (h : n < 0x20) :
    hexNumber ['0', '0', Nat.digitChar (n / 16), Nat.digitChar (n % 16)] = .ok n := by
  have zero : hexDigit? '0' = some 0 := rfl
  have high := hexDigit?_digitChar (n / 16) (by omega)
  have low := hexDigit?_digitChar (n % 16) (by omega)
  have digits : ['0', '0', Nat.digitChar (n / 16), Nat.digitChar (n % 16)].mapM hexDigit? =
      some [0, 0, n / 16, n % 16] := by
    simp [zero, high, low]
  simp only [hexNumber, List.take_succ_cons, List.take_nil, digits]
  congr 1
  omega

theorem Written.escape (c : Char) (h : Written '"' raw text) :
    Written '"' (Text.escape c ++ raw) (c :: text) := by
  have named {e : Char} (known : (e, c) ∈ namedEscapes) : Written '"' ('\\' :: e :: raw) (c :: text) :=
    .named known h
  simp only [Text.escape, beq_iff_eq]
  split
  · exact named (by subst c; decide)
  split
  · exact named (by subst c; decide)
  split
  · exact named (by subst c; decide)
  split
  · exact named (by subst c; decide)
  split
  · exact named (by subst c; decide)
  split
  · exact named (by subst c; decide)
  split
  · exact named (by subst c; decide)
  split
  case isTrue control =>
    have written := Written.unicode (hexNumber_control control) (.inl (by omega)) h
    rwa [Char.ofNat_toNat] at written
  case isFalse inside unescaped _ _ _ _ _ shown => exact .plain (Nat.not_lt.1 shown) inside unescaped h

theorem Written.flatMap_escape (text : List Char) : Written '"' (text.flatMap Text.escape) text := by
  induction text with
  | nil => exact .nil
  | cons c text ih => exact ih.escape c

end ExactFormula.Json
