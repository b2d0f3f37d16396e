/-!
Double-quoted text with escapes, as JSON writes it.
-/

namespace ExactFormula.Text

/-- Quote, backslash and control characters are escaped, nothing else. -/
def escape (c : Char) : List Char :=
  if c == '"' then ['\\', '"']
  else if c == '\\' then ['\\', '\\']
  else if c == '\x08' then ['\\', 'b']
  else if c == '\x0c' then ['\\', 'f']
  else if c == '\n' then ['\\', 'n']
  else if c == '\r' then ['\\', 'r']
  else if c == '\t' then ['\\', 't']
  else if c.toNat < 0x20 then
    ['\\', 'u', '0', '0', Nat.digitChar (c.toNat / 16), Nat.digitChar (c.toNat % 16)]
  else [c]

def quote (cs : List Char) : List Char := '"' :: (cs.flatMap escape ++ ['"'])

def quoted (s : String) : String := String.ofList (quote s.toList)

/-- A character that needs no escape. -/
structure Plain (c : Char) : Prop where
  shown : 0x20 ≤ c.toNat
  inside : c ≠ '"'
  unescaped : c ≠ '\\'

theorem plain_of_toNat {c : Char} (h : 0x20 ≤ c.toNat ∧ c.toNat ≠ 0x22 ∧ c.toNat ≠ 0x5c) : Plain c where
  shown := h.1
  inside := by
    rintro rfl
    exact h.2.1 rfl
  unescaped := by
    rintro rfl
    exact h.2.2 rfl

theorem Plain.escape_eq {c : Char} (h : Plain c) : escape c = [c] := by
  have named : c ≠ '\x08' ∧ c ≠ '\x0c' ∧ c ≠ '\n' ∧ c ≠ '\r' ∧ c ≠ '\t' := by
    refine ⟨?_, ?_, ?_, ?_, ?_⟩ <;> rintro rfl <;> exact absurd h.shown (by decide)
  simp [escape, h.inside, h.unescaped, named, Nat.not_lt.2 h.shown]

theorem flatMap_escape_plain {cs : List Char} (h : ∀ c ∈ cs, Plain c) : cs.flatMap escape = cs := by
  induction cs with
  | nil => rfl
  | cons c cs ih =>
    obtain ⟨plain, h⟩ := List.forall_mem_cons.1 h
    rw [List.flatMap_cons, plain.escape_eq, ih h, List.singleton_append]

example : quoted "a\"b\\c\n\x01" = "\"a\\\"b\\\\c\\n\\u0001\"" := by rfl

end ExactFormula.Text
