/-!
Quotations: text between two equal quotes. Where escapes count, a backslash takes the character
behind it along, so a quote there does not close.
-/

namespace ExactFormula.Text

def isQuote (c : Char) : Bool := c == '"' || c == '\'' || c == '`'

theorem isQuote_cases {c : Char} (h : isQuote c = true) : c = '"' ∨ c = '\'' ∨ c = '`' := by
  simpa only [isQuote, Bool.or_eq_true, beq_iff_eq, or_assoc] using h

/-- The count of characters up to the closing quote, that one included, if there is one. -/
def closingLength? (escapes : Bool) (quote : Char) : List Char → Option Nat
  | [] => none
  | c :: cs =>
    if escapes && c == '\\' then
      match cs with
      | [] => none
      | _ :: cs => (closingLength? escapes quote cs).map (· + 2)
    else if c == quote then some 1
    else (closingLength? escapes quote cs).map (· + 1)

/-- The same count, where an open quotation goes on to the end of the text. -/
def quotationLength (quote : Char) (cs : List Char) : Nat :=
  (closingLength? true quote cs).getD cs.length

theorem closingLength?_le {escapes : Bool} {quote : Char} {cs : List Char} {n : Nat}
    (h : closingLength? escapes quote cs = some n) : 0 < n ∧ n ≤ cs.length := by
  fun_induction closingLength? escapes quote cs generalizing n with
  | case1 => simp at h
  | case2 => simp at h
  | case3 c _ d cs ih =>
    obtain ⟨m, hm, rfl⟩ := Option.map_eq_some_iff.1 h
    have := ih hm
    simp only [List.length_cons]
    omega
  | case4 =>
    cases h
    simp
  | case5 c cs _ _ ih =>
    obtain ⟨m, hm, rfl⟩ := Option.map_eq_some_iff.1 h
    have := ih hm
    simp only [List.length_cons]
    omega

end ExactFormula.Text
