/-!
Blank characters, the ones with the property White_Space, and trimming of text on either side.
-/

namespace ExactFormula.Text

def isBlank (c : Char) : Bool :=
  let n := c.toNat
  (9 ≤ n && n ≤ 13) || n == 0x20 || n == 0x85 || n == 0xA0 || n == 0x1680
    || (0x2000 ≤ n && n ≤ 0x200A) || n == 0x2028 || n == 0x2029 || n == 0x202F || n == 0x205F
    || n == 0x3000

def trimStart (cs : List Char) : List Char := cs.dropWhile isBlank

def trimEnd (cs : List Char) : List Char := (cs.reverse.dropWhile isBlank).reverse

def trim (cs : List Char) : List Char := trimEnd (trimStart cs)

def trimmed (s : String) : String := String.ofList (trim s.toList)

theorem trimEnd_append_blanks (cs : List Char) {w : List Char} (h : ∀ c ∈ w, isBlank c = true) :
    trimEnd (cs ++ w) = trimEnd cs := by
  have : (w.reverse ++ cs.reverse).dropWhile isBlank = cs.reverse.dropWhile isBlank := by
    rw [List.dropWhile_append_of_pos]
    simpa using h
  simp [trimEnd, this]

end ExactFormula.Text
