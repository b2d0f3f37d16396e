import ExactFormula.Proofs.Reading.Braces
import ExactFormula.Proofs.Reading.Lexed

/-!
Delimiters as one pass from left to right sees them, with a stack of the groups that are open. A text that
the pass leaves with nothing open is matched, as a grammar tells: it is made of plain characters, quotations
and groups of matched text. The scans that start anew in every group agree with that pass.
-/

namespace ExactFormula

/-! ## The pass -/

/-- What is open where a pass stands: the groups by their closers, the innermost first, and perhaps a
quotation, of which the last character may have been a backslash that takes the next one along. -/
inductive Pass
  | outside (closers : List Char)
  | quoted (closers : List Char) (quote : Char)
  | escaped (closers : List Char) (quote : Char)
  deriving DecidableEq

namespace Pass

def step : Pass → Char → Option Pass
  | outside closers, c =>
    if Text.isQuote c then some (quoted closers c)
    else if Lexeme.isOpener c then some (outside (Lexeme.closer c :: closers))
    else if Lexeme.isCloser c then if closers.head? = some c then some (outside closers.tail) else none
    else some (outside closers)
  | quoted closers quote, c =>
    if Lexeme.escapesCount closers && c == '\\' then some (escaped closers quote)
    else if c == quote then some (outside closers)
    else some (quoted closers quote)
  | escaped closers quote, _ => some (quoted closers quote)

def run (p : Pass) (text : List Char) : Option Pass := text.foldlM step p

end Pass

/-- One pass matches every closer, and leaves no group and no quotation open. -/
def Balanced (text : List Char) : Prop := Pass.run (.outside []) text = some (.outside [])

instance (text : List Char) : Decidable (Balanced text) := inferInstanceAs (Decidable (_ = _))

namespace Pass

variable {closers cs : List Char} {c q : Char}

theorem run_cons (p : Pass) (c : Char) (cs : List Char) : run p (c :: cs) = (p.step c).bind (·.run cs) := rfl

theorem run_append (p : Pass) (xs ys : List Char) : run p (xs ++ ys) = (run p xs).bind (·.run ys) := List.foldlM_append

theorem run_quote (quote : Text.isQuote q = true) (closers cs : List Char) :
    run (outside closers) (q :: cs) = run (quoted closers q) cs := by
  rw [run_cons, step, if_pos quote]
  rfl

theorem run_opener (opens : Lexeme.isOpener c = true) (closers cs : List Char) :
    run (outside closers) (c :: cs) = run (outside (Lexeme.closer c :: closers)) cs := by
  rw [run_cons, step, if_neg (by simp [(Lexeme.opener_facts opens).1]), if_pos opens]
  rfl

theorem run_steady (steady : Lexeme.Steady c) (closers cs : List Char) :
    run (outside closers) (c :: cs) = run (outside closers) cs := by
  rw [run_cons, step, if_neg (by simp [steady.quote]), if_neg (by simp [steady.opens]),
    if_neg (by simp [steady.closes])]
  rfl

theorem run_closer (closes : Lexeme.isCloser c = true) (closers cs : List Char) :
    run (outside closers) (c :: cs) = if closers.head? = some c then run (outside closers.tail) cs else none := by
  obtain ⟨quote, opens⟩ := Lexeme.closer_facts closes
  rw [run_cons, step, if_neg (by simp [quote]), if_neg (by simp [opens]), if_pos closes]
  split <;> rfl

/-- A quotation that is closed is passed as a whole; one that is not stays open. -/
theorem run_quoted (closers : List Char) (q : Char) (cs : List Char) :
    match Text.closingLength? (Lexeme.escapesCount closers) q cs with
    | some n => run (quoted closers q) cs = run (outside closers) (cs.drop n)
    | none => ∀ closers', run (quoted closers q) cs ≠ some (outside closers') := by
  generalize escapes : Lexeme.escapesCount closers = counts
  fun_induction Text.closingLength? counts q cs with
  | case1 => rintro _ ⟨⟩
  | case2 c escape =>
    rw [← escapes] at escape
    intro closers'
    rw [run_cons, step, if_pos escape]
    rintro ⟨⟩
  | case3 c escape d cs ih =>
    have passed : run (quoted closers q) (c :: d :: cs) = run (quoted closers q) cs := by
      rw [← escapes] at escape
      rw [run_cons, step, if_pos escape]
      rfl
    rw [passed]
    cases found : Text.closingLength? counts q cs with
    | none => simpa [found] using ih
    | some n => simpa [found] using ih
  | case4 c cs escape closing =>
    rw [← escapes] at escape
    rw [run_cons, step, if_neg escape, if_pos closing]
    rfl
  | case5 c cs escape closing ih =>
    have passed : run (quoted closers q) (c :: cs) = run (quoted closers q) cs := by
      rw [← escapes] at escape
      rw [run_cons, step, if_neg escape, if_neg closing]
      rfl
    rw [passed]
    cases found : Text.closingLength? counts q cs with
    | none => simpa [found] using ih
    | some n => simpa [found] using ih

end Pass

/-! ## Matched text -/

/-- The text, in which escapes count or not, closes what it opens and nothing else. -/
inductive Matched : (escapes : Bool) → List Char → Prop
  | nil {escapes : Bool} : Matched escapes []
  | plain {escapes : Bool} {c : Char} {cs : List Char} (steady : Lexeme.Steady c) (rest : Matched escapes cs) :
      Matched escapes (c :: cs)
  | quotation {escapes : Bool} {q : Char} {body cs : List Char} (isQuote : Text.isQuote q = true)
      (closes : ∀ rest, Text.closingLength? escapes q (body ++ rest) = some body.length) (rest : Matched escapes cs) :
      Matched escapes (q :: (body ++ cs))
  | group {escapes : Bool} {c : Char} {inner cs : List Char} (opens : Lexeme.isOpener c = true)
      (inside : Matched (escapes || Lexeme.closer c != ')') inner) (rest : Matched escapes cs) :
      Matched escapes (c :: (inner ++ Lexeme.closer c :: cs))

/-- Matched text, and behind it each of the closers with matched text. -/
def MatchedUpTo : (closers : List Char) → List Char → Prop
  | [], text => Matched false text
  | d :: closers, text => ∃ inner rest, text = inner ++ d :: rest ∧
      Matched (Lexeme.escapesCount (d :: closers)) inner ∧ MatchedUpTo closers rest

theorem Text.closingLength?_take {escapes : Bool} {q : Char} {cs : List Char} {n : Nat}
    (h : closingLength? escapes q cs = some n) (rest : List Char) :
    closingLength? escapes q (cs.take n ++ rest) = some n := by
  fun_induction closingLength? escapes q cs generalizing n with
  | case1 | case2 => cases h
  | case3 c escape d cs ih =>
    obtain ⟨m, found, rfl⟩ := Option.map_eq_some_iff.1 h
    simp only [List.take_succ_cons, List.cons_append, closingLength?, if_pos escape, ih found, Option.map_some]
  | case4 c cs escape closing =>
    cases h
    rw [List.take_succ_cons, List.cons_append, closingLength?.eq_def]
    simp only [if_neg escape, if_pos closing]
  | case5 c cs escape closing ih =>
    obtain ⟨m, found, rfl⟩ := Option.map_eq_some_iff.1 h
    rw [List.take_succ_cons, List.cons_append, closingLength?.eq_def]
    simp only [if_neg escape, if_neg closing, ih found, Option.map_some]

/-- A closed quotation is its body, the closing quote included, and what follows it. -/
theorem Text.exists_body {escapes : Bool} {q : Char} {cs : List Char} {n : Nat}
    (h : closingLength? escapes q cs = some n) : ∃ body rest, cs = body ++ rest ∧ n = body.length ∧
      ∀ rest, closingLength? escapes q (body ++ rest) = some body.length := by
  have length : (cs.take n).length = n := List.length_take_of_le (closingLength?_le h).2
  exact ⟨cs.take n, cs.drop n, (List.take_append_drop n cs).symm, length.symm, fun rest => by
    rw [length]
    exact closingLength?_take h rest⟩

namespace Matched

variable {escapes : Bool} {closers text text' : List Char}

theorem append (h : Matched escapes text) (h' : Matched escapes text') : Matched escapes (text ++ text') := by
  induction h with
  | nil => exact h'
  | plain steady rest ih => exact .plain steady (ih h')
  | quotation isQuote closes rest ih =>
    rw [List.cons_append, List.append_assoc]
    exact .quotation isQuote closes (ih h')
  | group opens inside rest _ ih =>
    rw [List.cons_append, List.append_assoc]
    exact .group opens inside (ih h')

/-- Characters that neither open nor close anything, in front of matched text. -/
theorem word {w : List Char}
    (plain : (w.all fun c => !Text.isQuote c && !Lexeme.isOpener c && !Lexeme.isCloser c) = true)
    (h : Matched escapes text) : Matched escapes (w ++ text) := by
  induction w with
  | nil => exact h
  | cons c w ih =>
    simp only [List.all_cons, Bool.and_eq_true, Bool.not_eq_true'] at plain
    obtain ⟨⟨⟨quote, opens⟩, closes⟩, plain⟩ := plain
    exact .plain ⟨quote, opens, closes⟩ (ih (by simpa using plain))

theorem tail {c : Char} (h : Matched escapes (c :: text)) (steady : Lexeme.Steady c) : Matched escapes text := by
  generalize split : c :: text = whole at h
  cases h with
  | nil => cases split
  | plain _ rest =>
    cases split
    exact rest
  | quotation isQuote =>
    cases split
    rw [steady.quote] at isQuote
    cases isQuote
  | group opens =>
    cases split
    rw [steady.opens] at opens
    cases opens

/-- What may stand in front of matched text may stand in front of the first segment. -/
theorem upTo_append (h : Matched (Lexeme.escapesCount closers) text) (rest : MatchedUpTo closers text') :
    MatchedUpTo closers (text ++ text') := by
  cases closers with
  | nil => exact h.append rest
  | cons d closers =>
    obtain ⟨inner, behind, rfl, matched, rest⟩ := rest
    exact ⟨text ++ inner, behind, (List.append_assoc ..).symm, h.append matched, rest⟩

theorem run_eq (h : Matched escapes text) (closers : List Char) (counts : Lexeme.escapesCount closers = escapes) :
    Pass.run (.outside closers) text = some (.outside closers) := by
  induction h generalizing closers with
  | nil => rfl
  | plain steady rest ih => rw [Pass.run_steady steady, ih closers counts]
  | @quotation escapes q body cs isQuote closes rest ih =>
    have passed := Pass.run_quoted closers q (body ++ cs)
    rw [counts, closes cs] at passed
    dsimp only at passed
    rw [Pass.run_quote isQuote, passed, List.drop_left, ih closers counts]
  | @group escapes c inner cs opens inside rest ih ih' =>
    have deeper : Lexeme.escapesCount (Lexeme.closer c :: closers) = (escapes || Lexeme.closer c != ')') := by
      rw [Lexeme.escapesCount, List.any_cons, Bool.or_comm, ← counts, Lexeme.escapesCount]
    rw [Pass.run_opener opens, Pass.run_append, ih _ deeper, Option.bind_some,
      Pass.run_closer ((Lexeme.opener_facts opens).2), if_pos List.head?_cons, List.tail_cons, ih' closers counts]

end Matched

theorem matchedUpTo_of_run (closers : List Char) : (text : List Char) →
    Pass.run (.outside closers) text = some (.outside []) → MatchedUpTo closers text
  | [], h => by
    cases h
    exact Matched.nil
  | c :: cs, h => by
    cases quote : Text.isQuote c with
    | true =>
      rw [Pass.run_quote quote] at h
      have passed := Pass.run_quoted closers c cs
      cases found : Text.closingLength? (Lexeme.escapesCount closers) c cs with
      | none =>
        rw [found] at passed
        exact absurd h (passed [])
      | some n =>
        rw [found] at passed
        obtain ⟨body, rest, rfl, rfl, closes⟩ := Text.exists_body found
        dsimp only at passed
        rw [passed, List.drop_left] at h
        have quotation : Matched (Lexeme.escapesCount closers) (c :: (body ++ [])) := .quotation quote closes .nil
        rw [List.append_nil] at quotation
        exact quotation.upTo_append (matchedUpTo_of_run closers rest h)
    | false =>
    cases opens : Lexeme.isOpener c with
    | true =>
      rw [Pass.run_opener opens] at h
      obtain ⟨inner, rest, rfl, inside, behind⟩ := matchedUpTo_of_run (Lexeme.closer c :: closers) cs h
      rw [Lexeme.escapesCount, List.any_cons, Bool.or_comm] at inside
      have group : Matched (Lexeme.escapesCount closers) (c :: (inner ++ [Lexeme.closer c])) := .group opens inside .nil
      rw [List.append_cons, ← List.cons_append]
      exact group.upTo_append behind
    | false =>
    cases closes : Lexeme.isCloser c with
    | true =>
      rw [Pass.run_closer closes] at h
      split at h
      case isTrue innermost =>
        obtain ⟨closers, rfl⟩ := List.head?_eq_some_iff.1 innermost
        exact ⟨[], cs, rfl, .nil, matchedUpTo_of_run closers cs h⟩
      case isFalse => cases h
    | false =>
      have steady : Lexeme.Steady c := ⟨quote, opens, closes⟩
      rw [Pass.run_steady steady] at h
      exact (Matched.plain steady .nil).upTo_append (matchedUpTo_of_run closers cs h)
termination_by text => text.length

/-- Balanced text is matched text in which no escapes count. -/
theorem balanced_iff_matched {text : List Char} : Balanced text ↔ Matched false text :=
  ⟨matchedUpTo_of_run [] text, fun h => h.run_eq [] rfl⟩

end ExactFormula
