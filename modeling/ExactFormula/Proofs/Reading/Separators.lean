import ExactFormula.Proofs.Reading.Matched

/-!
The separators of arguments. The scan for the closing parenthesis of a call and the scan that splits its
arguments begin with different stacks, yet both follow the one pass over the text in between. The pass tells
which commas and semicolons are outside of everything.
-/

namespace ExactFormula

namespace Lexeme

def isSeparator (c : Char) : Bool := c == ',' || c == ';'

theorem steady_of_separator {c : Char} (separator : isSeparator c = true) : Steady c := steady_of_apart rfl separator

end Lexeme

/-! ## The separators that the pass meets -/

namespace Pass

/-- The commas and semicolons where nothing is open, as far as the pass comes. -/
def separators : Pass → List Char → List Char
  | _, [] => []
  | p, c :: cs => (if p = outside [] ∧ Lexeme.isSeparator c then [c] else []) ++ (p.step c).elim [] (·.separators cs)

variable {p p' : Pass} {c q : Char} {cs closers : List Char}

theorem separators_cons (step : p.step c = some p') (seamless : ¬(p = outside [] ∧ Lexeme.isSeparator c)) :
    p.separators (c :: cs) = p'.separators cs := by
  rw [separators, if_neg seamless, step]
  rfl

theorem separators_separator (separator : Lexeme.isSeparator c = true) (cs : List Char) :
    (outside []).separators (c :: cs) = c :: (outside []).separators cs := by
  have steady : Lexeme.Steady c := Lexeme.steady_of_separator separator
  have step : (outside []).step c = some (outside []) := by simp [step, steady.quote, steady.opens, steady.closes]
  rw [separators, if_pos ⟨rfl, separator⟩, step]
  rfl

theorem separators_append {text : List Char} (passed : run p text = some p') (rest : List Char) :
    p.separators (text ++ rest) = p.separators text ++ p'.separators rest := by
  induction text generalizing p with
  | nil =>
    cases passed
    rfl
  | cons c text ih =>
    obtain ⟨next, step, passed⟩ := Option.bind_eq_some_iff.1 passed
    rw [List.cons_append, separators, separators, step, Option.elim_some, Option.elim_some, ih passed,
      List.append_assoc]

/-- There are none in a quotation that is closed. -/
theorem separators_quoted {n : Nat} (closes : Text.closingLength? (Lexeme.escapesCount closers) q cs = some n) :
    (quoted closers q).separators cs = (outside closers).separators (cs.drop n) := by
  generalize escapes : Lexeme.escapesCount closers = counts at closes
  fun_induction Text.closingLength? counts q cs generalizing n with
  | case1 | case2 => cases closes
  | case3 c escape d cs ih =>
    obtain ⟨m, found, rfl⟩ := Option.map_eq_some_iff.1 closes
    have backslash : (quoted closers q).step c = some (escaped closers q) := if_pos (by rwa [escapes])
    have next : (escaped closers q).step d = some (quoted closers q) := rfl
    rw [separators_cons backslash (by simp), separators_cons next (by simp), ih found]
    rfl
  | case4 c cs escape closing =>
    cases closes
    have ends : (quoted closers q).step c = some (outside closers) := by
      rw [step, escapes, if_neg escape, if_pos closing]
    rw [separators_cons ends (by simp)]
    rfl
  | case5 c cs escape closing ih =>
    obtain ⟨m, found, rfl⟩ := Option.map_eq_some_iff.1 closes
    have goesOn : (quoted closers q).step c = some (quoted closers q) := by
      rw [step, escapes, if_neg escape, if_neg closing]
    rw [separators_cons goesOn (by simp), ih found]
    rfl

end Pass

namespace Lexeme

/-- The commas and semicolons outside of all quotations and groups of the text. -/
def outerSeparators (text : List Char) : List Char := Pass.separators (.outside []) text

/-- A text that is balanced on its own, with no separator outside of its quotations and groups. -/
structure IsPiece (text : List Char) : Prop where
  balanced : Balanced text
  seamless : outerSeparators text = []

/-- Pieces, the separators between them and the text that they make together. -/
inductive Separated : List (List Char) → List Char → List Char → Prop
  | last {text : List Char} (piece : IsPiece text) : Separated [text] [] text
  | more {text separators whole : List Char} {texts : List (List Char)} {c : Char} (piece : IsPiece text)
      (rest : Separated texts separators whole) : Separated (text :: texts) (c :: separators) (text ++ c :: whole)

/-- The pieces with the separators in their places. -/
def interleave : List (List Char) → List Char → List Char
  | piece :: pieces, c :: separators => piece ++ c :: interleave pieces separators
  | pieces, _ => pieces.flatten

namespace Separated

variable {pieces : List (List Char)} {separators whole : List Char}

theorem interleave_eq (h : Separated pieces separators whole) : interleave pieces separators = whole := by
  induction h with
  | last => exact List.flatten_singleton
  | more _ _ ih => rw [interleave, ih]

theorem length_eq (h : Separated pieces separators whole) : pieces.length = separators.length + 1 := by
  induction h with
  | last => rfl
  | more _ _ ih => rw [List.length_cons, List.length_cons, ih]

theorem isPiece (h : Separated pieces separators whole) : ∀ piece ∈ pieces, IsPiece piece := by
  induction h with
  | last piece => exact List.forall_mem_singleton.2 piece
  | more piece _ ih => exact List.forall_mem_cons.2 ⟨piece, ih⟩

end Separated

/-! ## Splitting follows the pass -/

/-- The pass goes over this text from one stack of closers to another and meets no separator on its way. -/
structure Passes (closers text closers' : List Char) : Prop where
  run : Pass.run (.outside closers) text = some (.outside closers')
  seamless : Pass.separators (.outside closers) text = []

namespace Passes

variable {closers closers' closers'' text text' : List Char}

theorem append (h : Passes closers text closers') (h' : Passes closers' text' closers'') :
    Passes closers (text ++ text') closers'' where
  run := by rw [Pass.run_append, h.run, Option.bind_some, h'.run]
  seamless := by rw [Pass.separators_append h.run, h.seamless, h'.seamless, List.append_nil]

theorem char {c : Char} (seamless : ¬(closers = [] ∧ isSeparator c))
    (step : Pass.step (.outside closers) c = some (.outside closers')) : Passes closers [c] closers' where
  run := by rw [Pass.run_cons, step]; rfl
  seamless := by
    rw [Pass.separators_cons step fun here => seamless ⟨Pass.outside.inj here.1, here.2⟩]
    rfl

theorem quotation {q : Char} {body : List Char} (isQuote : Text.isQuote q = true)
    (closes : Text.closingLength? (escapesCount closers) q body = some body.length) :
    Passes closers (q :: body) closers where
  run := by
    have passed := Pass.run_quoted closers q body
    rw [closes] at passed
    rw [Pass.run_quote isQuote, passed, List.drop_length]
    rfl
  seamless := by
    have open_ : Pass.step (.outside closers) q = some (.quoted closers q) := if_pos isQuote
    have other : isSeparator q = false := by rcases Text.isQuote_cases isQuote with rfl | rfl | rfl <;> rfl
    rw [Pass.separators_cons open_ (by simp [other]), Pass.separators_quoted closes, List.drop_length]
    rfl

end Passes

/-- Where the pass closes everything, a step either ends a piece at a separator outside of everything or takes
along what the pass takes, and a quotation is closed. -/
theorem splitStep_passes {s : SplitState} {c : Char} {cs : List Char}
    (closes : Pass.run (.outside s.closers) (c :: cs) = some (.outside [])) :
    (s.closers = [] ∧ isSeparator c = true ∧ splitStep s c cs = .swallow [s.piece.reverse] 0 ⟨[], []⟩) ∨
    ∃ taken rest closers, cs = taken ++ rest ∧ Passes s.closers (c :: taken) closers ∧
      splitStep s c cs = .swallow [] taken.length ⟨closers, (c :: taken).reverse ++ s.piece⟩ := by
  cases quote : Text.isQuote c with
  | true =>
    have passed := Pass.run_quoted s.closers c cs
    rw [Pass.run_quote quote] at closes
    cases found : Text.closingLength? (escapesCount s.closers) c cs with
    | none =>
      rw [found] at passed
      exact absurd closes (passed [])
    | some n =>
      obtain ⟨body, rest, rfl, rfl, ends⟩ := Text.exists_body found
      have ended := ends []
      rw [List.append_nil] at ended
      exact .inr ⟨body, rest, s.closers, rfl, .quotation quote ended, by simp [splitStep, quote, ends]⟩
  | false =>
  cases opens : isOpener c with
  | true =>
    have other : isSeparator c = false := by rcases isOpener_cases opens with rfl | rfl | rfl <;> rfl
    have step : Pass.step (.outside s.closers) c = some (.outside (closer c :: s.closers)) := by
      simp [Pass.step, quote, opens]
    exact .inr ⟨[], cs, closer c :: s.closers, rfl, .char (by simp [other]) step, by
      simp [splitStep, quote, opens]
      rfl⟩
  | false =>
  cases closing : isCloser c with
  | true =>
    have other : isSeparator c = false := by rcases isCloser_cases closing with rfl | rfl | rfl <;> rfl
    rw [Pass.run_closer closing] at closes
    split at closes
    case isTrue innermost =>
      have step : Pass.step (.outside s.closers) c = some (.outside s.closers.tail) := by
        simp [Pass.step, quote, opens, closing, innermost]
      exact .inr ⟨[], cs, s.closers.tail, rfl, .char (by simp [other]) step,
        by simp [splitStep, quote, opens, closing]; rfl⟩
    case isFalse => cases closes
  | false =>
  by_cases separator : s.closers = [] ∧ isSeparator c = true
  · refine .inl ⟨separator.1, separator.2, ?_⟩
    have outer : ((c == ',' || c == ';') && s.closers.isEmpty) = true := by
      rw [separator.1, List.isEmpty_nil, Bool.and_true]
      exact separator.2
    simp only [splitStep, quote, opens, closing, Bool.false_eq_true, ↓reduceIte, if_pos outer]
    rfl
  · have inner : ((c == ',' || c == ';') && s.closers.isEmpty) = false := by
      rw [← Bool.not_eq_true, Bool.and_eq_true, List.isEmpty_iff]
      exact fun here => separator here.symm
    have step : Pass.step (.outside s.closers) c = some (.outside s.closers) := by
      simp [Pass.step, quote, opens, closing]
    exact .inr ⟨[], cs, s.closers, rfl, .char separator step, by simp [splitStep, quote, opens, closing, inner]; rfl⟩

/-- A scan that goes on from this state splits the text that is left in pieces, as the pass does. -/
theorem separated_splitFrom (s : SplitState) (piece : Passes [] s.piece.reverse s.closers) (cs : List Char)
    (closes : Pass.run (.outside s.closers) cs = some (.outside [])) :
    Separated (splitFrom s cs) (Pass.separators (.outside s.closers) cs) (s.piece.reverse ++ cs) := by
  match cs with
  | [] =>
    have closed : s.closers = [] := Pass.outside.inj (Option.some.inj closes)
    rw [closed] at piece ⊢
    rw [List.append_nil]
    exact .last ⟨piece.run, piece.seamless⟩
  | c :: cs =>
    rcases splitStep_passes closes with ⟨outer, separator, step⟩ | ⟨taken, rest, closers, rfl, passes, step⟩
    · rw [outer] at piece closes ⊢
      rw [Pass.run_steady (steady_of_separator separator)] at closes
      rw [Pass.separators_separator separator, splitFrom, Text.scan_emit step]
      exact .more ⟨piece.run, piece.seamless⟩ (separated_splitFrom ⟨[], []⟩ ⟨rfl, rfl⟩ cs closes)
    · rw [← List.cons_append, Pass.run_append, passes.run] at closes
      have longer : Passes [] ((c :: taken).reverse ++ s.piece).reverse closers := by
        rw [List.reverse_append, List.reverse_reverse]
        exact piece.append passes
      have later := separated_splitFrom ⟨closers, (c :: taken).reverse ++ s.piece⟩ longer rest closes
      rw [List.reverse_append, List.reverse_reverse, List.append_assoc] at later
      rw [← List.cons_append, Pass.separators_append passes.run, passes.seamless, List.cons_append, splitFrom,
        Text.scan_swallow step]
      exact later
termination_by cs.length

/-- The arguments in balanced text are the pieces between the separators that the pass meets. -/
theorem separated_splitArgs {text : List Char} (balanced : Balanced text) :
    Separated (splitArgs text) (outerSeparators text) text :=
  separated_splitFrom ⟨[], []⟩ ⟨rfl, rfl⟩ text balanced

/-- Wherever the scan comes to, the pass closes everything in what is left. -/
theorem run_of_reaches {s t : SplitState} {cs rest : List Char} {out : List (List Char)}
    (h : Text.Reaches splitStep s cs out t rest) (closes : Pass.run (.outside s.closers) cs = some (.outside [])) :
    Pass.run (.outside t.closers) rest = some (.outside []) := by
  induction h with
  | here => exact closes
  | @next s t u c cs rest output out skip first later ih =>
    refine ih ?_
    rcases splitStep_passes closes with ⟨outer, separator, step⟩ | ⟨taken, left, closers, rfl, passes, step⟩
    · cases first.symm.trans step
      rwa [outer, Pass.run_steady (steady_of_separator separator)] at closes
    · cases first.symm.trans step
      rw [← List.cons_append, Pass.run_append, passes.run] at closes
      rw [List.drop_left]
      exact closes

/-! ## The text in parentheses -/

theorem skip_le_of_groupLength {opener : Char} {skip : Nat} {closers cs : List Char} {n : Nat}
    (h : groupLength opener skip closers cs = .ok n) : skip ≤ n := by
  induction cs generalizing skip n with
  | nil => rw [groupLength] at h; cases h
  | cons c cs ih =>
    cases skip with
    | zero => exact Nat.zero_le n
    | succ skip =>
      rw [groupLength] at h
      obtain ⟨m, found, rfl⟩ := exists_of_map_succ h
      exact Nat.succ_le_succ (ih found)

/-- A parenthesis below the open groups does not make escapes count. -/
theorem escapesCount_bottom (closers : List Char) : escapesCount (closers ++ [')']) = escapesCount closers := by
  simp [escapesCount]

/-- Where the scan finds the parenthesis below the open groups, the pass has closed them all. -/
theorem run_take_of_groupLength {opener : Char} {skip : Nat} {stack cs : List Char} {n : Nat}
    (h : groupLength opener skip stack cs = .ok n) {closers : List Char} (bottom : stack = closers ++ [')']) :
    Pass.run (.outside closers) ((cs.take n).drop skip) = some (.outside []) := by
  fun_induction groupLength opener skip stack cs generalizing n closers with
  | case1 | case4 | case6 => cases h
  | case2 _ _ _ _ ih =>
    obtain ⟨m, found, rfl⟩ := exists_of_map_succ h
    exact ih found bottom
  | case3 stack c cs quote k closes ih =>
    obtain ⟨m, found, rfl⟩ := exists_of_map_succ h
    have inside : Text.closingLength? (escapesCount closers) c (cs.take m) = some k := by
      rw [bottom, escapesCount_bottom] at closes
      have taken := Text.closingLength?_take closes ((cs.take m).drop k)
      have same : cs.take k = (cs.take m).take k := by
        rw [List.take_take, Nat.min_eq_left (skip_le_of_groupLength found)]
      rwa [same, List.take_append_drop] at taken
    have passed := Pass.run_quoted closers c (cs.take m)
    rw [inside] at passed
    rw [List.take_succ_cons, List.drop_zero, Pass.run_quote quote, passed]
    exact ih found bottom
  | case5 stack c cs _ opens ih =>
    obtain ⟨m, found, rfl⟩ := exists_of_map_succ h
    rw [List.take_succ_cons, List.drop_zero, Pass.run_opener opens]
    exact ih found (by rw [bottom, List.cons_append])
  | case7 stack c cs _ _ closes innermost only =>
    cases h
    have closed : closers = [] := by
      cases closers with
      | nil => rfl
      | cons d closers => simp [bottom] at only
    rw [closed]
    rfl
  | case8 stack c cs _ _ closes innermost more ih =>
    obtain ⟨m, found, rfl⟩ := exists_of_map_succ h
    cases closers with
    | nil => simp [bottom] at more
    | cons d closers =>
      have same : d = c := by simpa [bottom] using innermost
      rw [List.take_succ_cons, List.drop_zero, Pass.run_closer closes, same, if_pos List.head?_cons]
      exact ih found (congrArg List.tail bottom)
  | case9 stack c cs quote opens closes ih =>
    obtain ⟨m, found, rfl⟩ := exists_of_map_succ h
    have steady : Steady c := ⟨by simpa using quote, by simpa using opens, by simpa using closes⟩
    rw [List.take_succ_cons, List.drop_zero, Pass.run_steady steady]
    exact ih found bottom

/-- The text up to the closing parenthesis that the scan finds is balanced. -/
theorem balanced_of_groupLength {cs : List Char} {n : Nat} (h : groupLength '(' 0 [')'] cs = .ok n) :
    Balanced (cs.take n) := run_take_of_groupLength h (List.nil_append _).symm

/-- The arguments of a call, where the scan for its closing parenthesis finds their text, are the pieces of that text:
with the separators in their places they are the text again, there is one more of them than there are separators
outside of everything, each is balanced and holds no such separator, and no quotation in the text is open. -/
theorem splitArgs_lossless {cs : List Char} {n : Nat} (h : groupLength '(' 0 [')'] cs = .ok n) :
    cs[n]? = some ')' ∧
    interleave (splitArgs (cs.take n)) (outerSeparators (cs.take n)) = cs.take n ∧
    (splitArgs (cs.take n)).length = (outerSeparators (cs.take n)).length + 1 ∧
    (∀ piece ∈ splitArgs (cs.take n), Balanced piece ∧ outerSeparators piece = []) ∧
    ∀ out s q rest, Text.Reaches splitStep ⟨[], []⟩ (cs.take n) out s (q :: rest) → Text.isQuote q = true →
      Text.closingLength? (escapesCount s.closers) q rest ≠ none := by
  have balanced : Balanced (cs.take n) := balanced_of_groupLength h
  have separated : Separated (splitArgs (cs.take n)) (outerSeparators (cs.take n)) (cs.take n) :=
    separated_splitArgs balanced
  have behind : (cs.drop n).head? = some ')' := head?_of_groupLength h rfl
  refine ⟨by rwa [List.head?_drop] at behind, separated.interleave_eq, separated.length_eq,
    fun piece mem => ⟨(separated.isPiece piece mem).balanced, (separated.isPiece piece mem).seamless⟩, ?_⟩
  intro out s q rest reached quote open_
  have closes := run_of_reaches reached balanced
  have passed := Pass.run_quoted s.closers q rest
  rw [Pass.run_quote quote] at closes
  rw [open_] at passed
  exact passed [] closes

theorem splitArgs_lossless_nested :
    let cs := "a; f(b, ')'), \x7bk: \"\\\",\"\x7d) + 1".toList
    groupLength '(' 0 [')'] cs = .ok 24 ∧ outerSeparators (cs.take 24) = [';', ','] ∧
      interleave (splitArgs (cs.take 24)) [';', ','] = cs.take 24 ∧ (splitArgs (cs.take 24)).length = 3 := by
  intro cs
  have found : groupLength '(' 0 [')'] cs = .ok 24 := by decide +kernel
  have met : outerSeparators (cs.take 24) = [';', ','] := by decide
  have lossless := splitArgs_lossless found
  rw [met] at lossless
  exact ⟨found, met, lossless.2.1, lossless.2.2.1⟩

end Lexeme

end ExactFormula
