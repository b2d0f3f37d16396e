import ExactFormula.Proofs.Reading.Delimiters

/-!
The scans of formula text on matched text. The scan for a closing delimiter passes over it, the scan for
lexemes finds no delimiter without its partner, and what is read on its own, groups and arguments, is matched
again.
-/

namespace ExactFormula

namespace Lexeme

variable {escapes : Bool} {closers text cs : List Char}

theorem escapesCount_cons (d : Char) (closers : List Char) :
    escapesCount (d :: closers) = (escapesCount closers || d != ')') := by
  rw [escapesCount, List.any_cons, Bool.or_comm, escapesCount]

/-- The scan for a closing delimiter passes over matched text. -/
theorem groupLength_matched (h : Matched escapes text) (opener : Char) {closers : List Char} (open_ : closers ≠ [])
    (counts : escapesCount closers = escapes) (rest : List Char) : groupLength opener 0 closers (text ++ rest) =
      (groupLength opener 0 closers rest).map (· + text.length) := by
  induction h generalizing closers rest with
  | nil =>
    rw [List.nil_append]
    cases groupLength opener 0 closers rest <;> rfl
  | plain steady behind ih =>
    rw [List.cons_append, groupLength, steady.quote, steady.opens, steady.closes]
    simp only [Bool.false_eq_true, ↓reduceIte]
    rw [ih open_ counts, map_add, List.length_cons, Nat.add_comm]
  | @quotation escapes q body cs isQuote closes behind ih =>
    rw [List.cons_append, List.append_assoc, groupLength, if_pos isQuote, counts, closes]
    dsimp only
    rw [groupLength_skip, ih open_ counts, map_add, map_add, List.length_cons, List.length_append]
    congr 2
    funext n
    omega
  | @group escapes c inner cs opens inside behind ih ih' =>
    have more : closers.isEmpty = false := by simpa using open_
    rw [List.cons_append, List.append_assoc, groupLength_opener opens,
      ih (List.cons_ne_nil _ _) (by rw [escapesCount_cons, counts]), List.cons_append, groupLength_closer opens, more,
      if_neg Bool.false_ne_true, ih' open_ counts, map_add, map_add, map_add, List.length_cons, List.length_append,
      List.length_cons]
    congr 2
    funext n
    omega

/-- Where the scan finds the closing delimiter, the pass has closed all the groups. -/
theorem run_of_groupLength {opener : Char} {skip : Nat} {n : Nat} (open_ : closers ≠ [])
    (h : groupLength opener skip closers cs = .ok n) :
    Pass.run (.outside closers) (cs.drop skip) = Pass.run (.outside []) (cs.drop (n + 1)) := by
  fun_induction groupLength opener skip closers cs generalizing n with
  | case1 | case4 | case6 => cases h
  | case2 _ _ _ _ ih =>
    obtain ⟨m, found, rfl⟩ := exists_of_map_succ h
    exact ih open_ found
  | case3 closers c cs quote k closes ih =>
    obtain ⟨m, found, rfl⟩ := exists_of_map_succ h
    have passed := Pass.run_quoted closers c cs
    rw [closes] at passed
    rw [List.drop_zero, Pass.run_quote quote, passed]
    exact ih open_ found
  | case5 closers c cs _ opens ih =>
    obtain ⟨m, found, rfl⟩ := exists_of_map_succ h
    rw [List.drop_zero, Pass.run_opener opens]
    exact ih (List.cons_ne_nil _ _) found
  | case7 closers c cs _ _ closes innermost only =>
    cases h
    rw [bne_iff_ne, ne_eq, Decidable.not_not] at innermost
    rw [List.isEmpty_iff] at only
    rw [List.drop_zero, Pass.run_closer closes, if_pos innermost, only]
    rfl
  | case8 closers c cs _ _ closes innermost more ih =>
    obtain ⟨m, found, rfl⟩ := exists_of_map_succ h
    rw [bne_iff_ne, ne_eq, Decidable.not_not] at innermost
    rw [List.drop_zero, Pass.run_closer closes, if_pos innermost]
    exact ih (by simpa using more) found
  | case9 closers c cs quote opens closes ih =>
    obtain ⟨m, found, rfl⟩ := exists_of_map_succ h
    rw [List.drop_zero, Pass.run_steady ⟨by simpa using quote, by simpa using opens, by simpa using closes⟩]
    exact ih open_ found

/-! ## Lexemes -/

/-- A text whose delimiters all have their partners is balanced. -/
theorem run_of_lexFrom (pending : List Char) : (cs : List Char) → (∀ d, unmatched d ∉ lexFrom pending cs) →
    Pass.run (.outside []) cs = some (.outside [])
  | [], _ => rfl
  | c :: cs, partners => by
    have behind {l : Lexeme} {ls : List Lexeme} {d : Char} (h : unmatched d ∈ ls) :
        unmatched d ∈ flush pending ++ l :: ls := List.mem_append_right _ (List.mem_cons_of_mem _ h)
    cases quote : Text.isQuote c with
    | true =>
      cases found : Text.closingLength? false c cs with
      | none => exact absurd (lexFrom_openQuotation pending quote found) (partners c)
      | some n =>
        have passed := Pass.run_quoted [] c cs
        rw [show escapesCount [] = false from rfl, found] at passed
        rw [Pass.run_quote quote, passed]
        rw [lexFrom_quotation quote found] at partners
        exact run_of_lexFrom [] (cs.drop n) fun d mem => partners d (behind mem)
    | false =>
    cases opens : isOpener c with
    | true =>
      cases found : groupLength c 0 [closer c] cs with
      | error d => exact absurd (lexFrom_openGroup pending opens found) (partners d)
      | ok n =>
        have closed := run_of_groupLength (List.cons_ne_nil _ _) found
        rw [List.drop_zero] at closed
        rw [Pass.run_opener opens, closed]
        rw [lexFrom_group opens found] at partners
        exact run_of_lexFrom [] (cs.drop (n + 1)) fun d mem => partners d (behind mem)
    | false =>
    cases closes : isCloser c with
    | true => exact absurd (lexFrom_closer quote opens closes) (partners c)
    | false =>
    have steady : Steady c := ⟨quote, opens, closes⟩
    rw [Pass.run_steady steady]
    cases blank : Text.isBlank c with
    | true =>
      rw [lexFrom_blank steady blank] at partners
      exact run_of_lexFrom [] cs fun d mem => partners d (List.mem_append_right _ mem)
    | false =>
    cases sign : isOperatorChar c && !continuesExponent pending c with
    | true =>
      rcases lexFrom_sign cs steady blank sign with scanned | ⟨d, rest, op, rfl, chars, scanned⟩
      · rw [scanned] at partners
        exact run_of_lexFrom [] cs fun d mem => partners d (behind mem)
      · rw [scanned] at partners
        rw [Pass.run_steady (steady_of_binary chars)]
        exact run_of_lexFrom [] rest fun d mem => partners d (behind mem)
    | false =>
      rw [lexFrom_char steady blank sign] at partners
      exact run_of_lexFrom (c :: pending) cs partners
termination_by cs => cs.length

/-- The delimiter of the lexeme has its partner, and a text in parentheses is matched. -/
def Closed : Lexeme → Prop
  | unmatched _ => False
  | parens inner => Matched false inner
  | _ => True

theorem closed_flush (pending : List Char) : ∀ l ∈ flush pending, l.Closed := by
  intro l mem
  rw [flush] at mem
  split at mem
  · cases mem
  · cases List.mem_singleton.1 mem
    trivial

theorem closed_ofGroup {c : Char} (opens : isOpener c = true) {inner : List Char}
    (matched : Matched (closer c != ')') inner) : (ofGroup c inner).Closed := by
  rcases isOpener_cases opens with rfl | rfl | rfl
  · exact matched
  · trivial
  · trivial

/-- A group of matched text is one lexeme. -/
theorem lexFrom_matched {c : Char} (opens : isOpener c = true) {inner : List Char}
    (inside : Matched (closer c != ')') inner) (pending cs : List Char) :
    lexFrom pending (c :: (inner ++ closer c :: cs)) = flush pending ++ ofGroup c inner :: lexFrom [] cs := by
  have found : groupLength c 0 [closer c] (inner ++ closer c :: cs) = .ok inner.length := by
    rw [groupLength_matched inside c (List.cons_ne_nil _ _) (escapesCount_cons _ _), groupLength_closer opens]
    exact congrArg Except.ok (Nat.zero_add _)
  have behind : (inner ++ closer c :: cs).drop (inner.length + 1) = cs := by simp
  rw [lexFrom_group opens found, List.take_left, behind]

/-- The lexemes of matched text are closed. -/
theorem closed_lexFrom {text : List Char} (h : Matched false text) (pending : List Char) :
    ∀ l ∈ lexFrom pending text, l.Closed := by
  have joined {l : Lexeme} {ls : List Lexeme} (here : l.Closed) (later : ∀ l ∈ ls, l.Closed) :
      ∀ x ∈ flush pending ++ l :: ls, x.Closed :=
    List.forall_mem_append.2 ⟨closed_flush pending, List.forall_mem_cons.2 ⟨here, later⟩⟩
  cases h with
  | nil => exact closed_flush pending
  | @quotation _ q body cs isQuote closes rest =>
    rw [lexFrom_quotation isQuote (closes cs), List.drop_left]
    exact joined trivial (closed_lexFrom rest [])
  | @group _ c inner cs opens inside rest =>
    rw [lexFrom_matched opens inside]
    exact joined (closed_ofGroup opens inside) (closed_lexFrom rest [])
  | @plain _ c cs steady rest =>
    cases blank : Text.isBlank c with
    | true =>
      rw [lexFrom_blank steady blank]
      exact List.forall_mem_append.2 ⟨closed_flush pending, closed_lexFrom rest []⟩
    | false =>
    cases sign : isOperatorChar c && !continuesExponent pending c with
    | true =>
      rcases lexFrom_sign cs steady blank sign with scanned | ⟨d, ds, op, rfl, chars, scanned⟩
      · rw [scanned]
        exact joined trivial (closed_lexFrom rest [])
      · rw [scanned]
        exact joined trivial (closed_lexFrom (rest.tail (steady_of_binary chars)) [])
    | false =>
      rw [lexFrom_char steady blank sign]
      exact closed_lexFrom rest (c :: pending)
termination_by text.length

theorem closed_lexemes {text : List Char} (h : Balanced text) : ∀ l ∈ lexemes text, l.Closed :=
  closed_lexFrom (balanced_iff_matched.1 h) []

theorem balanced_of_lexemes {text : List Char} (partners : ∀ d, unmatched d ∉ lexemes text) : Balanced text :=
  run_of_lexFrom [] text partners

/-! ## Arguments -/

section

variable {c : Char} (piece : List Char)

theorem splitFrom_plain (steady : Steady c) (seamless : c = ',' ∨ c = ';' → closers ≠ []) :
    splitFrom ⟨closers, piece⟩ (c :: cs) = splitFrom ⟨closers, c :: piece⟩ cs := by
  have goesOn : ((c == ',' || c == ';') && closers.isEmpty) = false := by
    rw [Bool.and_eq_false_imp]
    intro separator
    rw [Bool.or_eq_true, beq_iff_eq, beq_iff_eq] at separator
    simpa using seamless separator
  have step : splitStep ⟨closers, piece⟩ c cs = .emit [] ⟨closers, c :: piece⟩ := by
    simp [splitStep, steady.quote, steady.opens, steady.closes, goesOn]
  exact Text.scan_emit step

theorem splitFrom_separator (separator : c = ',' ∨ c = ';') :
    splitFrom ⟨[], piece⟩ (c :: cs) = piece.reverse :: splitFrom ⟨[], []⟩ cs := by
  have step : splitStep ⟨[], piece⟩ c cs = .emit [piece.reverse] ⟨[], []⟩ := by
    rcases separator with rfl | rfl <;> rfl
  exact Text.scan_emit step

theorem splitFrom_quotation (quote : Text.isQuote c = true) {body : List Char}
    (closes : ∀ rest, Text.closingLength? (escapesCount closers) c (body ++ rest) = some body.length) :
    splitFrom ⟨closers, piece⟩ (c :: (body ++ cs)) = splitFrom ⟨closers, body.reverse ++ c :: piece⟩ cs := by
  have step : splitStep ⟨closers, piece⟩ c (body ++ cs) =
      .swallow [] body.length ⟨closers, body.reverse ++ c :: piece⟩ := by
    simp [splitStep, quote, closes]
  exact Text.scan_swallow step

theorem splitFrom_opener (opens : isOpener c = true) :
    splitFrom ⟨closers, piece⟩ (c :: cs) = splitFrom ⟨closer c :: closers, c :: piece⟩ cs := by
  have step : splitStep ⟨closers, piece⟩ c cs = .emit [] ⟨closer c :: closers, c :: piece⟩ := by
    simp [splitStep, (opener_facts opens).1, opens]
  exact Text.scan_emit step

theorem splitFrom_closer (closes : isCloser c = true) :
    splitFrom ⟨c :: closers, piece⟩ (c :: cs) = splitFrom ⟨closers, c :: piece⟩ cs := by
  have step : splitStep ⟨c :: closers, piece⟩ c cs = .emit [] ⟨closers, c :: piece⟩ := by
    simp [splitStep, closer_facts closes, closes]
  exact Text.scan_emit step

end

/-- Inside a group, a piece goes on over matched text. -/
theorem splitFrom_inside (h : Matched escapes text) {closers : List Char} (open_ : closers ≠ [])
    (counts : escapesCount closers = escapes) (piece rest : List Char) :
    splitFrom ⟨closers, piece⟩ (text ++ rest) = splitFrom ⟨closers, text.reverse ++ piece⟩ rest := by
  induction h generalizing closers piece rest with
  | nil => rfl
  | plain steady behind ih =>
    rw [List.cons_append, splitFrom_plain piece steady fun _ => open_, ih open_ counts, List.reverse_cons,
      List.append_assoc, List.singleton_append]
  | quotation isQuote closes behind ih =>
    subst counts
    rw [List.cons_append, List.append_assoc, splitFrom_quotation piece isQuote closes, ih open_ rfl]
    simp
  | group opens inside behind ih ih' =>
    rw [List.cons_append, List.append_assoc, List.cons_append, splitFrom_opener piece opens,
      ih (List.cons_ne_nil _ _) (by rw [escapesCount_cons, counts]), splitFrom_closer _ (opener_facts opens).2,
      ih' open_ counts]
    simp

theorem splitFrom_group {c : Char} (opens : isOpener c = true) {inner : List Char}
    (inside : Matched (closer c != ')') inner) (piece rest : List Char) :
    splitFrom ⟨[], piece⟩ (c :: (inner ++ closer c :: rest)) =
      splitFrom ⟨[], closer c :: (inner.reverse ++ c :: piece)⟩ rest := by
  rw [splitFrom_opener piece opens, splitFrom_inside inside (List.cons_ne_nil _ _) (escapesCount_cons _ _),
    splitFrom_closer _ (opener_facts opens).2]

theorem matched_splitFrom (h : Matched escapes text) (outside : escapes = false) {piece : List Char}
    (before : Matched escapes piece.reverse) : ∀ arg ∈ splitFrom ⟨[], piece⟩ text, Matched escapes arg := by
  induction h generalizing piece with
  | nil => exact List.forall_mem_singleton.2 before
  | @plain _ c cs steady rest ih =>
    by_cases separator : c = ',' ∨ c = ';'
    · rw [splitFrom_separator piece separator]
      exact List.forall_mem_cons.2 ⟨before, ih outside .nil⟩
    · rw [splitFrom_plain piece steady fun seam => absurd seam separator]
      refine ih outside ?_
      rw [List.reverse_cons]
      exact before.append (.plain steady .nil)
  | @quotation _ q body cs isQuote closes rest ih =>
    subst outside
    rw [@splitFrom_quotation [] cs q piece isQuote body closes]
    refine ih rfl ?_
    have quotation : Matched false (q :: (body ++ [])) := .quotation isQuote closes .nil
    simpa using before.append quotation
  | @group _ c inner cs opens inside rest _ ih =>
    subst outside
    rw [splitFrom_group opens inside]
    refine ih rfl ?_
    have group : Matched false (c :: (inner ++ [closer c])) := .group opens inside .nil
    simpa using before.append group

/-- The arguments in matched text are matched. -/
theorem matched_splitArgs (h : Matched false text) : ∀ arg ∈ splitArgs text, Matched false arg :=
  matched_splitFrom h rfl .nil

end Lexeme

end ExactFormula
