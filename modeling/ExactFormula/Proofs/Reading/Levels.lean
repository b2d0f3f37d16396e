import ExactFormula.Proofs.Formula.Depth
import ExactFormula.Proofs.Reading.Built
import ExactFormula.Proofs.Reading.Parentheses

/-!
How deep reading goes. A formula that is read with some levels is less deep than they are many, and the reading fails
as too deep exactly when it comes to a nested text with no level left, be it in a group, in an argument or in a value
of a literal.
-/

namespace ExactFormula.Direct

variable {s : Settings} {nested : Nested} {n m : Nat}

/-! ## What is read -/

theorem depth_held (s : Settings) (n : Nat) :
    Held s (fun f => f.depth < n) (fun a => a.depth ≤ n) (fun l => l.depth ≤ n) where
  text _ := Nat.zero_le n
  constant _ := Nat.zero_le n
  reference _ _ _ := Nat.zero_le n
  call _ _ _ _ shallow := Formula.depthBelow_le shallow
  group _ shallow := shallow
  literal _ shallow := shallow
  value _ := Nat.zero_le n
  array _ shallow := Literal.depthAll_le shallow
  object _ shallow := Literal.depthMembers_le shallow
  formula _ _ shallow := shallow

/-- Every level of a formula that is read took one of the levels that there were. -/
theorem depth_lt_of_formula {text : List Char} {f : Formula} (h : formula s n text = .ok f) : f.depth < n := by
  induction n generalizing text f with
  | zero => cases h
  | succ n ih =>
    obtain ⟨pieces, added, h⟩ := exists_of_bind h
    obtain ⟨parts, arranged, h⟩ := exists_of_bind h
    cases h
    exact Nat.lt_succ_of_le (Part.depthAll_le fun _ mem => (depth_held s n).of_row (fun _ _ => ih) added arranged mem)

/-! ## What a reading asks for -/

mutual
/-- Reading the document asks for the text of a marked value, once all values before it are read. -/
inductive DocumentAsks (nested : Nested) : Json → List Char → Prop
  | value {string : String} {text : List Char} (marked : Literal.marked? string = some text) :
    DocumentAsks nested (.string string) text
  | item {js : List Json} {text : List Char} (inside : ItemsAsk nested js text) : DocumentAsks nested (.array js) text
  | member {ms : List (String × Json)} {text : List Char} (inside : MembersAsk nested ms text) :
    DocumentAsks nested (.object ms) text

inductive ItemsAsk (nested : Nested) : List Json → List Char → Prop
  | first {j : Json} {js : List Json} {text : List Char} (here : DocumentAsks nested j text) :
    ItemsAsk nested (j :: js) text
  | later {j : Json} {js : List Json} {l : Literal} {text : List Char} (read : ofJson nested j = .ok l)
    (behind : ItemsAsk nested js text) : ItemsAsk nested (j :: js) text

inductive MembersAsk (nested : Nested) : List (String × Json) → List Char → Prop
  | first {k : String} {j : Json} {ms : List (String × Json)} {text : List Char} (here : DocumentAsks nested j text) :
    MembersAsk nested ((k, j) :: ms) text
  | later {k : String} {j : Json} {ms : List (String × Json)} {l : Literal} {text : List Char}
    (read : ofJson nested j = .ok l) (behind : MembersAsk nested ms text) : MembersAsk nested ((k, j) :: ms) text
end

/-- Reading arguments asks for one that is not blank, once all before it are read. -/
inductive ArgsAsk (nested : Nested) : List (List Char) → List Char → Prop
  | first {text : List Char} {texts : List (List Char)} (shown : (Text.trim text).isEmpty = false) :
    ArgsAsk nested (text :: texts) text
  | later {arg text : List Char} {texts : List (List Char)} {f : Formula} (shown : (Text.trim arg).isEmpty = false)
    (read : nested arg = .ok f) (behind : ArgsAsk nested texts text) : ArgsAsk nested (arg :: texts) text

/-- Adding the lexeme to the pieces asks for a text in it: that of a group that is not blank, of an argument of a
call that the function takes, or of a value in brackets or braces that hold a relaxed document. -/
inductive LexemeAsks (s : Settings) (nested : Nested) : List Piece → Lexeme → List Char → Prop
  | group {pieces : List Piece} {inner : List Char} (unnamed : ∀ function ps, pieces ≠ .name function :: ps)
    (shown : (Text.trim inner).isEmpty = false) : LexemeAsks s nested pieces (.parens inner) inner
  | argument {ps : List Piece} {function : String} {f : FunctionDef} {inner text : List Char}
    (known : s.functions.get? function = some f) (shown : (Text.trim inner).isEmpty = false)
    (taken : f.arityFault? (Lexeme.splitArgs inner).length = none)
    (inside : ArgsAsk nested (Lexeme.splitArgs inner) text) :
    LexemeAsks s nested (.name function :: ps) (.parens inner) text
  | bracketed {pieces : List Piece} {inner text : List Char} {json : Json}
    (unnamed : Lexeme.isBracketName inner = false)
    (document : Relaxed.parseChars literalMarker s.wrapCalls (Text.trim ('[' :: (inner ++ [']']))) = .ok json)
    (inside : DocumentAsks nested json text) : LexemeAsks s nested pieces (.brackets inner) text
  | braced {pieces : List Piece} {inner text : List Char} {json : Json}
    (document : Relaxed.parseChars literalMarker s.wrapCalls (Text.trim ('{' :: (inner ++ ['}']))) = .ok json)
    (inside : DocumentAsks nested json text) : LexemeAsks s nested pieces (.braces inner) text

/-- Adding lexemes asks for a text in one of them, once all before it are added. -/
inductive LexemesAsk (s : Settings) (nested : Nested) : List Piece → List Lexeme → List Char → Prop
  | first {pieces : List Piece} {l : Lexeme} {ls : List Lexeme} {text : List Char}
    (here : LexemeAsks s nested pieces l text) : LexemesAsk s nested pieces (l :: ls) text
  | later {pieces pieces' : List Piece} {l : Lexeme} {ls : List Lexeme} {text : List Char}
    (added : add s nested pieces l = .ok pieces') (behind : LexemesAsk s nested pieces' ls text) :
    LexemesAsk s nested pieces (l :: ls) text

/-- Reading the first text with so many levels comes to the second one with so many left. -/
inductive ComesTo (s : Settings) : Nat → List Char → Nat → List Char → Prop
  | here (n : Nat) (text : List Char) : ComesTo s n text n text
  | inside {n m : Nat} {text inner sub : List Char} (asked : LexemesAsk s (formula s n) [] (lexemes text) inner)
    (later : ComesTo s n inner m sub) : ComesTo s (n + 1) text m sub

/-! ## Too deep -/

theorem bind_eq_error_iff {α β : Type} {r : Except FormulaError α} {f : α → Except FormulaError β} {e : FormulaError} :
    r >>= f = .error e ↔ r = .error e ∨ ∃ a, r = .ok a ∧ f a = .error e := by
  cases r with
  | error e' => simp [bind, Except.bind]
  | ok a => simp [bind, Except.bind]

theorem map_eq_error_iff {α β : Type} {r : Except FormulaError α} {f : α → β} {e : FormulaError} :
    (do return f (← r)) = .error e ↔ r = .error e := by
  refine bind_eq_error_iff.trans (or_iff_left ?_)
  rintro ⟨a, -, ⟨⟩⟩

/-- What ends otherwise and asks for no text. -/
theorem eq_tooDeep_iff_of_none {α : Type} {r : Except FormulaError α} {asks : List Char → Prop}
    (other : r ≠ .error tooDeep) (none : ∀ text, ¬asks text) :
    r = .error tooDeep ↔ ∃ text, asks text ∧ nested text = .error tooDeep := by
  refine iff_of_false other ?_
  rintro ⟨text, asked, -⟩
  exact none text asked

/-- The value of a literal is kept as text for every other error. -/
theorem ofMarked_eq_tooDeep_iff {text : List Char} :
    ofMarked nested text = .error tooDeep ↔ nested text = .error tooDeep := by
  rw [ofMarked]
  split
  case h_1 read =>
    rw [read]
    exact iff_of_false (by simp) (by simp)
  case h_2 limit read => simp [read]
  case h_3 e other read =>
    rw [read]
    exact iff_of_false (by simp) fun deep => other maxNesting (Except.error.inj deep)

mutual
theorem ofJson_eq_tooDeep_iff : (j : Json) →
    (ofJson nested j = .error tooDeep ↔ ∃ text, DocumentAsks nested j text ∧ nested text = .error tooDeep)
  | .string string => by
      rw [ofJson]
      cases marked : Literal.marked? string with
      | some text =>
        refine ofMarked_eq_tooDeep_iff.trans ⟨fun deep => ⟨text, .value marked, deep⟩, ?_⟩
        rintro ⟨_, ⟨marked'⟩, deep⟩
        cases marked.symm.trans marked'
        exact deep
      | none =>
        refine eq_tooDeep_iff_of_none (by simp) ?_
        rintro _ ⟨marked'⟩
        cases marked.symm.trans marked'
  | .array js => by
      rw [ofJson, map_eq_error_iff, ofItems_eq_tooDeep_iff js]
      constructor
      · rintro ⟨text, asks, deep⟩
        exact ⟨text, .item asks, deep⟩
      · rintro ⟨text, _ | asks, deep⟩
        exact ⟨text, asks, deep⟩
  | .object ms => by
      rw [ofJson, map_eq_error_iff, ofMembers_eq_tooDeep_iff ms]
      constructor
      · rintro ⟨text, asks, deep⟩
        exact ⟨text, .member asks, deep⟩
      · rintro ⟨text, _ | _ | asks, deep⟩
        exact ⟨text, asks, deep⟩
  | .null => by rw [ofJson]; exact eq_tooDeep_iff_of_none (by simp) (by rintro _ ⟨⟩)
  | .bool _ => by rw [ofJson]; exact eq_tooDeep_iff_of_none (by simp) (by rintro _ ⟨⟩)
  | .number _ => by rw [ofJson]; exact eq_tooDeep_iff_of_none (by simp) (by rintro _ ⟨⟩)

theorem ofItems_eq_tooDeep_iff : (js : List Json) →
    (ofItems nested js = .error tooDeep ↔ ∃ text, ItemsAsk nested js text ∧ nested text = .error tooDeep)
  | [] => by rw [ofItems]; exact eq_tooDeep_iff_of_none (by simp) (by rintro _ ⟨⟩)
  | j :: js => by
      rw [ofItems, bind_eq_error_iff, ofJson_eq_tooDeep_iff j]
      simp only [map_eq_error_iff, ofItems_eq_tooDeep_iff js]
      constructor
      · rintro (⟨text, asks, deep⟩ | ⟨l, read, text, asks, deep⟩)
        · exact ⟨text, .first asks, deep⟩
        · exact ⟨text, .later read asks, deep⟩
      · rintro ⟨text, asks | ⟨read, asks⟩, deep⟩
        · exact .inl ⟨text, asks, deep⟩
        · exact .inr ⟨_, read, text, asks, deep⟩

theorem ofMembers_eq_tooDeep_iff : (ms : List (String × Json)) →
    (ofMembers nested ms = .error tooDeep ↔ ∃ text, MembersAsk nested ms text ∧ nested text = .error tooDeep)
  | [] => by rw [ofMembers]; exact eq_tooDeep_iff_of_none (by simp) (by rintro _ ⟨⟩)
  | (k, j) :: ms => by
      rw [ofMembers, bind_eq_error_iff, ofJson_eq_tooDeep_iff j]
      simp only [map_eq_error_iff, ofMembers_eq_tooDeep_iff ms]
      constructor
      · rintro (⟨text, asks, deep⟩ | ⟨l, read, text, asks, deep⟩)
        · exact ⟨text, .first asks, deep⟩
        · exact ⟨text, .later read asks, deep⟩
      · rintro ⟨text, asks | ⟨read, asks⟩, deep⟩
        · exact .inl ⟨text, asks, deep⟩
        · exact .inr ⟨_, read, text, asks, deep⟩
end

theorem literal_eq_tooDeep_iff {source : List Char} : literal s nested source = .error tooDeep ↔
    ∃ json, Relaxed.parseChars literalMarker s.wrapCalls (Text.trim source) = .ok json ∧
      ∃ text, DocumentAsks nested json text ∧ nested text = .error tooDeep := by
  rw [literal, tree?]
  cases Relaxed.parseChars literalMarker s.wrapCalls (Text.trim source) with
  | error e => exact iff_of_false (by simp) (by simp)
  | ok json =>
    refine (map_eq_error_iff.trans (ofJson_eq_tooDeep_iff json)).trans ⟨fun asks => ⟨json, rfl, asks⟩, ?_⟩
    rintro ⟨_, ⟨⟩, asks⟩
    exact asks

theorem args_eq_tooDeep_iff {function : String} {index : Nat} {texts : List (List Char)} :
    args nested function index texts = .error tooDeep ↔
      ∃ text, ArgsAsk nested texts text ∧ nested text = .error tooDeep := by
  induction texts generalizing index with
  | nil => exact eq_tooDeep_iff_of_none (by simp [args]) (by rintro _ ⟨⟩)
  | cons arg texts ih =>
    rw [args]
    cases shown : (Text.trim arg).isEmpty with
    | true =>
      refine eq_tooDeep_iff_of_none (by simp) ?_
      rintro text (⟨shown'⟩ | ⟨shown', -, -⟩) <;> cases shown.symm.trans shown'
    | false =>
      rw [if_neg Bool.false_ne_true, bind_eq_error_iff]
      simp only [map_eq_error_iff, ih]
      constructor
      · rintro (deep | ⟨f, read, text, asks, deep⟩)
        · exact ⟨arg, .first shown, deep⟩
        · exact ⟨text, .later shown read asks, deep⟩
      · rintro ⟨text, ⟨-⟩ | ⟨-, read, asks⟩, deep⟩
        · exact .inl deep
        · exact .inr ⟨_, read, text, asks, deep⟩

theorem group_eq_tooDeep_iff {inner : List Char} : group nested inner = .error tooDeep ↔
    (Text.trim inner).isEmpty = false ∧ nested inner = .error tooDeep := by
  rw [group]
  cases (Text.trim inner).isEmpty with
  | true => exact iff_of_false (by simp) (by simp)
  | false =>
    rw [if_neg Bool.false_ne_true, map_eq_error_iff]
    exact (and_iff_right rfl).symm

theorem call_eq_tooDeep_iff {function : String} {inner : List Char} : call s nested function inner = .error tooDeep ↔
    ∃ f, s.functions.get? function = some f ∧ (Text.trim inner).isEmpty = false ∧
      f.arityFault? (Lexeme.splitArgs inner).length = none ∧
      ∃ text, ArgsAsk nested (Lexeme.splitArgs inner) text ∧ nested text = .error tooDeep := by
  rw [call]
  cases s.functions.get? function with
  | none => exact iff_of_false (by simp) (by simp)
  | some f =>
    simp only [Option.some.injEq, exists_eq_left']
    cases shown : (Text.trim inner).isEmpty with
    | true =>
      rw [if_pos rfl]
      refine iff_of_false (fun h => ?_) (by simp)
      split at h
      · cases h
      · obtain ⟨_, ⟨⟩, -⟩ := args_eq_tooDeep_iff.1 (map_eq_error_iff.1 h)
    | false =>
      rw [if_neg Bool.false_ne_true]
      cases f.arityFault? (Lexeme.splitArgs inner).length with
      | some reason => exact iff_of_false (by simp) (by simp)
      | none =>
        refine (map_eq_error_iff.trans args_eq_tooDeep_iff).trans ⟨fun asks => ⟨rfl, rfl, asks⟩, ?_⟩
        rintro ⟨-, -, asks⟩
        exact asks

/-- Adding a lexeme is too deep when a text in it that is asked for is. -/
theorem add_eq_tooDeep_iff {pieces : List Piece} {l : Lexeme} : add s nested pieces l = .error tooDeep ↔
    ∃ text, LexemeAsks s nested pieces l text ∧ nested text = .error tooDeep := by
  cases l with
  | word text =>
    refine map_eq_error_iff.trans (eq_tooDeep_iff_of_none (fun h => ?_) (by rintro _ ⟨⟩))
    rw [Piece.ofWord] at h
    split at h
    · split at h <;> cases h
    · split at h
      · cases h
      · split at h <;> cases h
  | operator symbol | quoted content | unmatched delimiter =>
    exact eq_tooDeep_iff_of_none (by simp [add]) (by rintro _ ⟨⟩)
  | parens inner =>
    rcases add_parens s pieces inner with ⟨function, ps, rfl, called⟩ | ⟨unnamed, grouped⟩
    · rw [called, map_eq_error_iff, call_eq_tooDeep_iff]
      constructor
      · rintro ⟨f, known, shown, taken, text, asks, deep⟩
        exact ⟨text, .argument known shown taken asks, deep⟩
      · rintro ⟨text, ⟨unnamed, -⟩ | ⟨known, shown, taken, asks⟩, deep⟩
        · exact absurd rfl (unnamed function ps)
        · exact ⟨_, known, shown, taken, text, asks, deep⟩
    · rw [grouped, map_eq_error_iff, group_eq_tooDeep_iff]
      constructor
      · rintro ⟨shown, deep⟩
        exact ⟨inner, .group unnamed shown, deep⟩
      · rintro ⟨text, ⟨-, shown⟩ | -, deep⟩
        · exact ⟨shown, deep⟩
        · exact absurd rfl (unnamed _ _)
  | brackets inner =>
    rw [add]
    cases unnamed : Lexeme.isBracketName inner with
    | true =>
      refine eq_tooDeep_iff_of_none (by simp) ?_
      intro _ asks
      cases asks with
      | bracketed unnamed' => cases unnamed.symm.trans unnamed'
    | false =>
      rw [if_neg Bool.false_ne_true, map_eq_error_iff, literal_eq_tooDeep_iff]
      constructor
      · rintro ⟨json, document, text, asks, deep⟩
        exact ⟨text, .bracketed unnamed document asks, deep⟩
      · rintro ⟨text, asks, deep⟩
        cases asks with
        | bracketed _ document inside => exact ⟨_, document, text, inside, deep⟩
  | braces inner =>
    rw [add, map_eq_error_iff, literal_eq_tooDeep_iff]
    constructor
    · rintro ⟨json, document, text, asks, deep⟩
      exact ⟨text, .braced document asks, deep⟩
    · rintro ⟨text, asks, deep⟩
      cases asks with
      | braced document inside => exact ⟨_, document, text, inside, deep⟩

theorem addAll_eq_tooDeep_iff {pieces : List Piece} {ls : List Lexeme} : addAll s nested pieces ls = .error tooDeep ↔
    ∃ text, LexemesAsk s nested pieces ls text ∧ nested text = .error tooDeep := by
  induction ls generalizing pieces with
  | nil => exact eq_tooDeep_iff_of_none (by simp [addAll]) (by rintro _ ⟨⟩)
  | cons l ls ih =>
    rw [addAll, bind_eq_error_iff, add_eq_tooDeep_iff]
    simp only [ih]
    constructor
    · rintro (⟨text, asks, deep⟩ | ⟨pieces', added, text, asks, deep⟩)
      · exact ⟨text, .first asks, deep⟩
      · exact ⟨text, .later added asks, deep⟩
    · rintro ⟨text, asks | ⟨added, asks⟩, deep⟩
      · exact .inl ⟨text, asks, deep⟩
      · exact .inr ⟨_, added, text, asks, deep⟩

/-- Only a resolver of one's own could fail so. -/
theorem arrange_ne_tooDeep (plain : s.reference = none) (first operandExpected : Bool) (pieces : List Piece) :
    arrange s first operandExpected pieces ≠ .error tooDeep := by
  induction pieces generalizing first operandExpected with
  | nil =>
    rw [arrange]
    split
    · simp
    · split <;> simp
  | cons p pieces ih =>
    intro deep
    cases p with
    | operator symbol =>
      rcases bind_eq_error_iff.1 deep with unknown | ⟨part, -, later⟩
      · unfold Piece.operatorPart at unknown
        split at unknown <;> cases unknown
      · exact ih false true (map_eq_error_iff.1 later)
    | name text | bracketName text =>
      rcases bind_eq_error_iff.1 deep with unresolved | ⟨r, -, later⟩
      · rw [reference, plain] at unresolved
        split at unresolved <;> cases unresolved
      · split at later
        · exact ih false false (map_eq_error_iff.1 later)
        · cases later
    | operand a =>
      rw [arrange] at deep
      split at deep
      · exact ih false false (map_eq_error_iff.1 deep)
      · cases deep

/-- A reading that comes to a text with no level left fails as too deep. -/
theorem ComesTo.tooDeep {text sub : List Char} (h : ComesTo s n text 0 sub) : formula s n text = .error tooDeep := by
  generalize none_left : 0 = m at h
  induction h with
  | here n text =>
    subst none_left
    rfl
  | inside asked _ ih =>
    exact bind_eq_error_iff.2 (.inl (addAll_eq_tooDeep_iff.2 ⟨_, asked, ih none_left⟩))

/-- Reading a text in parentheses comes to what reading the text with as many levels less comes to. -/
theorem ComesTo.parenthesized {text sub : List Char} (enclosed : Lexeme.Enclosed text)
    (shown : (Text.trim text).isEmpty = false) (h : ComesTo s n text m sub) (k : Nat) :
    ComesTo s (k + n) (parenthesized k text) m sub := by
  induction k with
  | zero => rwa [Nat.zero_add]
  | succ k ih =>
    rw [Nat.succ_add]
    refine .inside ?_ ih
    rw [ExactFormula.parenthesized, lexemes_parens (parenthesized_enclosed enclosed k)]
    refine .first (.group (by simp) ?_)
    cases k with
    | zero => exact shown
    | succ k => exact Text.trim_isEmpty_of_mem List.mem_cons_self rfl

theorem formula_eq_tooDeep_iff (plain : s.reference = none) {text : List Char} :
    formula s n text = .error tooDeep ↔ ∃ sub, ComesTo s n text 0 sub := by
  refine ⟨fun deep => ?_, fun comes => comes.elim fun _ => ComesTo.tooDeep⟩
  induction n generalizing text with
  | zero => exact ⟨text, .here 0 text⟩
  | succ n ih =>
    rcases bind_eq_error_iff.1 deep with deep | ⟨pieces, -, deep⟩
    · obtain ⟨inner, asked, deep⟩ := addAll_eq_tooDeep_iff.1 deep
      obtain ⟨sub, comes⟩ := ih deep
      exact ⟨sub, .inside asked comes⟩
    · exact absurd (map_eq_error_iff.1 deep) (arrange_ne_tooDeep plain true true pieces)

end ExactFormula.Direct
