import ExactFormula.Proofs.Reading.Direct

/-!
What the lexemes of an accepted text are like. Each of them has been added to the pieces, what they stand for
is still there at the end, and operators stand where operators may stand.
-/

namespace ExactFormula

/-- The symbol of an operator; whatever else there is belongs to an operand. -/
def Piece.symbol? : Piece → Option (List Char)
  | operator symbol => some symbol
  | _ => none

def Lexeme.symbol? : Lexeme → Option (List Char)
  | operator symbol => some symbol
  | _ => none

namespace Direct

theorem exists_of_bind {ε α β : Type} {r : Except ε α} {f : α → Except ε β} {b : β} (h : r >>= f = .ok b) :
    ∃ a, r = .ok a ∧ f a = .ok b := by
  cases r with
  | error e => cases h
  | ok a => exact ⟨a, rfl, h⟩

variable {s : Settings} {nested : Nested} {pieces pieces' out : List Piece}

/-! ## Adding lexemes -/

theorem symbol?_ofWord {text : List Char} {p : Piece} (h : Piece.ofWord s text = .ok p) : p.symbol? = none := by
  rw [Piece.ofWord] at h
  split at h
  · split at h
    · cases h; rfl
    · cases h
  · split at h
    · cases h; rfl
    · split at h
      · cases h; rfl
      · cases h

/-- Parentheses behind a name are a call, and elsewhere a group, whoever reads what is in them. -/
theorem add_parens (s : Settings) (pieces : List Piece) (inner : List Char) :
    (∃ function ps, pieces = .name function :: ps ∧ ∀ nested, add s nested pieces (.parens inner) =
      do return .operand (← call s nested function inner) :: ps) ∨
    (∀ function ps, pieces ≠ .name function :: ps) ∧
      ∀ nested, add s nested pieces (.parens inner) = do return .operand (← group nested inner) :: pieces := by
  cases pieces with
  | nil => exact .inr ⟨nofun, fun _ => rfl⟩
  | cons p ps =>
    cases p with
    | name function => exact .inl ⟨function, ps, rfl, fun _ => rfl⟩
    | operator symbol => exact .inr ⟨nofun, fun _ => rfl⟩
    | bracketName text => exact .inr ⟨nofun, fun _ => rfl⟩
    | operand a => exact .inr ⟨nofun, fun _ => rfl⟩

/-- A lexeme adds one piece, but parentheses behind a name make one operand of it. -/
theorem add_cases {l : Lexeme} (h : add s nested pieces l = .ok pieces') :
    (∃ p, pieces' = p :: pieces ∧ p.symbol? = l.symbol?) ∨
      ∃ function inner a ps, l = .parens inner ∧ pieces = .name function :: ps ∧ pieces' = .operand a :: ps := by
  cases l with
  | word text =>
    obtain ⟨p, word, h⟩ := exists_of_bind h
    cases h
    exact .inl ⟨p, rfl, symbol?_ofWord word⟩
  | operator symbol => cases h; exact .inl ⟨_, rfl, rfl⟩
  | quoted content => cases h; exact .inl ⟨_, rfl, rfl⟩
  | parens inner =>
    rcases add_parens s pieces inner with ⟨function, ps, rfl, called⟩ | ⟨-, grouped⟩
    · rw [called] at h
      obtain ⟨a, -, h⟩ := exists_of_bind h
      cases h
      exact .inr ⟨function, inner, a, ps, rfl, rfl, rfl⟩
    · rw [grouped] at h
      obtain ⟨a, -, h⟩ := exists_of_bind h
      cases h
      exact .inl ⟨_, rfl, rfl⟩
  | brackets inner =>
    rw [add] at h
    split at h
    · cases h
      exact .inl ⟨_, rfl, rfl⟩
    · obtain ⟨a, -, h⟩ := exists_of_bind h
      cases h
      exact .inl ⟨_, rfl, rfl⟩
  | braces inner =>
    obtain ⟨a, -, h⟩ := exists_of_bind h
    cases h
    exact .inl ⟨_, rfl, rfl⟩
  | unmatched delimiter => cases h

/-- The pieces stay, but the last one, when it is a name, may become an operand. -/
theorem addAll_extends {ls : List Lexeme} (h : addAll s nested pieces ls = .ok out) :
    (∃ more, out = pieces.reverse ++ more) ∨
      ∃ function a ps more, pieces = .name function :: ps ∧ out = ps.reverse ++ .operand a :: more := by
  induction ls generalizing pieces with
  | nil =>
    cases h
    exact .inl ⟨[], (List.append_nil _).symm⟩
  | cons l ls ih =>
    obtain ⟨pieces', added, h⟩ := exists_of_bind h
    rcases add_cases added with ⟨p, rfl, -⟩ | ⟨function, inner, a, ps, -, rfl, rfl⟩
    · rcases ih h with ⟨more, rfl⟩ | ⟨function, a, ps, more, split, rfl⟩
      · exact .inl ⟨p :: more, by rw [List.reverse_cons, List.append_assoc]; rfl⟩
      · cases split
        exact .inl ⟨.operand a :: more, rfl⟩
    · rcases ih h with ⟨more, rfl⟩ | ⟨_, _, _, _, split, -⟩
      · exact .inr ⟨function, a, ps, more, rfl, by rw [List.reverse_cons, List.append_assoc]; rfl⟩
      · cases split

theorem addAll_operand {ls : List Lexeme} (h : addAll s nested pieces ls = .ok out) {a : Operand}
    (mem : .operand a ∈ pieces) : .operand a ∈ out := by
  rcases addAll_extends h with ⟨more, rfl⟩ | ⟨function, b, ps, more, rfl, rfl⟩
  · exact List.mem_append_left more (List.mem_reverse.2 mem)
  · rcases List.mem_cons.1 mem with same | mem
    · cases same
    · exact List.mem_append_left _ (List.mem_reverse.2 mem)

theorem addAll_symbols {ls : List Lexeme} (h : addAll s nested pieces ls = .ok out) :
    (pieces.reverse.map Piece.symbol?) <+: out.map Piece.symbol? := by
  rcases addAll_extends h with ⟨more, rfl⟩ | ⟨function, a, ps, more, rfl, rfl⟩
  · exact ⟨more.map Piece.symbol?, List.map_append.symm⟩
  · exact ⟨more.map Piece.symbol?, by simp [Piece.symbol?]⟩

/-- Up to some place in the text, the lexemes have been added. -/
theorem addAll_split {ls ls' : List Lexeme} (h : addAll s nested pieces (ls ++ ls') = .ok out) :
    ∃ pieces', addAll s nested pieces' ls' = .ok out := by
  induction ls generalizing pieces with
  | nil => exact ⟨pieces, h⟩
  | cons l ls ih =>
    obtain ⟨pieces', -, h⟩ := exists_of_bind h
    exact ih h

theorem addAll_mem {ls : List Lexeme} (h : addAll s nested pieces ls = .ok out) {l : Lexeme} (mem : l ∈ ls) :
    ∃ before after, add s nested before l = .ok after := by
  obtain ⟨xs, ys, rfl⟩ := List.append_of_mem mem
  obtain ⟨before, h⟩ := addAll_split h
  obtain ⟨after, added, -⟩ := exists_of_bind h
  exact ⟨before, after, added⟩

/-- The symbols of two lexemes are those of two pieces, unless the second one may be what a name is called with. -/
theorem addAll_adjacent {ls : List Lexeme} (h : addAll s nested pieces ls = .ok out) {l l' : Lexeme}
    (inside : [l, l'] <:+: ls) (apart : ∀ inner, l' ≠ .parens inner) :
    [l.symbol?, l'.symbol?] <:+: out.map Piece.symbol? := by
  obtain ⟨xs, ys, rfl⟩ := inside
  rw [List.append_assoc] at h
  obtain ⟨before, h⟩ := addAll_split h
  obtain ⟨first, added, h⟩ := exists_of_bind h
  obtain ⟨second, added', h⟩ := exists_of_bind h
  have known : ∃ p ps, first = p :: ps ∧ p.symbol? = l.symbol? := by
    rcases add_cases added with ⟨p, rfl, same⟩ | ⟨_, _, a, ps, rfl, -, rfl⟩
    · exact ⟨p, before, rfl, same⟩
    · exact ⟨_, ps, rfl, rfl⟩
  obtain ⟨p, ps, rfl, same⟩ := known
  rcases add_cases added' with ⟨p', rfl, same'⟩ | ⟨_, inner, _, _, parens, -, -⟩
  · rw [← same, ← same']
    refine .trans ?_ (addAll_symbols h).isInfix
    exact ⟨ps.reverse.map Piece.symbol?, [], by simp⟩
  · exact absurd parens (apart inner)

/-- What is added last is still last. -/
theorem addAll_suffix {ls : List Lexeme} (h : addAll s nested pieces ls = .ok out) {l : Lexeme}
    (last : [l] <:+ ls) : [l.symbol?] <:+ out.map Piece.symbol? := by
  obtain ⟨xs, rfl⟩ := last
  obtain ⟨before, h⟩ := addAll_split h
  obtain ⟨after, added, h⟩ := exists_of_bind h
  cases h
  rcases add_cases added with ⟨p, rfl, same⟩ | ⟨_, _, a, ps, rfl, -, rfl⟩
  · exact ⟨before.reverse.map Piece.symbol?, by simp [same]⟩
  · exact ⟨ps.reverse.map Piece.symbol?, by simp [Piece.symbol?, Lexeme.symbol?]⟩

theorem args_mem {function : String} {index : Nat} {texts : List (List Char)} {fs : List Formula}
    (h : args nested function index texts = .ok fs) {text : List Char} (mem : text ∈ texts) :
    ∃ f, nested text = .ok f := by
  induction texts generalizing index fs with
  | nil => cases mem
  | cons first texts ih =>
    rw [args] at h
    split at h
    case isTrue => cases h
    case isFalse =>
      obtain ⟨f, read, h⟩ := exists_of_bind h
      obtain ⟨fs, rest, -⟩ := exists_of_bind h
      rcases List.mem_cons.1 mem with rfl | mem
      · exact ⟨f, read⟩
      · exact ih rest mem

/-! ## Arranging pieces -/

/-- An operand is where one is expected, and an operator there is a sign; behind an operator one is expected. -/
def Arranged : (operandExpected : Bool) → List (Option (List Char)) → Prop
  | expected, [] => expected = false
  | expected, none :: symbols => expected = true ∧ Arranged false symbols
  | expected, some symbol :: symbols =>
    (expected = true → (UnaryOp.ofChars? symbol).isSome = true) ∧ Arranged true symbols

theorem isSome_of_operatorPart {α : Type} {symbol : List Char} {part : Part α}
    (h : Piece.operatorPart true symbol = .ok part) : (UnaryOp.ofChars? symbol).isSome = true := by
  cases known : UnaryOp.ofChars? symbol with
  | some op => rfl
  | none =>
    simp only [Piece.operatorPart, known] at h
    cases binary : BinaryOp.ofChars? symbol with
    | none => simp [binary] at h
    | some op => simp [binary] at h

/-- The piece is an operator, or an operand where one is expected: itself, or the reference that a name is. -/
theorem arrange_cons {first expected : Bool} {p : Piece} {parts : List (Part Operand)}
    (h : arrange s first expected (p :: pieces) = .ok parts) :
    (∃ symbol part rest, p = .operator symbol ∧ Piece.operatorPart expected symbol = .ok part ∧
      arrange s false true pieces = .ok rest ∧ parts = part :: rest) ∨
    (expected = true ∧ p.symbol? = none ∧ ∃ a rest, (p = .operand a ∨ (∀ b, p ≠ .operand b) ∧
        ∃ name r, reference s name = .ok r ∧ a = .reference r) ∧
      arrange s false false pieces = .ok rest ∧ parts = .operand a :: rest) := by
  cases p with
  | operator symbol =>
    obtain ⟨part, known, h⟩ := exists_of_bind h
    obtain ⟨rest, arranged, h⟩ := exists_of_bind h
    cases h
    exact .inl ⟨symbol, part, rest, rfl, known, arranged, rfl⟩
  | name text | bracketName text =>
    obtain ⟨r, named, h⟩ := exists_of_bind h
    split at h
    case isTrue expected =>
      obtain ⟨rest, arranged, h⟩ := exists_of_bind h
      cases h
      exact .inr ⟨expected, rfl, _, rest, .inr ⟨nofun, text, r, named, rfl⟩, arranged, rfl⟩
    case isFalse => cases h
  | operand a =>
    rw [arrange] at h
    split at h
    case isTrue expected =>
      obtain ⟨rest, arranged, h⟩ := exists_of_bind h
      cases h
      exact .inr ⟨expected, rfl, a, rest, .inl rfl, arranged, rfl⟩
    case isFalse => cases h

theorem arrange_nil {first expected : Bool} {parts : List (Part Operand)}
    (h : arrange s first expected [] = .ok parts) : expected = false ∧ parts = [] := by
  rw [arrange] at h
  split at h
  · cases h
  · split at h
    case isTrue => cases h
    case isFalse ended =>
      cases h
      exact ⟨Bool.eq_false_iff.2 ended, rfl⟩

theorem arranged_of_arrange {first expected : Bool} {parts : List (Part Operand)}
    (h : arrange s first expected pieces = .ok parts) : Arranged expected (pieces.map Piece.symbol?) := by
  induction pieces generalizing first expected parts with
  | nil => exact (arrange_nil h).1
  | cons p pieces ih =>
    rcases arrange_cons h with ⟨symbol, part, rest, rfl, known, arranged, -⟩ |
      ⟨expected, operand, a, rest, -, arranged, -⟩
    · refine ⟨?_, ih arranged⟩
      rintro rfl
      exact isSome_of_operatorPart known
    · rw [List.map_cons, operand]
      exact ⟨expected, ih arranged⟩

theorem arrange_operand {first expected : Bool} {parts : List (Part Operand)}
    (h : arrange s first expected pieces = .ok parts) {a : Operand} (mem : .operand a ∈ pieces) :
    .operand a ∈ parts := by
  induction pieces generalizing first expected parts with
  | nil => cases mem
  | cons p pieces ih =>
    rcases arrange_cons h with ⟨symbol, part, rest, rfl, -, arranged, rfl⟩ | ⟨-, -, b, rest, origin, arranged, rfl⟩
    · exact List.mem_cons_of_mem _ (ih arranged (by simpa using mem))
    · rcases List.mem_cons.1 mem with rfl | mem
      · rcases origin with same | ⟨other, -⟩
        · cases same
          exact List.mem_cons_self
        · exact absurd rfl (other a)
      · exact List.mem_cons_of_mem _ (ih arranged mem)

variable {expected : Bool} {symbols : List (Option (List Char))}

theorem Arranged.suffix {symbols' : List (Option (List Char))} (h : Arranged expected symbols)
    (suffix : symbols' <:+ symbols) : ∃ expected', Arranged expected' symbols' := by
  obtain ⟨before, rfl⟩ := suffix
  induction before generalizing expected with
  | nil => exact ⟨expected, h⟩
  | cons symbol before ih =>
    cases symbol with
    | none => exact ih h.2
    | some symbol => exact ih h.2

theorem Arranged.not_apart (h : Arranged expected symbols) : ¬[none, none] <:+: symbols := by
  rintro ⟨before, after, rfl⟩
  rw [List.append_assoc] at h
  obtain ⟨expected, h⟩ := h.suffix (List.suffix_append _ _)
  cases h.2.1

theorem Arranged.sign (h : Arranged expected symbols) {a b : List Char} (inside : [some a, some b] <:+: symbols) :
    (UnaryOp.ofChars? b).isSome = true := by
  obtain ⟨before, after, rfl⟩ := inside
  rw [List.append_assoc] at h
  obtain ⟨expected, h⟩ := h.suffix (List.suffix_append _ _)
  exact h.2.1 rfl

theorem Arranged.not_last (h : Arranged expected symbols) (a : List Char) : ¬[some a] <:+ symbols := by
  intro last
  obtain ⟨expected, h⟩ := h.suffix last
  cases h.2

/-! ## Accepted texts -/

end Direct

/-- A second operator in a row is a sign, words are apart, and no operator is last. -/
structure Lexeme.Ordered (ls : List Lexeme) : Prop where
  sign : ∀ a b, [operator a, operator b] <:+: ls → (UnaryOp.ofChars? b).isSome = true
  apart : ∀ a b, ¬[word a, word b] <:+: ls
  last : ∀ a, ¬[operator a] <:+ ls

theorem Lexeme.Ordered.suffix {ls ls' : List Lexeme} (h : Ordered ls) (suffix : ls' <:+ ls) : Ordered ls' where
  sign a b inside := h.sign a b (inside.trans suffix.isInfix)
  apart a b inside := h.apart a b (inside.trans suffix.isInfix)
  last a last := h.last a (last.trans suffix)

namespace Direct

variable {s : Settings} {n : Nat} {text : List Char} {f : Formula}

theorem formula_ok (h : formula s (n + 1) text = .ok f) : ∃ pieces,
    addAll s (formula s n) [] (lexemes text) = .ok pieces ∧ arrange s true true pieces = .ok f.parts := by
  obtain ⟨pieces, added, h⟩ := exists_of_bind h
  obtain ⟨parts, arranged, h⟩ := exists_of_bind h
  cases h
  exact ⟨pieces, added, arranged⟩

theorem ordered_of_formula (h : formula s (n + 1) text = .ok f) : Lexeme.Ordered (lexemes text) := by
  obtain ⟨pieces, added, arranged⟩ := formula_ok h
  have arranged := arranged_of_arrange arranged
  exact ⟨fun a b inside => arranged.sign (addAll_adjacent added inside nofun),
    fun a b inside => arranged.not_apart (addAll_adjacent added inside nofun),
    fun a last => arranged.not_last a (addAll_suffix added last)⟩

end Direct

end ExactFormula
