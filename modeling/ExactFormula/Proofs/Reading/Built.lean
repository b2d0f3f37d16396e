import ExactFormula.Proofs.Reading.Pieces

/-!
What holds of every formula that is read because it is built from what was read: the rule of induction over
readings. In the parts of a formula operands and binary operators take turns.
-/

namespace ExactFormula

/-! ## Turns -/

/-- Operands stand where one is expected, behind their signs, and binary operators everywhere between. -/
def Part.Alternate {α : Type} : (operandExpected : Bool) → List (Part α) → Prop
  | expected, [] => expected = false
  | expected, .operand _ :: ps => expected = true ∧ Alternate false ps
  | expected, .unary _ :: ps => expected = true ∧ Alternate true ps
  | expected, .binary _ :: ps => expected = false ∧ Alternate true ps

namespace Direct

variable {s : Settings} {nested : Nested} {pieces : List Piece} {parts : List (Part Operand)}

theorem operatorPart_cases {α : Type} {operandExpected : Bool} {symbol : List Char} {part : Part α}
    (h : Piece.operatorPart operandExpected symbol = .ok part) :
    (operandExpected = true ∧ ∃ op, part = .unary op) ∨ (operandExpected = false ∧ ∃ op, part = .binary op) := by
  unfold Piece.operatorPart at h
  split at h
  · cases h
    exact .inl ⟨rfl, _, rfl⟩
  · cases h
    exact .inr ⟨rfl, _, rfl⟩
  · cases h
  · cases h
  · cases h

theorem alternate_of_arrange {first expected : Bool} (h : arrange s first expected pieces = .ok parts) :
    Part.Alternate expected parts := by
  induction pieces generalizing first expected parts with
  | nil =>
    obtain ⟨ended, rfl⟩ := arrange_nil h
    exact ended
  | cons p pieces ih =>
    rcases arrange_cons h with ⟨symbol, part, rest, -, known, arranged, rfl⟩ | ⟨expected, -, a, rest, -, arranged, rfl⟩
    · rcases operatorPart_cases known with ⟨rfl, op, rfl⟩ | ⟨rfl, op, rfl⟩
      · exact ⟨rfl, ih arranged⟩
      · exact ⟨rfl, ih arranged⟩
    · exact ⟨expected, ih arranged⟩

/-- An operand of the row is that of a piece, or the reference that a name is. -/
theorem arrange_origin {first expected : Bool} (h : arrange s first expected pieces = .ok parts) {a : Operand}
    (mem : .operand a ∈ parts) :
    .operand a ∈ pieces ∨ ∃ name r, reference s name = .ok r ∧ a = .reference r := by
  induction pieces generalizing first expected parts with
  | nil =>
    obtain ⟨-, rfl⟩ := arrange_nil h
    cases mem
  | cons p pieces ih =>
    rcases arrange_cons h with ⟨symbol, part, rest, -, known, arranged, rfl⟩ | ⟨-, -, b, rest, origin, arranged, rfl⟩
    · rcases List.mem_cons.1 mem with rfl | mem
      · rcases operatorPart_cases known with ⟨-, _, made⟩ | ⟨-, _, made⟩ <;> cases made
      · exact (ih arranged mem).imp_left (List.mem_cons_of_mem _)
    · rcases List.mem_cons.1 mem with same | mem
      · cases same
        rcases origin with rfl | ⟨-, named⟩
        · exact .inl List.mem_cons_self
        · exact .inr named
      · exact (ih arranged mem).imp_left (List.mem_cons_of_mem _)

/-! ## Induction over readings -/

/-- Properties of operands and literals that come from those of the formulas in them. -/
structure Held (s : Settings) (ofFormula : Formula → Prop) (ofOperand : Operand → Prop) (ofLiteral : Literal → Prop) :
    Prop where
  text : ∀ string, ofOperand (.text string)
  constant : ∀ v, ofOperand (.constant v)
  reference : ∀ name r, Direct.reference s name = .ok r → ofOperand (.reference r)
  call : ∀ name f args, s.functions.get? name = some f → (∀ g ∈ args, ofFormula g) → ofOperand (.call name f.run args)
  group : ∀ f, ofFormula f → ofOperand (.group f)
  literal : ∀ tree, ofLiteral tree → ofOperand (.literal (0, 0) tree)
  value : ∀ v, ofLiteral (.value v)
  array : ∀ items, (∀ l ∈ items, ofLiteral l) → ofLiteral (.array items)
  object : ∀ members, (∀ m ∈ members, ofLiteral m.2) → ofLiteral (.object members)
  formula : ∀ f source, ofFormula f → ofLiteral (.formula f source)

/-- Properties of formulas, operands and literals that pass from what they are built of to what is built. -/
structure Inherited (s : Settings) (ofFormula : Formula → Prop) (ofOperand : Operand → Prop)
    (ofLiteral : Literal → Prop) : Prop extends Held s ofFormula ofOperand ofLiteral where
  row : ∀ source parts, Part.Alternate true parts → (∀ a, .operand a ∈ parts → ofOperand a) →
    ofFormula ⟨source, parts, s.numeric, none⟩

section

variable {ofFormula : Formula → Prop} {ofOperand : Operand → Prop} {ofLiteral : Literal → Prop}

namespace Held

theorem ofMarked (held : Held s ofFormula ofOperand ofLiteral)
    (reads : ∀ text f, nested text = .ok f → ofFormula f) {source : List Char} {l : Literal}
    (h : Direct.ofMarked nested source = .ok l) : ofLiteral l := by
  rw [Direct.ofMarked] at h
  split at h
  case h_1 f read =>
    cases h
    exact held.formula f _ (reads _ f read)
  case h_2 => cases h
  case h_3 =>
    cases h
    exact held.value _

mutual
theorem ofJson (held : Held s ofFormula ofOperand ofLiteral)
    (reads : ∀ text f, nested text = .ok f → ofFormula f) :
    (j : Json) → {l : Literal} → Direct.ofJson nested j = .ok l → ofLiteral l
  | .string s, l, h => by
      rw [Direct.ofJson] at h
      cases marked : Literal.marked? s with
      | some source =>
        rw [marked] at h
        exact ofMarked held reads h
      | none =>
        rw [marked] at h
        cases h
        exact held.value _
  | .array items, l, h => by
      rw [Direct.ofJson] at h
      obtain ⟨ls, built, h⟩ := exists_of_bind h
      cases h
      exact held.array ls (ofItems held reads items built)
  | .object members, l, h => by
      rw [Direct.ofJson] at h
      obtain ⟨ms, built, h⟩ := exists_of_bind h
      cases h
      exact held.object ms (ofMembers held reads members built)
  | .null, l, h => by
      rw [Direct.ofJson] at h
      cases h
      exact held.value _
  | .bool _, l, h => by
      rw [Direct.ofJson] at h
      cases h
      exact held.value _
  | .number _, l, h => by
      rw [Direct.ofJson] at h
      cases h
      exact held.value _

theorem ofItems (held : Held s ofFormula ofOperand ofLiteral)
    (reads : ∀ text f, nested text = .ok f → ofFormula f) :
    (js : List Json) → {ls : List Literal} → Direct.ofItems nested js = .ok ls → ∀ l ∈ ls, ofLiteral l
  | [], ls, h => by
      rw [Direct.ofItems] at h
      cases h
      exact List.forall_mem_nil _
  | j :: js, ls, h => by
      rw [Direct.ofItems] at h
      obtain ⟨l, first, h⟩ := exists_of_bind h
      obtain ⟨ls, later, h⟩ := exists_of_bind h
      cases h
      exact List.forall_mem_cons.2 ⟨ofJson held reads j first, ofItems held reads js later⟩

theorem ofMembers (held : Held s ofFormula ofOperand ofLiteral)
    (reads : ∀ text f, nested text = .ok f → ofFormula f) :
    (ms : List (String × Json)) → {ls : List (String × Literal)} →
      Direct.ofMembers nested ms = .ok ls → ∀ m ∈ ls, ofLiteral m.2
  | [], ls, h => by
      rw [Direct.ofMembers] at h
      cases h
      exact List.forall_mem_nil _
  | (k, j) :: ms, ls, h => by
      rw [Direct.ofMembers] at h
      obtain ⟨l, first, h⟩ := exists_of_bind h
      obtain ⟨ls, later, h⟩ := exists_of_bind h
      cases h
      exact List.forall_mem_cons.2 ⟨ofJson held reads j first, ofMembers held reads ms later⟩
end

section

variable (held : Held s ofFormula ofOperand ofLiteral) (reads : ∀ text f, nested text = .ok f → ofFormula f)

include held reads

theorem ofEmbedded {source : List Char} {a : Operand} (h : Direct.literal s nested source = .ok a) : ofOperand a := by
  rw [Direct.literal, tree?] at h
  cases document : Relaxed.parseChars literalMarker s.wrapCalls (Text.trim source) with
  | ok json =>
    rw [document] at h
    obtain ⟨tree, built, h⟩ := exists_of_bind h
    cases h
    exact held.literal tree (ofJson held reads json built)
  | error e =>
    rw [document] at h
    cases h
    exact held.text _

omit held in
theorem ofArgs {function : String} {index : Nat} {texts : List (List Char)} {fs : List Formula}
    (h : args nested function index texts = .ok fs) : ∀ g ∈ fs, ofFormula g := by
  induction texts generalizing index fs with
  | nil =>
    cases h
    exact List.forall_mem_nil _
  | cons text texts ih =>
    rw [args] at h
    split at h
    case isTrue => cases h
    case isFalse =>
      obtain ⟨f, read, h⟩ := exists_of_bind h
      obtain ⟨fs, rest, h⟩ := exists_of_bind h
      cases h
      exact List.forall_mem_cons.2 ⟨reads text f read, ih rest⟩

theorem ofCall {function : String} {inner : List Char} {a : Operand} (h : Direct.call s nested function inner = .ok a) :
    ofOperand a := by
  rw [Direct.call] at h
  cases known : s.functions.get? function with
  | none =>
    rw [known] at h
    cases h
  | some f =>
    simp only [known] at h
    split at h
    case h_1 => cases h
    case h_2 =>
      obtain ⟨fs, read, h⟩ := exists_of_bind h
      cases h
      exact held.call function f fs known (ofArgs reads read)

theorem ofGroup {inner : List Char} {a : Operand} (h : Direct.group nested inner = .ok a) : ofOperand a := by
  rw [Direct.group] at h
  split at h
  case isTrue => cases h
  case isFalse =>
    obtain ⟨f, read, h⟩ := exists_of_bind h
    cases h
    exact held.group f (reads inner f read)

omit reads in
theorem ofWord {text : List Char} {a : Operand} (h : Piece.ofWord s text = .ok (.operand a)) : ofOperand a := by
  rw [Piece.ofWord] at h
  split at h
  · split at h
    · cases h
      exact held.constant _
    · cases h
  · split at h
    · cases h
      exact held.constant _
    · split at h <;> cases h

omit reads in
theorem ofQuoted (content : List Char) : ofOperand (Piece.ofQuoted content) := by
  rw [Piece.ofQuoted]
  split
  · split
    · exact held.constant _
    · exact held.text _
  · exact held.text _

theorem add {pieces pieces' : List Piece} (before : ∀ a, .operand a ∈ pieces → ofOperand a) {l : Lexeme}
    (h : Direct.add s nested pieces l = .ok pieces') : ∀ a, .operand a ∈ pieces' → ofOperand a := by
  have onTop {p : Piece} {ps : List Piece} (earlier : ∀ a, .operand a ∈ ps → ofOperand a)
      (here : ∀ a, p = .operand a → ofOperand a) : ∀ a, .operand a ∈ p :: ps → ofOperand a := by
    intro a mem
    rcases List.mem_cons.1 mem with same | mem
    · exact here a same.symm
    · exact earlier a mem
  cases l with
  | word text =>
    obtain ⟨p, word, h⟩ := exists_of_bind h
    cases h
    refine onTop before fun a same => ?_
    subst same
    exact ofWord held word
  | operator symbol =>
    cases h
    exact onTop before fun _ same => Piece.noConfusion same
  | quoted content =>
    cases h
    refine onTop before fun a same => ?_
    cases same
    exact ofQuoted held content
  | parens inner =>
    rcases add_parens s pieces inner with ⟨function, ps, rfl, called⟩ | ⟨-, grouped⟩
    · rw [called] at h
      obtain ⟨b, read, h⟩ := exists_of_bind h
      cases h
      refine onTop (fun a mem => before a (List.mem_cons_of_mem _ mem)) fun a same => ?_
      cases same
      exact ofCall held reads read
    · rw [grouped] at h
      obtain ⟨b, read, h⟩ := exists_of_bind h
      cases h
      refine onTop before fun a same => ?_
      cases same
      exact ofGroup held reads read
  | brackets inner =>
    rw [Direct.add] at h
    split at h
    · cases h
      exact onTop before fun _ same => Piece.noConfusion same
    · obtain ⟨b, read, h⟩ := exists_of_bind h
      cases h
      refine onTop before fun a same => ?_
      cases same
      exact ofEmbedded held reads read
  | braces inner =>
    obtain ⟨b, read, h⟩ := exists_of_bind h
    cases h
    refine onTop before fun a same => ?_
    cases same
    exact ofEmbedded held reads read
  | unmatched delimiter => cases h

theorem addAll {pieces out : List Piece} (before : ∀ a, .operand a ∈ pieces → ofOperand a) {ls : List Lexeme}
    (h : Direct.addAll s nested pieces ls = .ok out) : ∀ a, .operand a ∈ out → ofOperand a := by
  induction ls generalizing pieces with
  | nil =>
    cases h
    exact fun a mem => before a (List.mem_reverse.1 mem)
  | cons l ls ih =>
    obtain ⟨pieces', added, h⟩ := exists_of_bind h
    exact ih (add held reads before added) h

end

/-- The operands of a text's row have the property, if all nested formulas do. -/
theorem of_row (held : Held s ofFormula ofOperand ofLiteral) (reads : ∀ text f, nested text = .ok f → ofFormula f)
    {ls : List Lexeme} (added : Direct.addAll s nested [] ls = .ok pieces)
    (arranged : arrange s true true pieces = .ok parts) {a : Operand} (mem : .operand a ∈ parts) : ofOperand a := by
  rcases arrange_origin arranged mem with mem | ⟨name, r, named, rfl⟩
  · exact addAll held reads (fun _ mem => absurd mem List.not_mem_nil) added a mem
  · exact held.reference name r named

end Held

/-- What passes from what formulas are built of to what is built holds of every formula that is read. -/
theorem Inherited.of_formula (inherited : Inherited s ofFormula ofOperand ofLiteral) {n : Nat} {text : List Char}
    {f : Formula} (h : Direct.formula s n text = .ok f) : ofFormula f := by
  induction n generalizing text f with
  | zero => cases h
  | succ n ih =>
    obtain ⟨pieces, added, h⟩ := exists_of_bind h
    obtain ⟨parts, arranged, h⟩ := exists_of_bind h
    cases h
    exact inherited.row _ parts (alternate_of_arrange arranged) fun a mem =>
      inherited.toHeld.of_row (fun _ _ => ih) added arranged mem

end

end Direct

end ExactFormula
