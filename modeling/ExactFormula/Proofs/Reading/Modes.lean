import ExactFormula.Proofs.Formula.Depth
import ExactFormula.Proofs.Formula.Modes

/-!
A formula of numbers is read alike in both modes, with as many levels as it is deep.
-/

namespace ExactFormula

/-- The settings with a mode, and with plans or without them. -/
def Settings.inMode (s : Settings) (numeric compile : Bool) : Settings :=
  { s with numeric := numeric, compile := compile }

def Piece.inMode (numeric : Bool) : Piece → Piece
  | .operator symbol => .operator symbol
  | .name text => .name text
  | .bracketName text => .bracketName text
  | .operand a => .operand (a.inMode numeric)

namespace Direct

variable {s : Settings} {numeric compile : Bool} {known : Reference → Bool} {nested nested' : Nested}
  {pieces pieces' out : List Piece} {m : Nat}

/-- What the second reader reads as a formula of numbers, the first one reads, too, in its mode, unless it is too
deep. -/
def ReadsNumbers (numeric : Bool) (known : Reference → Bool) (m : Nat) (nested nested' : Nested) : Prop :=
  ∀ text f, nested' text = .ok f → f.keepsNumbers known = true → f.depth < m → nested text = .ok (f.inMode numeric)

/-- A literal is no number. -/
theorem keepsNumbers_literal {source : List Char} {a : Operand} (h : literal s nested source = .ok a) :
    a.keepsNumbers known = false := by
  rw [literal] at h
  split at h
  · obtain ⟨tree, -, h⟩ := exists_of_bind h
    cases h
    rw [Operand.keepsNumbers]
  · cases h
    rw [Operand.keepsNumbers]

theorem keepsNumbers_call {function : String} {inner : List Char} {a : Operand}
    (h : call s nested function inner = .ok a) : a.keepsNumbers known = false := by
  rw [call] at h
  split at h
  · cases h
  · dsimp only at h
    split at h
    · cases h
    · obtain ⟨fs, -, h⟩ := exists_of_bind h
      cases h
      rw [Operand.keepsNumbers]

theorem inMode_ofWord {text : List Char} {p : Piece} (h : Piece.ofWord s text = .ok p) : p.inMode numeric = p := by
  rw [Piece.ofWord] at h
  split at h
  · split at h
    · cases h; rfl
    · cases h
  · split at h
    · cases h; rfl
    · split at h
      · cases h; rfl
      · cases h

theorem inMode_ofQuoted (content : List Char) : (Piece.ofQuoted content).inMode numeric = Piece.ofQuoted content := by
  rw [Piece.ofQuoted]
  split
  · split <;> rfl
  · rfl

namespace ReadsNumbers

variable (reads : ReadsNumbers numeric known m nested nested')

include reads

theorem group {inner : List Char} {a : Operand} (h : group nested' inner = .ok a) (keeps : a.keepsNumbers known = true)
    (shallow : a.depth ≤ m) : Direct.group nested inner = .ok (a.inMode numeric) := by
  rw [Direct.group] at h ⊢
  split at h
  case isTrue => cases h
  case isFalse shown =>
    obtain ⟨f, read, h⟩ := exists_of_bind h
    cases h
    rw [Operand.keepsNumbers] at keeps
    rw [Operand.depth] at shallow
    rw [if_neg shown, reads inner f read keeps shallow]
    rfl

theorem add {l : Lexeme} (h : add s nested' pieces l = .ok pieces')
    (inside : ∀ a, .operand a ∈ pieces' → a.keepsNumbers known = true ∧ a.depth ≤ m) :
    Direct.add (s.inMode numeric compile) nested (pieces.map (Piece.inMode numeric)) l =
      .ok (pieces'.map (Piece.inMode numeric)) := by
  have grouped {inner : List Char}
      (h : (do return Piece.operand (← Direct.group nested' inner) :: pieces) = .ok pieces') :
      (do return Piece.operand (← Direct.group nested inner) :: pieces.map (Piece.inMode numeric)) =
        .ok (pieces'.map (Piece.inMode numeric)) := by
    obtain ⟨a, accepted, h⟩ := exists_of_bind h
    cases h
    obtain ⟨keeps, shallow⟩ := inside a List.mem_cons_self
    rw [reads.group accepted keeps shallow]
    rfl
  have unread {source : List Char} :
      (do return Piece.operand (← literal s nested' source) :: pieces) ≠ .ok pieces' := by
    intro h
    obtain ⟨a, accepted, h⟩ := exists_of_bind h
    cases h
    exact absurd (inside a List.mem_cons_self).1 (by simp [keepsNumbers_literal accepted])
  cases l with
  | word text =>
    obtain ⟨p, word, h⟩ := exists_of_bind h
    cases h
    have same : Piece.ofWord (s.inMode numeric compile) text = .ok p := word
    rw [Direct.add, same, List.map_cons, inMode_ofWord word]
    rfl
  | operator symbol =>
    cases h
    rfl
  | quoted content =>
    cases h
    rw [Direct.add, List.map_cons, Piece.inMode, inMode_ofQuoted]
  | parens inner =>
    cases pieces with
    | nil => exact grouped h
    | cons p ps =>
      cases p with
      | name function =>
        obtain ⟨a, accepted, h⟩ := exists_of_bind h
        cases h
        exact absurd (inside a List.mem_cons_self).1 (by simp [keepsNumbers_call accepted])
      | operator symbol => exact grouped h
      | bracketName text => exact grouped h
      | operand a => exact grouped h
  | brackets inner =>
    rw [Direct.add] at h ⊢
    split at h
    case isTrue named =>
      cases h
      rw [if_pos named]
      rfl
    case isFalse => exact absurd h unread
  | braces inner => exact absurd h unread
  | unmatched delimiter => cases h

theorem addAll {ls : List Lexeme} (h : addAll s nested' pieces ls = .ok out)
    (inside : ∀ a, .operand a ∈ out → a.keepsNumbers known = true ∧ a.depth ≤ m) :
    Direct.addAll (s.inMode numeric compile) nested (pieces.map (Piece.inMode numeric)) ls =
      .ok (out.map (Piece.inMode numeric)) := by
  induction ls generalizing pieces with
  | nil =>
    cases h
    rw [Direct.addAll, List.map_reverse]
  | cons l ls ih =>
    obtain ⟨pieces', added, h⟩ := exists_of_bind h
    rw [Direct.addAll, reads.add added fun a mem => inside a (addAll_operand h mem)]
    exact ih h

end ReadsNumbers

theorem arrange_inMode {first expected : Bool} {parts : List (Part Operand)}
    (h : arrange s first expected pieces = .ok parts) :
    arrange (s.inMode numeric compile) first expected (pieces.map (Piece.inMode numeric)) =
      .ok (Part.allInMode numeric parts) := by
  induction pieces generalizing first expected parts with
  | nil =>
    obtain ⟨-, rfl⟩ := arrange_nil h
    rw [Part.allInMode]
    exact h
  | cons p pieces ih =>
    cases p with
    | operator symbol =>
      obtain ⟨part, known, h⟩ := exists_of_bind h
      obtain ⟨rest, arranged, h⟩ := exists_of_bind h
      cases h
      have same : part.inMode numeric = part := by
        rcases operatorPart_cases known with ⟨-, op, rfl⟩ | ⟨-, op, rfl⟩ <;> rw [Part.inMode]
      rw [Part.allInMode, same, List.map_cons, Piece.inMode, arrange, known, Outcome.ok_bind, ih arranged]
      rfl
    | name text | bracketName text =>
      obtain ⟨r, named, h⟩ := exists_of_bind h
      have same : reference (s.inMode numeric compile) text = .ok r := named
      split at h
      case isTrue expected =>
        obtain ⟨rest, arranged, h⟩ := exists_of_bind h
        cases h
        rw [Part.allInMode, Part.inMode, Operand.inMode, List.map_cons, Piece.inMode, arrange, same, Outcome.ok_bind,
          if_pos expected, ih arranged]
        rfl
      case isFalse => cases h
    | operand a =>
      rw [arrange] at h
      split at h
      case isTrue expected =>
        obtain ⟨rest, arranged, h⟩ := exists_of_bind h
        cases h
        rw [Part.allInMode, Part.inMode, List.map_cons, Piece.inMode, arrange, if_pos expected, ih arranged]
        rfl
      case isFalse => cases h

/-- As many levels as the formula is deep are enough, in each mode. -/
theorem formula_readsNumbers (numeric compile : Bool) (known : Reference → Bool) (m n : Nat) :
    ReadsNumbers numeric known m (formula (s.inMode numeric compile) m) (formula s n) := by
  induction m generalizing n with
  | zero => exact fun text f _ _ shallow => absurd shallow (Nat.not_lt_zero _)
  | succ m ih =>
    intro text f h keeps shallow
    cases n with
    | zero => cases h
    | succ n =>
      obtain ⟨pieces, added, h⟩ := exists_of_bind h
      obtain ⟨parts, arranged, h⟩ := exists_of_bind h
      cases h
      rw [Formula.keepsNumbers] at keeps
      rw [Formula.depth] at shallow
      have inside (a : Operand) (mem : .operand a ∈ pieces) : a.keepsNumbers known = true ∧ a.depth ≤ m :=
        ⟨Part.operand_keepsNumbers keeps (arrange_operand arranged mem),
          Nat.le_of_lt_succ (Nat.lt_of_le_of_lt (Part.depth_le (arrange_operand arranged mem)) shallow)⟩
      have row : addAll (s.inMode numeric compile) (formula (s.inMode numeric compile) m) [] (lexemes text) =
          .ok (pieces.map (Piece.inMode numeric)) := (ih n).addAll added inside
      rw [formula, row, Outcome.ok_bind, arrange_inMode arranged, Formula.inMode]
      rfl

end Direct

end ExactFormula
