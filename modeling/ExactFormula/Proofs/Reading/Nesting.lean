import ExactFormula.Proofs.Formula.Depth
import ExactFormula.Proofs.Reading.Lexed

/-!
A text without literals is read by any reader that reads as deep as its formula is.
-/

namespace ExactFormula

/-- There is no backslash, brace or bracket in the text. -/
def Text.Simple (text : List Char) : Prop := ∀ c ∈ text, c ∉ ['\\', '{', '}', '[', ']']

theorem Text.Simple.subset {text text' : List Char} (h : Simple text) (subset : text' ⊆ text) : Simple text' :=
  fun c mem => h c (subset mem)

namespace Direct

variable {s : Settings} {nested nested' : Nested} {pieces pieces' out : List Piece} {m : Nat}

/-- An accepted text has all its delimiters in pairs. -/
theorem matched_of_addAll {ls : List Lexeme} (h : addAll s nested pieces ls = .ok out) (d : Char) :
    .unmatched d ∉ ls := by
  intro mem
  obtain ⟨before, after, added⟩ := addAll_mem h mem
  cases added

/-- The lexemes of a simple text are simple. -/
theorem simple_of_mem {text : List Char} (simple : Text.Simple text)
    (h : addAll s nested [] (lexemes text) = .ok out) {l : Lexeme} (mem : l ∈ lexemes text) : Text.Simple l.chars :=
  simple.subset ((Lexeme.lexed_lexemes (matched_of_addAll h)).chars_subset l mem)

theorem simple_splitArgs {inner : List Char} (simple : Text.Simple inner) :
    ∀ text ∈ Lexeme.splitArgs inner, Text.Simple text := fun text mem =>
  simple.subset ((Lexeme.joined_splitArgs inner).subset text mem)

/-! ## Depths -/

/-- What one reader reads, the other one reads too, unless it is too deep. -/
def ReadsTo (m : Nat) (nested nested' : Nested) : Prop :=
  ∀ text f, Text.Simple text → nested' text = .ok f → f.depth < m → nested text = .ok f

namespace ReadsTo

variable (reads : ReadsTo m nested nested')

include reads

theorem args {function : String} {index : Nat} {texts : List (List Char)} {fs : List Formula}
    (simple : ∀ text ∈ texts, Text.Simple text) (h : args nested' function index texts = .ok fs)
    (shallow : Formula.depthBelow fs ≤ m) : Direct.args nested function index texts = .ok fs := by
  induction texts generalizing index fs with
  | nil => exact h
  | cons text texts ih =>
    obtain ⟨first, simple⟩ := List.forall_mem_cons.1 simple
    rw [Direct.args] at h ⊢
    split at h
    case isTrue => cases h
    case isFalse shown =>
      obtain ⟨f, read, h⟩ := exists_of_bind h
      obtain ⟨fs, rest, h⟩ := exists_of_bind h
      cases h
      rw [Formula.depthBelow, Nat.max_le] at shallow
      rw [if_neg shown, reads text f first read shallow.1, ih simple rest shallow.2]
      rfl

theorem call {function : String} {inner : List Char} {a : Operand} (simple : Text.Simple inner)
    (h : call s nested' function inner = .ok a) (shallow : a.depth ≤ m) :
    Direct.call s nested function inner = .ok a := by
  rw [Direct.call] at h ⊢
  cases known : s.functions.get? function with
  | none => rw [known] at h; cases h
  | some f =>
    simp only [known] at h ⊢
    split at h
    case h_1 => cases h
    case h_2 =>
      obtain ⟨fs, read, h⟩ := exists_of_bind h
      cases h
      rw [Operand.depth] at shallow
      have simple : ∀ text ∈ if (Text.trim inner).isEmpty then [] else Lexeme.splitArgs inner, Text.Simple text := by
        split
        · exact List.forall_mem_nil _
        · exact simple_splitArgs simple
      rw [reads.args simple read shallow]
      rfl

theorem group {inner : List Char} {a : Operand} (simple : Text.Simple inner) (h : group nested' inner = .ok a)
    (shallow : a.depth ≤ m) : Direct.group nested inner = .ok a := by
  rw [Direct.group] at h ⊢
  split at h
  case isTrue => cases h
  case isFalse shown =>
    obtain ⟨f, read, h⟩ := exists_of_bind h
    cases h
    rw [Operand.depth] at shallow
    rw [if_neg shown, reads inner f simple read shallow]
    rfl

theorem add {l : Lexeme} (simple : Text.Simple l.chars) (h : add s nested' pieces l = .ok pieces')
    (shallow : ∀ a, .operand a ∈ pieces' → a.depth ≤ m) : Direct.add s nested pieces l = .ok pieces' := by
  cases l with
  | word text => exact h
  | operator symbol => exact h
  | quoted content => exact h
  | unmatched delimiter => exact h
  | brackets inner => exact absurd (by simp) (simple '[' List.mem_cons_self)
  | braces inner => exact absurd (by simp) (simple '{' List.mem_cons_self)
  | parens inner =>
    have simple : Text.Simple inner := simple.subset (List.subset_cons_self _ _)
    rcases add_parens s pieces inner with ⟨function, ps, rfl, called⟩ | ⟨-, grouped⟩
    · rw [called] at h ⊢
      obtain ⟨a, accepted, h⟩ := exists_of_bind h
      cases h
      rw [reads.call simple accepted (shallow a List.mem_cons_self)]
      rfl
    · rw [grouped] at h ⊢
      obtain ⟨a, accepted, h⟩ := exists_of_bind h
      cases h
      rw [reads.group simple accepted (shallow a List.mem_cons_self)]
      rfl

theorem addAll {ls : List Lexeme} (simple : ∀ l ∈ ls, Text.Simple l.chars)
    (h : addAll s nested' pieces ls = .ok out) (shallow : ∀ a, .operand a ∈ out → a.depth ≤ m) :
    Direct.addAll s nested pieces ls = .ok out := by
  induction ls generalizing pieces with
  | nil => exact h
  | cons l ls ih =>
    obtain ⟨first, simple⟩ := List.forall_mem_cons.1 simple
    obtain ⟨pieces', added, h⟩ := exists_of_bind h
    rw [Direct.addAll, reads.add first added fun a mem => shallow a (addAll_operand h mem)]
    exact ih simple h

end ReadsTo

/-- As many levels as the formula is deep are enough. -/
theorem formula_readsTo (m n : Nat) : ReadsTo m (formula s m) (formula s n) := by
  induction m generalizing n with
  | zero => exact fun text f _ _ shallow => absurd shallow (Nat.not_lt_zero _)
  | succ m ih =>
    intro text f simple h shallow
    cases n with
    | zero => cases h
    | succ n =>
      obtain ⟨pieces, added, h⟩ := exists_of_bind h
      obtain ⟨parts, arranged, h⟩ := exists_of_bind h
      cases h
      rw [Formula.depth] at shallow
      have below (a : Operand) (mem : .operand a ∈ pieces) : a.depth ≤ m :=
        Nat.le_of_lt_succ (Nat.lt_of_le_of_lt (Part.depth_le (arrange_operand arranged mem)) shallow)
      have simple (l : Lexeme) (mem : l ∈ lexemes text) : Text.Simple l.chars := simple_of_mem simple added mem
      have deep : formula s (m + 1) text = arrange s true true pieces >>= fun parts =>
          .ok ⟨String.ofList text, parts, s.numeric, none⟩ := by
        rw [formula, (ih n).addAll simple added below]
        rfl
      rw [deep, arranged]
      rfl

end Direct

end ExactFormula
