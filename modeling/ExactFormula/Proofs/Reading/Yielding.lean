import ExactFormula.Proofs.Formula.Modes
import ExactFormula.Proofs.Reading.Levels
import ExactFormula.Proofs.Reading.Running

/-!
What readings give on any cache, whatever it holds. Only literals come from caches, so a formula of numbers, which has
none, nests no deeper than the levels that it was read with.
-/

namespace ExactFormula

variable {α β : Type} {known : Reference → Bool} {k : Nat} {env : ReadingEnv} {nested : NestedReader}

/-- On every cache the result, if there is one, has the property. -/
def Yields (P : α → Prop) (x : Reading α) : Prop := ∀ c a c', x.run c = (.ok a, c') → P a

namespace Yields

variable {P : α → Prop} {Q : β → Prop}

theorem lift {r : Except FormulaError α} (h : ∀ a, r = .ok a → P a) : Yields P (liftM r) := by
  intro c a c' ran
  cases r with
  | error e => cases ran
  | ok b =>
    cases ran
    exact h a rfl

theorem pure {a : α} (h : P a) : Yields P (pure a) := lift fun _ same => Except.ok.inj same ▸ h

theorem throw (e : FormulaError) : Yields P (throw e) := lift nofun

theorem bind {x : Reading α} {f : α → Reading β} (hx : Yields P x) (hf : ∀ a, P a → Yields Q (f a)) :
    Yields Q (x >>= f) := by
  intro c b c' ran
  obtain ⟨a, c₁, first, later⟩ := Caching.run_bind_ok ran
  exact hf a (hx c a c₁ first) c₁ b c' later

theorem any (x : Reading α) : Yields (fun _ => True) x := fun _ _ _ _ => trivial

end Yields

/-! ## Pieces -/

/-- Where the operand is made of numbers, it nests no deeper. -/
def Operand.Shallow (known : Reference → Bool) (k : Nat) (a : Operand) : Prop :=
  a.keepsNumbers known = true → a.depth ≤ k

theorem Operand.Shallow.of_le {a : Operand} (le : a.depth ≤ k) : a.Shallow known k := fun _ => le

theorem Operand.Shallow.of_other {a : Operand} (other : a.keepsNumbers known = false) : a.Shallow known k := by
  intro keeps
  rw [other] at keeps
  cases keeps

/-- What the nested texts are read as nests less deep, where it is made of numbers. -/
def NestedReader.Shallow (known : Reference → Bool) (k : Nat) (nested : NestedReader) : Prop :=
  ∀ planned text, Yields (fun f => f.keepsNumbers known = true → f.depth < k) (nested planned text)

theorem embeddedLiteral_yields (source : List Char) :
    Yields (Operand.Shallow known k) (embeddedLiteral env nested source) := by
  rw [embeddedLiteral]
  refine (Yields.any _).bind fun found _ => ?_
  split
  · exact .pure (.of_other (by rw [Operand.keepsNumbers]))
  · exact .pure (.of_other (by rw [Operand.keepsNumbers]))
  · exact .throw _

theorem Piece.readCall_yields (function : String) (inner : List Char) :
    Yields (Operand.Shallow known k) (Piece.readCall env nested function inner) := by
  simp only [Piece.readCall]
  cases env.settings.functions.get? function with
  | none => exact .throw _
  | some f =>
    dsimp only
    split
    · exact .throw _
    · exact (Yields.any _).bind fun args _ => .pure (.of_other (by rw [Operand.keepsNumbers]))

theorem Piece.readGroup_yields (h : nested.Shallow known k) (inner : List Char) :
    Yields (Operand.Shallow known k) (Piece.readGroup nested inner) := by
  simp only [Piece.readGroup]
  split
  · exact .throw _
  · refine (h false inner).bind fun f shallow => .pure fun keeps => ?_
    rw [Operand.keepsNumbers] at keeps
    rw [Operand.depth]
    exact shallow keeps

/-- The operands among the pieces nest no deeper, where they are made of numbers. -/
def Piece.AllShallow (known : Reference → Bool) (k : Nat) (ps : List Piece) : Prop :=
  ∀ a, .operand a ∈ ps → a.Shallow known k

theorem Piece.AllShallow.cons {ps : List Piece} (h : Piece.AllShallow known k ps) {p : Piece}
    (here : ∀ a, p = .operand a → a.Shallow known k) : Piece.AllShallow known k (p :: ps) := by
  intro a mem
  rcases List.mem_cons.1 mem with same | mem
  · exact here a same.symm
  · exact h a mem

theorem Piece.AllShallow.operand {ps : List Piece} (h : Piece.AllShallow known k ps) {x : Reading Operand}
    (hx : Yields (Operand.Shallow known k) x) :
    Yields (Piece.AllShallow known k) (do return .operand (← x) :: ps) :=
  hx.bind fun a shallow => .pure (h.cons fun b same => by cases same; exact shallow)

theorem Piece.add_yields (h : nested.Shallow known k) {ps : List Piece} (before : Piece.AllShallow known k ps)
    (l : Lexeme) : Yields (Piece.AllShallow known k) (Piece.add env nested ps l) := by
  cases l with
  | word text =>
    refine (Yields.lift fun p read => read).bind fun p read => .pure (before.cons fun a same => ?_)
    subst same
    exact .of_le ((Direct.depth_held env.settings k).ofWord read)
  | operator symbol => exact .pure (before.cons fun _ same => by cases same)
  | quoted content =>
    refine .pure (before.cons fun a same => ?_)
    cases same
    exact .of_le ((Direct.depth_held env.settings k).ofQuoted content)
  | parens inner =>
    have grouped : Yields (Piece.AllShallow known k) (do return .operand (← Piece.readGroup nested inner) :: ps) :=
      before.operand (Piece.readGroup_yields h inner)
    cases ps with
    | nil => exact grouped
    | cons p ps =>
      cases p with
      | name function =>
        have earlier : Piece.AllShallow known k ps := fun a mem => before a (List.mem_cons_of_mem _ mem)
        exact earlier.operand (Piece.readCall_yields function inner)
      | operator symbol => exact grouped
      | bracketName text => exact grouped
      | operand a => exact grouped
  | brackets inner =>
    simp only [Piece.add]
    split
    · exact .pure (before.cons fun _ same => by cases same)
    · exact before.operand (embeddedLiteral_yields _)
  | braces inner => exact before.operand (embeddedLiteral_yields _)
  | unmatched delimiter => exact .throw _

theorem Piece.addAll_yields (h : nested.Shallow known k) {ps : List Piece} (before : Piece.AllShallow known k ps)
    (ls : List Lexeme) : Yields (Piece.AllShallow known k) (Piece.addAll env nested ps ls) := by
  induction ls generalizing ps with
  | nil => exact .pure fun a mem => before a (List.mem_reverse.1 mem)
  | cons l ls ih => exact (Piece.add_yields h before l).bind fun _ after => ih after

/-! ## Parts and formulas -/

def Part.AllShallow (known : Reference → Bool) (k : Nat) (ps : List (Part Operand)) : Prop :=
  ∀ a, .operand a ∈ ps → a.Shallow known k

theorem Part.AllShallow.cons {p : Part Operand} (here : ∀ a, p = .operand a → a.Shallow known k)
    {x : Reading (List (Part Operand))} (hx : Yields (Part.AllShallow known k) x) :
    Yields (Part.AllShallow known k) (do return p :: (← x)) :=
  hx.bind fun ps later => .pure fun a mem => by
    rcases List.mem_cons.1 mem with same | mem
    · exact here a same.symm
    · exact later a mem

theorem Piece.arrange_yields {ps : List Piece} (h : Piece.AllShallow known k ps) (first operandExpected : Bool) :
    Yields (Part.AllShallow known k) (Piece.arrange env first operandExpected ps) := by
  induction ps generalizing first operandExpected with
  | nil =>
    simp only [Piece.arrange]
    split
    · exact .throw _
    · split
      · exact .throw _
      · exact .pure fun a mem => absurd mem List.not_mem_nil
  | cons p ps ih =>
    have later : Piece.AllShallow known k ps := fun a mem => h a (List.mem_cons_of_mem _ mem)
    have named (text : String) :
        Yields (Part.AllShallow known k) (Piece.arrange env first operandExpected (.name text :: ps)) := by
      simp only [Piece.arrange]
      refine (Yields.any _).bind fun r _ => ?_
      cases operandExpected with
      | false => exact .throw _
      | true =>
        refine .cons (fun a same => .of_le ?_) (ih later false false)
        cases same
        rw [Operand.depth]
        exact Nat.zero_le k
    cases p with
    | operator symbol =>
      refine (Yields.lift fun p placed => placed).bind fun p placed => .cons (fun a same => ?_) (ih later false true)
      subst same
      rcases Direct.operatorPart_cases placed with ⟨-, _, made⟩ | ⟨-, _, made⟩ <;> cases made
    | name text => exact named text
    | bracketName text => exact named text
    | operand a =>
      simp only [Piece.arrange]
      cases operandExpected with
      | false => exact .throw _
      | true =>
        refine .cons (fun b same => ?_) (ih later false false)
        cases same
        exact h a List.mem_cons_self

/-- A formula of numbers nests less deep than the levels that it was read with, on whatever cache. -/
theorem readFormula_shallow (env : ReadingEnv) (known : Reference → Bool) (levels : Nat) :
    NestedReader.Shallow known levels (readFormula env levels) := by
  induction levels with
  | zero => exact fun planned text => .throw _
  | succ levels ih =>
    intro planned text
    rw [readFormula]
    refine (Piece.addAll_yields ih (fun a mem => absurd mem List.not_mem_nil) _).bind fun pieces shallow => ?_
    refine (Piece.arrange_yields shallow true true).bind fun parts shallow => .pure fun keeps => ?_
    rw [Formula.keepsNumbers] at keeps
    rw [Formula.depth]
    exact Nat.lt_succ_of_le (Part.depthAll_le fun a mem => shallow a mem (Part.operand_keepsNumbers keeps mem))

end ExactFormula
