import ExactFormula.Formula.Planning
import ExactFormula.Settings

/-!
What holds of every formula that was read with given settings: its mode is theirs, its plan is none or
the one of its parts, the formulas that a plan inlines have no plan of their own, and references of one
name are resolved alike.
-/

namespace ExactFormula

/-- How the settings resolve a name. -/
inductive Reference.ReadBy (s : Settings) : Reference → Prop
  | lookup {name} (plain : s.reference = none) : ReadBy s ⟨name, .lookup s.default⟩
  | custom {name factory resolver} (given : s.reference = some factory) (made : factory name = .ok resolver) :
    ReadBy s ⟨name, .custom resolver⟩

theorem Reference.ReadBy.eq {s : Settings} {r q : Reference} (hr : r.ReadBy s) (hq : q.ReadBy s)
    (same : r.name = q.name) : r = q := by
  cases hr with
  | lookup plain =>
    cases hq with
    | lookup => exact congrArg (fun name => (⟨name, .lookup s.default⟩ : Reference)) same
    | custom given => rw [plain] at given; cases given
  | custom given made =>
    cases hq with
    | lookup plain => rw [plain] at given; cases given
    | custom given' made' =>
      dsimp only at same
      subst same
      rw [given, Option.some.injEq] at given'
      subst given'
      rw [made, Except.ok.injEq] at made'
      rw [made']

mutual
def Formula.ReadBy (s : Settings) : Formula → Prop
  | ⟨_, parts, numeric, plan⟩ =>
    numeric = s.numeric ∧ (plan = none ∨ plan = Plan.ofParts? s.numeric parts) ∧ Part.AllReadBy s parts

def Part.AllReadBy (s : Settings) : List (Part Operand) → Prop
  | [] => True
  | p :: ps => Part.ReadBy s p ∧ Part.AllReadBy s ps

def Part.ReadBy (s : Settings) : Part Operand → Prop
  | .operand a => a.ReadBy s
  | .unary _ => True
  | .binary _ => True

def Operand.ReadBy (s : Settings) : Operand → Prop
  | .text _ => True
  | .constant _ => True
  | .reference r => r.ReadBy s
  | .call _ _ args => Formula.AllReadBy s args
  | .group f => f.ReadBy s ∧ f.plan = none
  | .literal _ tree => tree.ReadBy s

/-- The formulas have no plans of their own. -/
def Formula.AllReadBy (s : Settings) : List Formula → Prop
  | [] => True
  | f :: fs => (f.ReadBy s ∧ f.plan = none) ∧ Formula.AllReadBy s fs

def Literal.ReadBy (s : Settings) : Literal → Prop
  | .value _ => True
  | .array items => Literal.AllReadBy s items
  | .object members => Literal.MembersReadBy s members
  | .formula f _ => f.ReadBy s

def Literal.AllReadBy (s : Settings) : List Literal → Prop
  | [] => True
  | l :: ls => l.ReadBy s ∧ Literal.AllReadBy s ls

def Literal.MembersReadBy (s : Settings) : List (String × Literal) → Prop
  | [] => True
  | (_, l) :: ls => l.ReadBy s ∧ Literal.MembersReadBy s ls
end

theorem Formula.ReadBy.numeric_eq {s : Settings} {f : Formula} (h : f.ReadBy s) : f.numeric = s.numeric := by
  obtain ⟨source, parts, numeric, plan⟩ := f
  rw [Formula.ReadBy] at h
  exact h.1

theorem Formula.ReadBy.plan_eq {s : Settings} {f : Formula} (h : f.ReadBy s) :
    f.plan = none ∨ f.plan = Plan.ofParts? s.numeric f.parts := by
  obtain ⟨source, parts, numeric, plan⟩ := f
  rw [Formula.ReadBy] at h
  exact h.2.1

theorem Formula.ReadBy.parts {s : Settings} {f : Formula} (h : f.ReadBy s) : Part.AllReadBy s f.parts := by
  obtain ⟨source, parts, numeric, plan⟩ := f
  rw [Formula.ReadBy] at h
  exact h.2.2

end ExactFormula
