import ExactFormula.Json.Basic

/-!
Places inside a value, by the items and members that lead there. Of two kinds of values, one simulates the other when
it does so child by child.
-/

namespace ExactFormula

inductive Spot
  | item (n : Nat)
  | member (name : String)

/-- What stands at a place, where each spot leads to a child. -/
def follow {α : Type} (child? : Spot → α → Option α) : List Spot → α → Option α
  | [], a => some a
  | spot :: path, a => (child? spot a).bind (follow child? path)

theorem follow_simulates {α β : Type} {child? : Spot → α → Option α} {child?' : Spot → β → Option β} {R : α → β → Prop}
    (simulates : ∀ a b, R a b → ∀ spot a', child? spot a = some a' → ∃ b', child?' spot b = some b' ∧ R a' b')
    (path : List Spot) {a a' : α} {b : β} (related : R a b) (found : follow child? path a = some a') :
    ∃ b', follow child?' path b = some b' ∧ R a' b' := by
  induction path generalizing a b with
  | nil =>
    cases found
    exact ⟨b, rfl, related⟩
  | cons spot path ih =>
    obtain ⟨next, first, found⟩ := Option.bind_eq_some_iff.1 found
    obtain ⟨next', first', related⟩ := simulates a b related spot next first
    obtain ⟨b', found', related⟩ := ih related found
    exact ⟨b', by rw [follow, first', Option.bind_some, found'], related⟩

def Json.child? : Spot → Json → Option Json
  | .item n, .array items => items[n]?
  | .member name, .object members => Entries.get? name members
  | _, _ => none

end ExactFormula
