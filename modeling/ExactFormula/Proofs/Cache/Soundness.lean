import ExactFormula.Proofs.Cache.Recency
import ExactFormula.Proofs.Reading.Direct

/-!
A sound cache holds, under the identity of an engine, only trees and resolvers that reading without a
memory gives with the settings of that engine, to some depth.
-/

namespace ExactFormula

variable {owner owner' : Nat → Option Settings} {c : Cache}

/-- The tree is what the trimmed text reads as, at the top or somewhere deeper. -/
structure Literal.IsTreeOf (s : Settings) (text : String) (tree : Literal) : Prop where
  readBy : tree.ReadBy s
  made : ∃ levels, Direct.tree? s (Direct.formula s levels) text.toList = some (.ok tree.bare)

def Resolver.IsMadeBy (s : Settings) (name : String) (resolver : Resolver) : Prop :=
  ∃ factory, s.reference = some factory ∧ factory name = .ok resolver

namespace Cache

/-- `owner` gives the settings of the engine that has an identity. -/
structure Sound (owner : Nat → Option Settings) (c : Cache) : Prop where
  literals : ∀ key entry, c.literals.Has key entry →
    ∃ s, owner key.1 = some s ∧ entry.2.IsTreeOf s key.2
  resolvers : ∀ key resolver, c.resolvers.Has key resolver →
    ∃ s, owner key.1 = some s ∧ Resolver.IsMadeBy s key.2 resolver
  bounded : c.literals.size ≤ c.literals.capacity

/-! ## Look-ups and insertions, table by table -/

theorem findLiteral_eq (key : CacheKey) (c : Cache) : ∃ stats, c.findLiteral key =
    (c.literals.lookup key, { c with literals := (c.literals.get key).2, stats }) := by
  simp only [findLiteral, Recency.get]
  cases c.literals.lookup key <;> exact ⟨_, rfl⟩

theorem findResolver_eq (key : CacheKey) (c : Cache) : ∃ stats, c.findResolver key =
    (c.resolvers.lookup key, { c with resolvers := (c.resolvers.get key).2, stats }) := by
  simp only [findResolver, Recency.get]
  cases c.resolvers.lookup key <;> exact ⟨_, rfl⟩

@[simp] theorem capacity_findLiteral (key : CacheKey) (c : Cache) :
    (c.findLiteral key).2.capacity = c.capacity := by
  obtain ⟨stats, eq⟩ := findLiteral_eq key c
  rw [eq]
  exact Recency.capacity_get c.literals key

@[simp] theorem capacity_findResolver (key : CacheKey) (c : Cache) :
    (c.findResolver key).2.capacity = c.capacity := by
  obtain ⟨stats, eq⟩ := findResolver_eq key c
  rw [eq]
  rfl

@[simp] theorem capacity_storeLiteral (key : CacheKey) (tree : Literal) (c : Cache) :
    (c.storeLiteral key tree).2.capacity = c.capacity :=
  Recency.capacity_insert c.literals key _

/-! ## Soundness is kept -/

namespace Sound

theorem empty (owner : Nat → Option Settings) (label capacity : Nat) :
    (Cache.empty label capacity).Sound owner where
  literals := by rintro _ _ ⟨_, ⟨⟩⟩
  resolvers := by rintro _ _ ⟨_, ⟨⟩⟩
  bounded := Nat.zero_le _

theorem clear (owner : Nat → Option Settings) (c : Cache) : c.clear.Sound owner where
  literals := by rintro _ _ ⟨_, ⟨⟩⟩
  resolvers := by rintro _ _ ⟨_, ⟨⟩⟩
  bounded := Nat.zero_le _

/-- Further engines change nothing, as they get identities of their own. -/
theorem mono (h : c.Sound owner) (more : ∀ id s, owner id = some s → owner' id = some s) :
    c.Sound owner' where
  literals key entry has :=
    let ⟨s, owned, tree⟩ := h.literals key entry has
    ⟨s, more _ _ owned, tree⟩
  resolvers key resolver has :=
    let ⟨s, owned, made⟩ := h.resolvers key resolver has
    ⟨s, more _ _ owned, made⟩
  bounded := h.bounded

theorem findLiteral (h : c.Sound owner) (key : CacheKey) : (c.findLiteral key).2.Sound owner := by
  obtain ⟨stats, eq⟩ := findLiteral_eq key c
  rw [eq]
  exact {
    literals := fun k entry has => h.literals k entry (Recency.has_of_has_get has)
    resolvers := h.resolvers
    bounded := Nat.le_trans (Nat.le_of_eq (Recency.size_get c.literals key)) h.bounded }

theorem findResolver (h : c.Sound owner) (key : CacheKey) : (c.findResolver key).2.Sound owner := by
  obtain ⟨stats, eq⟩ := findResolver_eq key c
  rw [eq]
  exact {
    literals := h.literals
    resolvers := fun k resolver has => h.resolvers k resolver (Recency.has_of_has_get has)
    bounded := h.bounded }

theorem storeLiteral (h : c.Sound owner) {key : CacheKey} {tree : Literal} {s : Settings}
    (owned : owner key.1 = some s) (isTree : tree.IsTreeOf s key.2) :
    (c.storeLiteral key tree).2.Sound owner where
  literals k entry has := by
    rcases Recency.has_of_has_insert has with ⟨rfl, rfl⟩ | before
    · exact ⟨s, owned, isTree⟩
    · exact h.literals k entry before
  resolvers := h.resolvers
  bounded := Recency.size_insert_le h.bounded key _

theorem storeResolver (h : c.Sound owner) {key : CacheKey} {resolver : Resolver} {s : Settings}
    (owned : owner key.1 = some s) (made : Resolver.IsMadeBy s key.2 resolver) :
    (c.storeResolver key resolver).2.Sound owner where
  literals := h.literals
  resolvers k r has := by
    rcases Recency.has_of_has_insert has with ⟨rfl, rfl⟩ | before
    · exact ⟨s, owned, made⟩
    · exact h.resolvers k r before
  bounded := h.bounded

/-! ## What a hit gives -/

theorem of_findLiteral (h : c.Sound owner) (key : CacheKey) (entry : Serial × Literal)
    (hit : (c.findLiteral key).1 = some entry) :
    c.capacity ≠ 0 ∧ ∃ s, owner key.1 = some s ∧ entry.2.IsTreeOf s key.2 := by
  obtain ⟨stats, eq⟩ := findLiteral_eq key c
  rw [eq] at hit
  have has := Recency.has_of_lookup hit
  exact ⟨fun zero => Recency.not_has_of_capacity_zero h.bounded zero key entry has,
    h.literals key entry has⟩

theorem of_findResolver (h : c.Sound owner) (key : CacheKey) (resolver : Resolver)
    (hit : (c.findResolver key).1 = some resolver) :
    ∃ s, owner key.1 = some s ∧ Resolver.IsMadeBy s key.2 resolver := by
  obtain ⟨stats, eq⟩ := findResolver_eq key c
  rw [eq] at hit
  exact h.resolvers key resolver (Recency.has_of_lookup hit)

end Sound

end Cache

end ExactFormula
