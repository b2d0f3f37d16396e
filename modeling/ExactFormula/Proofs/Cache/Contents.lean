import ExactFormula.Proofs.Cache.Soundness
import Mathlib.Data.Prod.Basic

/-!
What a cache holds: its trees without their plans and serial numbers, and its resolvers, each under a name that is
given to the identity it belongs to. What a table finds, keeps and gives up depends on which keys are the same and on
the times of use alone, never on the values.
-/

namespace ExactFormula

namespace Recency

variable {κ κ' α β : Type} {g : κ → κ'} {f : α → β}

def bimap (g : κ → κ') (f : α → β) (t : Recency κ α) : Recency κ' β :=
  ⟨t.capacity, t.tick, t.entries.map fun e => (g e.1, f e.2.1, e.2.2)⟩

def map (f : α → β) (t : Recency κ α) : Recency κ β :=
  ⟨t.capacity, t.tick, t.entries.map fun e => (e.1, f e.2.1, e.2.2)⟩

theorem oldest?_bimap (es : List (κ × α × Nat)) :
    oldest? (es.map fun e => (g e.1, f e.2.1, e.2.2)) = (oldest? es).map fun e => (g e.1, f e.2.1, e.2.2) := by
  induction es with
  | nil => rfl
  | cons e es ih =>
    rw [List.map_cons, oldest?, oldest?, ih]
    cases oldest? es with
    | none => rfl
    | some older =>
      dsimp only [Option.map_some]
      split
      · rfl
      · rfl

variable [DecidableEq κ] [DecidableEq κ'] (injective : Function.Injective g)

include injective

theorem lookup_bimap (key : κ) (t : Recency κ α) : (t.bimap g f).lookup (g key) = (t.lookup key).map f := by
  have same (e : κ × α × Nat) : (g e.1 == g key) = (e.1 == key) := by
    rw [Bool.eq_iff_iff, beq_iff_eq, beq_iff_eq, injective.eq_iff]
  rw [lookup, lookup, bimap, List.find?_map, Option.map_map, Option.map_map]
  refine congrArg (Option.map _) (congrArg (List.find? · t.entries) (funext same))

theorem touch_bimap (key : κ) (tick : Nat) (es : List (κ × α × Nat)) :
    touch (g key) tick (es.map fun e => (g e.1, f e.2.1, e.2.2)) =
      (touch key tick es).map fun e => (g e.1, f e.2.1, e.2.2) := by
  induction es with
  | nil => rfl
  | cons e es ih =>
    obtain ⟨k, v, used⟩ := e
    simp only [List.map_cons, touch, injective.eq_iff]
    split
    · rfl
    · rw [ih, List.map_cons]

theorem get_bimap (key : κ) (t : Recency κ α) :
    (t.bimap g f).get (g key) = ((t.get key).1.map f, (t.get key).2.bimap g f) := by
  rw [get, lookup_bimap injective]
  exact congrArg (fun es => (_, (⟨t.capacity, t.tick + 1, es⟩ : Recency κ' β)))
    (touch_bimap injective key _ t.entries)

theorem victim?_bimap (key : κ) (t : Recency κ α) : (t.bimap g f).victim? (g key) = (t.victim? key).map g := by
  rw [victim?, victim?, lookup_bimap injective, Option.isNone_map]
  have size : (t.bimap g f).size = t.size := List.length_map ..
  have capacity : (t.bimap g f).capacity = t.capacity := rfl
  rw [size, capacity]
  split
  · show (oldest? (t.entries.map _)).map _ = _
    rw [oldest?_bimap, Option.map_map, Option.map_map]
    rfl
  · rfl

theorem remove_bimap (key : κ) (es : List (κ × α × Nat)) :
    remove (g key) (es.map fun e => (g e.1, f e.2.1, e.2.2)) =
      (remove key es).map fun e => (g e.1, f e.2.1, e.2.2) := by
  rw [remove, remove, List.filter_map]
  refine congrArg (List.map _) (List.filter_congr fun e _ => ?_)
  simp only [Function.comp_apply, ne_eq, injective.eq_iff]

theorem insert_bimap (key : κ) (value : α) (t : Recency κ α) :
    (t.bimap g f).insert (g key) (f value) = ((t.insert key value).1, (t.insert key value).2.bimap g f) := by
  rw [insert, insert]
  show (if t.capacity = 0 then _ else _) = _
  split
  · rfl
  · dsimp only
    rw [victim?_bimap injective, Option.isSome_map, Option.getD_map]
    exact congrArg (fun es => (_, (⟨t.capacity, t.tick + 1, (g key, f value, t.tick + 1) :: es⟩ : Recency κ' β)))
      (remove_bimap injective _ t.entries)

omit injective

theorem get_map (key : κ) (t : Recency κ α) :
    (t.map f).get key = ((t.get key).1.map f, (t.get key).2.map f) := get_bimap Function.injective_id key t

theorem insert_map (key : κ) (value : α) (t : Recency κ α) :
    (t.map f).insert key (f value) = ((t.insert key value).1, (t.insert key value).2.map f) :=
  insert_bimap Function.injective_id key value t

end Recency

/-- What is found under the names of keys. -/
structure Contents where
  literals : Recency CacheKey Literal
  resolvers : Recency CacheKey Resolver

namespace Contents

def findLiteral (key : CacheKey) (c : Contents) : Option Literal × Contents :=
  ((c.literals.get key).1, { c with literals := (c.literals.get key).2 })

def storeLiteral (key : CacheKey) (tree : Literal) (c : Contents) : Contents :=
  { c with literals := (c.literals.insert key tree).2 }

def findResolver (key : CacheKey) (c : Contents) : Option Resolver × Contents :=
  ((c.resolvers.get key).1, { c with resolvers := (c.resolvers.get key).2 })

def storeResolver (key : CacheKey) (resolver : Resolver) (c : Contents) : Contents :=
  { c with resolvers := (c.resolvers.insert key resolver).2 }

def clear (c : Contents) : Contents := ⟨c.literals.clear, c.resolvers.clear⟩

end Contents

/-- The key with another name for the identity. -/
def CacheKey.named (ρ : Nat → Nat) (key : CacheKey) : CacheKey := (ρ key.1, key.2)

theorem CacheKey.named_injective {ρ : Nat → Nat} (injective : Function.Injective ρ) :
    Function.Injective (CacheKey.named ρ) := injective.prodMap Function.injective_id

namespace Cache

variable {ρ : Nat → Nat}

def contents (ρ : Nat → Nat) (c : Cache) : Contents :=
  ⟨c.literals.bimap (CacheKey.named ρ) (·.2.bare), c.resolvers.bimap (CacheKey.named ρ) id⟩

variable (injective : Function.Injective ρ)

include injective

theorem findLiteral_contents (key : CacheKey) (c : Cache) : (c.contents ρ).findLiteral (key.named ρ) =
    ((c.findLiteral key).1.map (·.2.bare), (c.findLiteral key).2.contents ρ) := by
  rw [Contents.findLiteral, contents, Recency.get_bimap (CacheKey.named_injective injective), findLiteral]
  generalize c.literals.get key = result
  obtain ⟨_ | found, literals⟩ := result <;> rfl

theorem storeLiteral_contents (key : CacheKey) (tree : Literal) (c : Cache) :
    (c.contents ρ).storeLiteral (key.named ρ) tree.bare = (c.storeLiteral key tree).2.contents ρ := by
  have inserted := Recency.insert_bimap (f := fun entry : Serial × Literal => entry.2.bare)
    (CacheKey.named_injective injective) key ((c.label, c.built), tree) c.literals
  rw [Contents.storeLiteral, contents, inserted]
  rfl

theorem findResolver_contents (key : CacheKey) (c : Cache) : (c.contents ρ).findResolver (key.named ρ) =
    ((c.findResolver key).1, (c.findResolver key).2.contents ρ) := by
  rw [Contents.findResolver, contents, Recency.get_bimap (CacheKey.named_injective injective), findResolver]
  generalize c.resolvers.get key = result
  obtain ⟨_ | found, resolvers⟩ := result <;> rfl

theorem storeResolver_contents (key : CacheKey) (resolver : Resolver) (c : Cache) :
    (c.contents ρ).storeResolver (key.named ρ) resolver = (c.storeResolver key resolver).2.contents ρ := by
  have inserted := Recency.insert_bimap (f := id) (CacheKey.named_injective injective) key resolver c.resolvers
  rw [id] at inserted
  rw [Contents.storeResolver, contents, inserted]
  rfl

end Cache

end ExactFormula
