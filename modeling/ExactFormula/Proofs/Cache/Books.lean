import ExactFormula.Proofs.Cache.Contents
import ExactFormula.Proofs.Cache.Ranking
import Mathlib.Data.List.Perm.Subperm
import Mathlib.Logic.Function.Basic

/-!
The books of a cache: its tables without their values, and its counts. Both tables are kept alike, so that
what holds of one of them is said once, under its name.
-/

namespace ExactFormula

inductive Table
  | literals
  | resolvers
  deriving DecidableEq

/-- A cache without its values: its tables with their counts, by name. -/
@[ext] structure Books where
  table : Table → Recency CacheKey Unit
  hits : Table → Nat
  misses : Table → Nat
  evictions : Nat

namespace Books

def keys (t : Table) (b : Books) : List CacheKey := (b.table t).entries.map Prod.fst

def holds (t : Table) (key : CacheKey) (b : Books) : Bool := ((b.table t).lookup key).isSome

def look (t : Table) (key : CacheKey) (b : Books) : Books :=
  { b with
    table := Function.update b.table t ((b.table t).get key).2
    hits := Function.update b.hits t (b.hits t + (b.holds t key).toNat)
    misses := Function.update b.misses t (b.misses t + (!b.holds t key).toNat) }

def store (t : Table) (key : CacheKey) (b : Books) : Bool × Books :=
  let (evicted, table) := (b.table t).insert key ()
  (evicted, { b with
    table := Function.update b.table t table
    evictions := b.evictions + Cache.evictionCount evicted })

variable {t u : Table} {key k : CacheKey} {b b' : Books}

theorem holds_eq_false_iff : b.holds t key = false ↔ key ∉ b.keys t := by
  rw [holds, Option.isSome_eq_false_iff, Option.isNone_iff_eq_none, Recency.lookup_eq_none_iff, keys]

@[simp] theorem keys_look : (b.look t key).keys u = b.keys u := by
  by_cases here : u = t
  · subst here
    simp [keys, look, Recency.get]
  · simp [keys, look, here]

@[simp] theorem capacity_look : ((b.look t key).table u).capacity = (b.table u).capacity := by
  by_cases here : u = t
  · subst here
    simp [look]
  · simp [look, here]

@[simp] theorem capacity_store : ((b.store t key).2.table u).capacity = (b.table u).capacity := by
  by_cases here : u = t
  · subst here
    simp [store]
  · simp [store, here]

theorem hits_look : (b.look t key).hits u = b.hits u + if t = u then (b.holds t key).toNat else 0 := by
  by_cases here : t = u
  · subst here
    simp [look]
  · simp [look, here, Ne.symm here]

theorem misses_look : (b.look t key).misses u = b.misses u + if t = u then (!b.holds t key).toNat else 0 := by
  by_cases here : t = u
  · subst here
    simp [look]
  · simp [look, here, Ne.symm here]

@[simp] theorem hits_store : (b.store t key).2.hits = b.hits := rfl

@[simp] theorem misses_store : (b.store t key).2.misses = b.misses := rfl

@[simp] theorem evictions_look : (b.look t key).evictions = b.evictions := rfl

theorem evictions_store : (b.store t key).2.evictions = b.evictions + (b.store t key).1.toNat := by
  simp only [store]
  cases ((b.table t).insert key ()).1 <;> rfl

theorem keys_store_of_ne (other : u ≠ t) : (b.store t key).2.keys u = b.keys u := by
  simp [keys, store, other]

theorem keys_store_self : (b.store t key).2.keys t = ((b.table t).insert key ()).2.entries.map Prod.fst := by
  simp [keys, store]

theorem mem_keys_of_mem_store (h : k ∈ (b.store t key).2.keys u) : (u = t ∧ k = key) ∨ k ∈ b.keys u := by
  by_cases here : u = t
  · subst here
    rw [keys_store_self] at h
    exact (Recency.mem_keys_of_mem_insert h).imp_left fun new => ⟨rfl, new⟩
  · rw [keys_store_of_ne here] at h
    exact .inr h

/-! ## Books in order -/

/-- Every table holds what some ranking lists, and has room for something. -/
structure Tidy (b : Books) : Prop where
  ranked : ∀ t, ∃ es, (b.table t).Ordered es
  room : ∀ t, 0 < (b.table t).capacity

namespace Tidy

theorem used (h : b.Tidy) (use : Use CacheKey Unit)
    (same : b'.table = Function.update b.table t ((b.table t).use use).2) : b'.Tidy where
  ranked u := by
    rw [same, Function.update_apply]
    split
    · obtain ⟨es, ordered⟩ := h.ranked t
      obtain ⟨es', ordered', -⟩ := ordered.use use
      exact ⟨es', ordered'⟩
    · exact h.ranked u
  room u := by
    rw [same, Function.update_apply]
    split
    · rw [Recency.capacity_use]
      exact h.room t
    · exact h.room u

theorem look (h : b.Tidy) (t : Table) (key : CacheKey) : (b.look t key).Tidy := h.used (.get key) rfl

theorem store (h : b.Tidy) (t : Table) (key : CacheKey) : (b.store t key).2.Tidy :=
  h.used (.insert key ()) rfl

theorem nodup_keys (h : b.Tidy) (t : Table) : (b.keys t).Nodup :=
  let ⟨_, ordered⟩ := h.ranked t
  ordered.distinct_entries

/-- A new key is one entry more in its table, unless another one goes for it. -/
theorem length_keys_store (h : b.Tidy) (new : key ∉ b.keys t) :
    ((b.store t key).2.keys t).length + (b.store t key).1.toNat = (b.keys t).length + 1 := by
  obtain ⟨es, ordered⟩ := h.ranked t
  have length := ordered.size_insert (h.room t) new ()
  rw [Recency.size, Recency.size] at length
  rw [keys_store_self, keys, List.length_map, List.length_map]
  exact length

/-- Distinct keys that together are no more than the capacity find room. -/
theorem store_of_few (h : b.Tidy) (new : key ∉ b.keys t) {few : List CacheKey}
    (room : few.length ≤ (b.table t).capacity) (inside : key :: b.keys t ⊆ few) :
    (b.store t key).1 = false ∧ (b.store t key).2.keys t = key :: b.keys t := by
  have distinct : (key :: b.keys t).Nodup := List.nodup_cons.2 ⟨new, h.nodup_keys t⟩
  have fits : (b.table t).size < (b.table t).capacity := by
    have length := (distinct.subperm inside).length_le
    rw [List.length_cons, keys, List.length_map] at length
    rw [Recency.size]
    omega
  have stored := Recency.insert_of_room new fits ()
  rw [keys_store_self, stored]
  exact ⟨congrArg Prod.fst stored, rfl⟩

end Tidy

end Books

/-! ## The books of a cache -/

namespace Cache

def books (c : Cache) : Books where
  table
    | .literals => c.literals.map fun _ => ()
    | .resolvers => c.resolvers.map fun _ => ()
  hits
    | .literals => c.stats.literalHits
    | .resolvers => c.stats.resolverHits
  misses
    | .literals => c.stats.literalMisses
    | .resolvers => c.stats.resolverMisses
  evictions := c.stats.evictions

variable {key : CacheKey} {c c₁ : Cache}

theorem books_of_findLiteral {o : Option (Serial × Literal)} (look : c.findLiteral key = (o, c₁)) :
    c.books.holds .literals key = o.isSome ∧ (c.books.look .literals key) = c₁.books := by
  have got : (c.books.table .literals).get key =
      ((c.literals.get key).1.map fun _ => (), (c.literals.get key).2.map fun _ => ()) := Recency.get_map ..
  have held : c.books.holds .literals key = (c.literals.get key).1.isSome :=
    (congrArg (·.1.isSome) got).trans Option.isSome_map
  rw [Books.look, held, got]
  rw [findLiteral] at look
  generalize c.literals.get key = result at look ⊢
  obtain ⟨_ | found, literals⟩ := result <;> cases look
  · refine ⟨rfl, Books.ext ?_ ?_ ?_ rfl⟩ <;> funext u <;> cases u <;> rfl
  · refine ⟨rfl, Books.ext ?_ ?_ ?_ rfl⟩ <;> funext u <;> cases u <;> rfl

theorem books_of_findResolver {o : Option Resolver} (look : c.findResolver key = (o, c₁)) :
    c.books.holds .resolvers key = o.isSome ∧ (c.books.look .resolvers key) = c₁.books := by
  have got : (c.books.table .resolvers).get key =
      ((c.resolvers.get key).1.map fun _ => (), (c.resolvers.get key).2.map fun _ => ()) := Recency.get_map ..
  have held : c.books.holds .resolvers key = (c.resolvers.get key).1.isSome :=
    (congrArg (·.1.isSome) got).trans Option.isSome_map
  rw [Books.look, held, got]
  rw [findResolver] at look
  generalize c.resolvers.get key = result at look ⊢
  obtain ⟨_ | found, resolvers⟩ := result <;> cases look
  · refine ⟨rfl, Books.ext ?_ ?_ ?_ rfl⟩ <;> funext u <;> cases u <;> rfl
  · refine ⟨rfl, Books.ext ?_ ?_ ?_ rfl⟩ <;> funext u <;> cases u <;> rfl

variable (key c)

theorem books_storeLiteral (tree : Literal) :
    (c.books.store .literals key).2 = (c.storeLiteral key tree).2.books := by
  have inserted : (c.books.table .literals).insert key () =
      ((c.literals.insert key ((c.label, c.built), tree)).1,
        (c.literals.insert key ((c.label, c.built), tree)).2.map fun _ => ()) := Recency.insert_map ..
  rw [Books.store, inserted, storeLiteral]
  refine Books.ext ?_ rfl rfl rfl
  funext u
  cases u <;> rfl

theorem books_storeResolver (resolver : Resolver) :
    (c.books.store .resolvers key).2 = (c.storeResolver key resolver).2.books := by
  have inserted : (c.books.table .resolvers).insert key () =
      ((c.resolvers.insert key resolver).1, (c.resolvers.insert key resolver).2.map fun _ => ()) :=
    Recency.insert_map ..
  rw [Books.store, inserted, storeResolver]
  refine Books.ext ?_ rfl rfl rfl
  funext u
  cases u <;> rfl

theorem tidy_books_empty (label : Nat) {capacity : Nat} (room : 0 < capacity) :
    (empty label capacity).books.Tidy where
  ranked
    | .literals => ⟨[], .of_no_entries rfl⟩
    | .resolvers => ⟨[], .of_no_entries rfl⟩
  room
    | .literals => room
    | .resolvers => room

end Cache

end ExactFormula
