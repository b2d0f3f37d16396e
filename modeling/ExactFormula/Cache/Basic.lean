import ExactFormula.Cache.Recency
import ExactFormula.Formula.Basic

/-!
The memory that readings of formulas share: the trees of embedded literals and the resolvers of
references, each under the identity of the settings that made it. It counts hits, misses and
evictions.
-/

namespace ExactFormula

structure CacheStats where
  literalHits : Nat := 0
  literalMisses : Nat := 0
  resolverHits : Nat := 0
  resolverMisses : Nat := 0
  evictions : Nat := 0
  deriving DecidableEq, Repr

/-- Identity of the settings, and the text of a literal or the name of a reference. -/
abbrev CacheKey := Nat × String

/-- `label` tells caches apart, and `built` counts the trees that were built for this one. -/
structure Cache where
  label : Nat
  built : Nat
  literals : Recency CacheKey (Serial × Literal)
  resolvers : Recency CacheKey Resolver
  stats : CacheStats

/-- A computation that reads and writes a cache. What it wrote stays when it fails. -/
abbrev Caching (ε : Type) := ExceptT ε (StateM Cache)

/-- The outcome of a computation, whether it fails or not. -/
def Caching.outcome {ε δ α : Type} (x : Caching ε α) : Caching δ (Except ε α) := ExceptT.lift (ExceptT.run x)

namespace Cache

def defaultCapacity : Nat := 128

def empty (label capacity : Nat) : Cache := ⟨label, 0, .empty capacity, .empty capacity, {}⟩

def capacity (c : Cache) : Nat := c.literals.capacity

def isEmpty (c : Cache) : Bool := c.literals.size == 0 && c.resolvers.size == 0

/-- Forgets the entries and keeps the counts. -/
def clear (c : Cache) : Cache := { c with literals := c.literals.clear, resolvers := c.resolvers.clear }

def findLiteral (key : CacheKey) (c : Cache) : Option (Serial × Literal) × Cache :=
  match c.literals.get key with
  | (some found, literals) =>
    (some found, { c with literals, stats := { c.stats with literalHits := c.stats.literalHits + 1 } })
  | (none, literals) =>
    (none, { c with literals, stats := { c.stats with literalMisses := c.stats.literalMisses + 1 } })

def evictionCount (evicted : Bool) : Nat := if evicted then 1 else 0

/-- Stores a tree that has just been built, under a serial number of its own. -/
def storeLiteral (key : CacheKey) (tree : Literal) (c : Cache) : (Serial × Literal) × Cache :=
  let entry := ((c.label, c.built), tree)
  let (evicted, literals) := c.literals.insert key entry
  (entry, { c with
    built := c.built + 1, literals
    stats := { c.stats with evictions := c.stats.evictions + evictionCount evicted } })

def findResolver (key : CacheKey) (c : Cache) : Option Resolver × Cache :=
  match c.resolvers.get key with
  | (some found, resolvers) =>
    (some found, { c with resolvers, stats := { c.stats with resolverHits := c.stats.resolverHits + 1 } })
  | (none, resolvers) =>
    (none, { c with resolvers, stats := { c.stats with resolverMisses := c.stats.resolverMisses + 1 } })

def storeResolver (key : CacheKey) (resolver : Resolver) (c : Cache) : Resolver × Cache :=
  let (evicted, resolvers) := c.resolvers.insert key resolver
  (resolver, { c with
    resolvers, stats := { c.stats with evictions := c.stats.evictions + evictionCount evicted } })

variable {ε : Type}

/-- The tree of a literal, built from its trimmed text when it is not there. A failed build is not
stored. -/
def literal (id : Nat) (source : List Char) (build : List Char → Caching ε Literal) :
    Caching ε (Serial × Literal) := do
  let text := Text.trim source
  let key := (id, String.ofList text)
  match ← modifyGet (findLiteral key) with
  | some found => return found
  | none => modifyGet (storeLiteral key (← build text))

/-- The resolver of a name, built when it is not there. -/
def resolver (id : Nat) (name : String) (build : String → Except ε Resolver) : Caching ε Resolver := do
  let key := (id, name)
  match ← modifyGet (findResolver key) with
  | some found => return found
  | none => modifyGet (storeResolver key (← build name))

end Cache

end ExactFormula
