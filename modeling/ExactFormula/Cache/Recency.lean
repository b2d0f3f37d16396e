/-!
A table of bounded size that forgets the entry whose last use lies furthest back. Every look-up and
every insertion is one tick of a clock, and an entry carries the tick of its last use.
-/

namespace ExactFormula

structure Recency (κ α : Type) where
  capacity : Nat
  tick : Nat
  entries : List (κ × α × Nat)
  deriving DecidableEq

namespace Recency

variable {κ α : Type} [DecidableEq κ]

def empty (capacity : Nat) : Recency κ α := ⟨capacity, 0, []⟩

def size (t : Recency κ α) : Nat := t.entries.length

def lookup (key : κ) (t : Recency κ α) : Option α := (t.entries.find? (·.1 == key)).map (·.2.1)

/-- Marks the entry under a key as used now. -/
def touch (key : κ) (tick : Nat) : List (κ × α × Nat) → List (κ × α × Nat)
  | [] => []
  | (k, v, used) :: es => if k = key then (k, v, tick) :: es else (k, v, used) :: touch key tick es

def get (key : κ) (t : Recency κ α) : Option α × Recency κ α :=
  (t.lookup key, { t with tick := t.tick + 1, entries := touch key (t.tick + 1) t.entries })

/-- The entry whose last use lies furthest back, the first of equals. -/
def oldest? : List (κ × α × Nat) → Option (κ × α × Nat)
  | [] => none
  | e :: es =>
    match oldest? es with
    | some e' => if e'.2.2 < e.2.2 then some e' else some e
    | none => some e

def remove (key : κ) (es : List (κ × α × Nat)) : List (κ × α × Nat) := es.filter (·.1 ≠ key)

/-- The entry that has to go before a value is stored under a key. -/
def victim? (key : κ) (t : Recency κ α) : Option κ :=
  if (t.lookup key).isNone && t.capacity ≤ t.size then (oldest? t.entries).map (·.1) else none

/-- Stores a value, and tells whether another entry had to go. Nothing is stored without capacity. -/
def insert (key : κ) (value : α) (t : Recency κ α) : Bool × Recency κ α :=
  if t.capacity = 0 then (false, t)
  else
    let victim := t.victim? key
    let kept := remove (victim.getD key) t.entries
    (victim.isSome, { t with tick := t.tick + 1, entries := (key, value, t.tick + 1) :: kept })

def clear (t : Recency κ α) : Recency κ α := { t with entries := [] }

example : ((((empty 2 : Recency Nat String).insert 1 "a").2.insert 2 "b").2.get 1).2.insert 3 "c"
    = (true, ⟨2, 4, [(3, "c", 4), (1, "a", 3)]⟩) := by decide

end Recency

end ExactFormula
