import ExactFormula.Value

/-!
Tables of the functions that formulas may call, by name, with the counts of arguments they take.
-/

namespace ExactFormula

structure FunctionDef where
  name : String
  minArgs : Nat
  maxArgs : Option Nat
  run : Function

/-- What is wrong with a count of arguments. -/
def FunctionDef.arityFault? (f : FunctionDef) (count : Nat) : Option String :=
  if count < f.minArgs then
    some ("expected at least " ++ toString f.minArgs ++ ", got " ++ toString count)
  else match f.maxArgs with
    | some most =>
      if most < count then some ("expected at most " ++ toString most ++ ", got " ++ toString count) else none
    | none => none

theorem FunctionDef.arityFault?_eq_none_iff {f : FunctionDef} {count : Nat} :
    f.arityFault? count = none ↔ f.minArgs ≤ count ∧ ∀ most, f.maxArgs = some most → count ≤ most := by
  unfold arityFault?
  split
  · simp; omega
  · split <;> simp_all

structure FunctionTable where
  defs : Entries FunctionDef

namespace FunctionTable

def empty : FunctionTable := ⟨[]⟩

def get? (name : String) (t : FunctionTable) : Option FunctionDef := t.defs.get? name

/-- Replaces a function of the same name. -/
def register (f : FunctionDef) (t : FunctionTable) : FunctionTable := ⟨t.defs.put f.name f⟩

def size (t : FunctionTable) : Nat := t.defs.length

/-- The names in order. -/
def names (t : FunctionTable) : List String := t.defs.names.mergeSort (· ≤ ·)

end FunctionTable

end ExactFormula
