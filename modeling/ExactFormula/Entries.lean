/-!
Named entries in the order in which their names first came. Putting a value under a name that is
already there replaces it in place.
-/

namespace ExactFormula

abbrev Entries (α : Type) := List (String × α)

namespace Entries

variable {α : Type}

def get? (name : String) (es : Entries α) : Option α := es.lookup name

def contains (name : String) (es : Entries α) : Bool := (es.get? name).isSome

def put (name : String) (value : α) : Entries α → Entries α
  | [] => [(name, value)]
  | (n, v) :: es => if n == name then (n, value) :: es else (n, v) :: put name value es

def names (es : Entries α) : List String := es.map (·.1)

@[simp] theorem get?_nil (name : String) : get? name ([] : Entries α) = none := rfl

theorem get?_cons (name n : String) (v : α) (es : Entries α) :
    get? name ((n, v) :: es) = if name = n then some v else get? name es := by
  by_cases h : name = n
  · simp [get?, h]
  · simp [get?, List.lookup_cons, beq_false_of_ne h, h]

theorem get?_put (name n : String) (v : α) (es : Entries α) :
    get? name (put n v es) = if name = n then some v else get? name es := by
  induction es with
  | nil => simp [put, get?_cons]
  | cons e es ih =>
    obtain ⟨m, w⟩ := e
    by_cases h : m = n
    · subst h; by_cases h' : name = m <;> simp [put, get?_cons, h']
    · by_cases h' : name = m
      · subst h'; simp [put, get?_cons, h]
      · simp [put, get?_cons, h, h', ih]

theorem put_of_not_mem {n : String} {es : Entries α} (h : n ∉ names es) (v : α) : put n v es = es ++ [(n, v)] := by
  induction es with
  | nil => rfl
  | cons e es ih =>
    obtain ⟨m, w⟩ := e
    rw [names, List.map_cons, List.mem_cons, not_or] at h
    simp [put, Ne.symm h.1, ih h.2]

theorem names_put (n : String) (v : α) (es : Entries α) :
    names (put n v es) = if n ∈ names es then names es else names es ++ [n] := by
  induction es with
  | nil => simp [put, names]
  | cons e es ih =>
    obtain ⟨m, w⟩ := e
    simp only [names] at ih ⊢
    by_cases h : m = n
    · subst h; simp [put]
    · by_cases h' : n ∈ es.map (·.1) <;> simp_all [put, Ne.symm h]

end Entries

end ExactFormula
