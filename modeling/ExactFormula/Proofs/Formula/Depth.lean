import ExactFormula.Proofs.Formula.Bare

/-!
How deep formulas nest. Groups, the arguments of calls and the formulas in literals are one level below the
formula that holds them.
-/

namespace ExactFormula

mutual
def Formula.depth : Formula → Nat
  | ⟨_, parts, _, _⟩ => Part.depthAll parts

def Part.depthAll : List (Part Operand) → Nat
  | [] => 0
  | p :: ps => max (Part.depth p) (Part.depthAll ps)

def Part.depth : Part Operand → Nat
  | .operand a => a.depth
  | .unary _ => 0
  | .binary _ => 0

def Operand.depth : Operand → Nat
  | .text _ => 0
  | .constant _ => 0
  | .reference _ => 0
  | .call _ _ args => Formula.depthBelow args
  | .group f => f.depth + 1
  | .literal _ tree => tree.depth

/-- Levels below a formula that has these as arguments. -/
def Formula.depthBelow : List Formula → Nat
  | [] => 0
  | f :: fs => max (f.depth + 1) (Formula.depthBelow fs)

def Literal.depth : Literal → Nat
  | .value _ => 0
  | .array items => Literal.depthAll items
  | .object members => Literal.depthMembers members
  | .formula f _ => f.depth + 1

def Literal.depthAll : List Literal → Nat
  | [] => 0
  | l :: ls => max l.depth (Literal.depthAll ls)

def Literal.depthMembers : List (String × Literal) → Nat
  | [] => 0
  | (_, l) :: ms => max l.depth (Literal.depthMembers ms)
end

theorem Part.depth_le {a : Operand} {ps : List (Part Operand)} (mem : .operand a ∈ ps) :
    a.depth ≤ Part.depthAll ps := by
  induction ps with
  | nil => cases mem
  | cons p ps ih =>
    rw [Part.depthAll]
    rcases List.mem_cons.1 mem with rfl | mem
    · rw [Part.depth]
      exact Nat.le_max_left _ _
    · exact Nat.le_trans (ih mem) (Nat.le_max_right _ _)

theorem Part.depthAll_le {n : Nat} {ps : List (Part Operand)} (h : ∀ a, .operand a ∈ ps → a.depth ≤ n) :
    Part.depthAll ps ≤ n := by
  induction ps with
  | nil => exact Nat.zero_le n
  | cons p ps ih =>
    refine Nat.max_le.2 ⟨?_, ih fun a mem => h a (List.mem_cons_of_mem _ mem)⟩
    cases p with
    | operand a => exact h a List.mem_cons_self
    | unary op | binary op => exact Nat.zero_le n

theorem Formula.depthBelow_le {n : Nat} {fs : List Formula} (h : ∀ f ∈ fs, f.depth < n) :
    Formula.depthBelow fs ≤ n := by
  induction fs with
  | nil => exact Nat.zero_le n
  | cons f fs ih =>
    obtain ⟨first, later⟩ := List.forall_mem_cons.1 h
    exact Nat.max_le.2 ⟨first, ih later⟩

theorem Literal.depthAll_le {n : Nat} {ls : List Literal} (h : ∀ l ∈ ls, l.depth ≤ n) : Literal.depthAll ls ≤ n := by
  induction ls with
  | nil => exact Nat.zero_le n
  | cons l ls ih =>
    obtain ⟨first, later⟩ := List.forall_mem_cons.1 h
    exact Nat.max_le.2 ⟨first, ih later⟩

theorem Literal.depthMembers_le {n : Nat} {ms : List (String × Literal)} (h : ∀ m ∈ ms, m.2.depth ≤ n) :
    Literal.depthMembers ms ≤ n := by
  induction ms with
  | nil => exact Nat.zero_le n
  | cons m ms ih =>
    obtain ⟨first, later⟩ := List.forall_mem_cons.1 h
    exact Nat.max_le.2 ⟨first, ih later⟩

mutual
theorem Formula.depth_bare : (f : Formula) → f.bare.depth = f.depth
  | ⟨source, parts, numeric, plan⟩ => by
      rw [Formula.bare, Formula.depth, Formula.depth, Part.depthAll_bareAll parts]

theorem Part.depthAll_bareAll : (ps : List (Part Operand)) → Part.depthAll (Part.bareAll ps) = Part.depthAll ps
  | [] => by rw [Part.bareAll]
  | p :: ps => by
      rw [Part.bareAll, Part.depthAll, Part.depthAll, Part.depth_bare p, Part.depthAll_bareAll ps]

theorem Part.depth_bare : (p : Part Operand) → (Part.bare p).depth = p.depth
  | .operand a => by rw [Part.bare, Part.depth, Part.depth, Operand.depth_bare a]
  | .unary _ => by rw [Part.bare]
  | .binary _ => by rw [Part.bare]

theorem Operand.depth_bare : (a : Operand) → a.bare.depth = a.depth
  | .text _ => by rw [Operand.bare]
  | .constant _ => by rw [Operand.bare]
  | .reference _ => by rw [Operand.bare]
  | .call _ _ args => by rw [Operand.bare, Operand.depth, Operand.depth, Formula.depthBelow_bareAll args]
  | .group f => by rw [Operand.bare, Operand.depth, Operand.depth, Formula.depth_bare f]
  | .literal _ tree => by rw [Operand.bare, Operand.depth, Operand.depth, Literal.depth_bare tree]

theorem Formula.depthBelow_bareAll :
    (fs : List Formula) → Formula.depthBelow (Formula.bareAll fs) = Formula.depthBelow fs
  | [] => by rw [Formula.bareAll]
  | f :: fs => by
      rw [Formula.bareAll, Formula.depthBelow, Formula.depthBelow, Formula.depth_bare f,
        Formula.depthBelow_bareAll fs]

theorem Literal.depth_bare : (l : Literal) → l.bare.depth = l.depth
  | .value _ => by rw [Literal.bare]
  | .array items => by rw [Literal.bare, Literal.depth, Literal.depth, Literal.depthAll_bareAll items]
  | .object members => by rw [Literal.bare, Literal.depth, Literal.depth, Literal.depthMembers_bareMembers members]
  | .formula f _ => by rw [Literal.bare, Literal.depth, Literal.depth, Formula.depth_bare f]

theorem Literal.depthAll_bareAll : (ls : List Literal) → Literal.depthAll (Literal.bareAll ls) = Literal.depthAll ls
  | [] => by rw [Literal.bareAll]
  | l :: ls => by
      rw [Literal.bareAll, Literal.depthAll, Literal.depthAll, Literal.depth_bare l, Literal.depthAll_bareAll ls]

theorem Literal.depthMembers_bareMembers :
    (ms : List (String × Literal)) → Literal.depthMembers (Literal.bareMembers ms) = Literal.depthMembers ms
  | [] => by rw [Literal.bareMembers]
  | (_, l) :: ms => by
      rw [Literal.bareMembers, Literal.depthMembers, Literal.depthMembers, Literal.depth_bare l,
        Literal.depthMembers_bareMembers ms]
end

end ExactFormula
