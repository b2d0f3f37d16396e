import ExactFormula.Proofs.Reading.Built

/-!
The formulas inside a formula: its groups, the arguments of its calls and the formulas in its literals, on all
levels. They were read with the same settings, and their operands and operators take turns, too.
-/

namespace ExactFormula

inductive Literal.Holds : Literal → Formula → Prop
  | formula {f : Formula} {source : String} : Holds (.formula f source) f
  | item {l : Literal} {items : List Literal} {f : Formula} (mem : l ∈ items) (inside : Holds l f) :
      Holds (.array items) f
  | member {k : String} {l : Literal} {members : List (String × Literal)} {f : Formula} (mem : (k, l) ∈ members)
      (inside : Holds l f) : Holds (.object members) f

inductive Operand.Holds : Operand → Formula → Prop
  | argument {name : String} {function : Function} {args : List Formula} {f : Formula} (mem : f ∈ args) :
      Holds (.call name function args) f
  | group {f : Formula} : Holds (.group f) f
  | literal {serial : Serial} {tree : Literal} {f : Formula} (inside : tree.Holds f) : Holds (.literal serial tree) f

/-- The first formula is the second one or inside it. -/
inductive Formula.Within : Formula → Formula → Prop
  | refl {f : Formula} : Within f f
  | inside {g h f : Formula} {a : Operand} (mem : .operand a ∈ f.parts) (holds : a.Holds h) (deeper : Within g h) :
      Within g f

/-! ## Settings -/

section

variable {s : Settings}

theorem Part.AllReadBy.operand {ps : List (Part Operand)} (h : Part.AllReadBy s ps) {a : Operand}
    (mem : .operand a ∈ ps) : a.ReadBy s := by
  induction ps with
  | nil => cases mem
  | cons p ps ih =>
    rw [Part.AllReadBy] at h
    rcases List.mem_cons.1 mem with rfl | mem
    · exact h.1
    · exact ih h.2 mem

theorem Formula.AllReadBy.mem {fs : List Formula} (h : Formula.AllReadBy s fs) {f : Formula} (mem : f ∈ fs) :
    f.ReadBy s := by
  induction fs with
  | nil => cases mem
  | cons g fs ih =>
    rw [Formula.AllReadBy] at h
    rcases List.mem_cons.1 mem with rfl | mem
    · exact h.1.1
    · exact ih h.2 mem

theorem Literal.AllReadBy.mem {ls : List Literal} (h : Literal.AllReadBy s ls) {l : Literal} (mem : l ∈ ls) :
    l.ReadBy s := by
  induction ls with
  | nil => cases mem
  | cons m ls ih =>
    rw [Literal.AllReadBy] at h
    rcases List.mem_cons.1 mem with rfl | mem
    · exact h.1
    · exact ih h.2 mem

theorem Literal.MembersReadBy.mem {ms : List (String × Literal)} (h : Literal.MembersReadBy s ms) {k : String}
    {l : Literal} (mem : (k, l) ∈ ms) : l.ReadBy s := by
  induction ms with
  | nil => cases mem
  | cons m ms ih =>
    rw [Literal.MembersReadBy] at h
    rcases List.mem_cons.1 mem with rfl | mem
    · exact h.1
    · exact ih h.2 mem

theorem Literal.Holds.readBy {l : Literal} {f : Formula} (h : l.Holds f) (readBy : l.ReadBy s) : f.ReadBy s := by
  induction h with
  | formula => rwa [Literal.ReadBy] at readBy
  | item mem _ ih =>
    rw [Literal.ReadBy] at readBy
    exact ih (readBy.mem mem)
  | member mem _ ih =>
    rw [Literal.ReadBy] at readBy
    exact ih (readBy.mem mem)

theorem Operand.Holds.readBy {a : Operand} {f : Formula} (h : a.Holds f) (readBy : a.ReadBy s) : f.ReadBy s := by
  rw [Operand.ReadBy.eq_def] at readBy
  cases h with
  | argument mem => exact Formula.AllReadBy.mem readBy mem
  | group => exact readBy.1
  | literal inside => exact inside.readBy readBy

theorem Formula.Within.readBy {g f : Formula} (h : g.Within f) (readBy : f.ReadBy s) : g.ReadBy s := by
  induction h with
  | refl => exact readBy
  | inside mem holds _ ih => exact ih (holds.readBy (readBy.parts.operand mem))

end

/-! ## Bare formulas -/

theorem Part.bareAll_eq_map (ps : List (Part Operand)) : Part.bareAll ps = ps.map (Part.map Operand.bare) := by
  induction ps with
  | nil => rw [Part.bareAll, List.map_nil]
  | cons p ps ih => cases p <;> rw [Part.bareAll, ih, List.map_cons, Part.bare, Part.map]

theorem Formula.mem_bareAll {f : Formula} {fs : List Formula} (mem : f ∈ fs) : f.bare ∈ Formula.bareAll fs := by
  induction fs with
  | nil => cases mem
  | cons g fs ih =>
    rw [Formula.bareAll]
    rcases List.mem_cons.1 mem with rfl | mem
    · exact List.mem_cons_self
    · exact List.mem_cons_of_mem _ (ih mem)

theorem Literal.mem_bareAll {l : Literal} {ls : List Literal} (mem : l ∈ ls) : l.bare ∈ Literal.bareAll ls := by
  induction ls with
  | nil => cases mem
  | cons m ls ih =>
    rw [Literal.bareAll]
    rcases List.mem_cons.1 mem with rfl | mem
    · exact List.mem_cons_self
    · exact List.mem_cons_of_mem _ (ih mem)

theorem Literal.mem_bareMembers {k : String} {l : Literal} {ms : List (String × Literal)} (mem : (k, l) ∈ ms) :
    (k, l.bare) ∈ Literal.bareMembers ms := by
  induction ms with
  | nil => cases mem
  | cons m ms ih =>
    rw [Literal.bareMembers]
    rcases List.mem_cons.1 mem with rfl | mem
    · exact List.mem_cons_self
    · exact List.mem_cons_of_mem _ (ih mem)

theorem Literal.Holds.bare {l : Literal} {f : Formula} (h : l.Holds f) : l.bare.Holds f.bare := by
  induction h with
  | formula =>
    rw [Literal.bare]
    exact .formula
  | item mem _ ih =>
    rw [Literal.bare]
    exact .item (Literal.mem_bareAll mem) ih
  | member mem _ ih =>
    rw [Literal.bare]
    exact .member (Literal.mem_bareMembers mem) ih

theorem Operand.Holds.bare {a : Operand} {f : Formula} (h : a.Holds f) : a.bare.Holds f.bare := by
  rw [Operand.bare.eq_def]
  cases h with
  | argument mem => exact .argument (Formula.mem_bareAll mem)
  | group => exact .group
  | literal inside => exact .literal inside.bare

theorem Formula.bare_parts (f : Formula) : f.bare.parts = f.parts.map (Part.map Operand.bare) := by
  obtain ⟨source, parts, numeric, plan⟩ := f
  rw [Formula.bare, Part.bareAll_eq_map]

theorem Formula.Within.bare {g f : Formula} (h : g.Within f) : g.bare.Within f.bare := by
  induction h with
  | refl => exact .refl
  | @inside h f a mem holds _ ih =>
    refine .inside ?_ holds.bare ih
    rw [f.bare_parts]
    exact List.mem_map_of_mem mem

/-! ## Turns -/

theorem Part.alternate_map {α β : Type} (f : α → β) {expected : Bool} {ps : List (Part α)} :
    Part.Alternate expected (ps.map (Part.map f)) ↔ Part.Alternate expected ps := by
  induction ps generalizing expected with
  | nil => exact Iff.rfl
  | cons p ps ih => cases p <;> simp only [List.map_cons, Part.map, Part.Alternate, ih]

/-- In all formulas that are inside what is read, operands and operators take turns. -/
theorem alternate_inherited (s : Settings) :
    Direct.Inherited s (fun f => ∀ g, Formula.Within g f → Part.Alternate true g.parts)
      (fun a => ∀ h, a.Holds h → ∀ g, Formula.Within g h → Part.Alternate true g.parts)
      (fun l => ∀ h, l.Holds h → ∀ g, Formula.Within g h → Part.Alternate true g.parts) where
  text string h holds := nomatch holds
  constant v h holds := nomatch holds
  reference name r _ h holds := nomatch holds
  call name f args _ all h holds := by
    cases holds with
    | argument mem => exact all h mem
  group f inside h holds := by
    cases holds with
    | group => exact inside
  literal tree inside h holds := by
    cases holds with
    | literal holds => exact inside h holds
  value v h holds := nomatch holds
  array items all h holds := by
    cases holds with
    | item mem holds => exact all _ mem h holds
  object members all h holds := by
    cases holds with
    | member mem holds => exact all _ mem h holds
  formula f source inside h holds := by
    cases holds with
    | formula => exact inside
  row source parts alternate all g within := by
    cases within with
    | refl => exact alternate
    | inside mem holds deeper => exact all _ mem _ holds g deeper

theorem Formula.Within.alternate {s : Settings} {n : Nat} {text : List Char} {g f : Formula}
    (read : Direct.formula s n text = .ok f.bare) (h : g.Within f) : Part.Alternate true g.parts := by
  have alternate := (alternate_inherited s).of_formula read g.bare h.bare
  rwa [g.bare_parts, Part.alternate_map] at alternate

end ExactFormula
