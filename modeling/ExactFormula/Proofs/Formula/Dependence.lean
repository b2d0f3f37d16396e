import ExactFormula.Proofs.Formula.Bare
import ExactFormula.Proofs.Formula.Failures
import ExactFormula.Proofs.Reading.Built

/-!
The names that a formula mentions are all that its outcome depends on in a context, when its functions look at
their arguments only. A name that turns out unknown is one of them.
-/

namespace ExactFormula

variable {α β : Type} {default : Option Value} {names : List String}

/-- Contexts that agree on the names give one outcome, and a name that is unknown is one of the names, without a
value in the context or by default. -/
structure DependsOn (default : Option Value) (names : List String) (outcome : Context → Except FormulaError α) :
    Prop where
  same : ∀ ctx ctx' : Context, (∀ n ∈ names, ctx.get? n = ctx'.get? n) → outcome ctx = outcome ctx'
  unknown : ∀ ctx n, outcome ctx = .error (.unknownReference n) → n ∈ names ∧ ctx.get? n = none ∧ default = none

namespace DependsOn

variable {outcome : Context → Except FormulaError α}

theorem const {r : Except FormulaError α} (known : Avoids .unknownReference r) :
    DependsOn default names fun _ => r :=
  ⟨fun _ _ _ => rfl, fun _ n failed => absurd failed (known n)⟩

theorem mono (h : DependsOn default names outcome) {names' : List String} (subset : names ⊆ names') :
    DependsOn default names' outcome where
  same ctx ctx' agree := h.same ctx ctx' fun n mem => agree n (subset mem)
  unknown ctx n failed := (h.unknown ctx n failed).imp_left (subset ·)

theorem bind (h : DependsOn default names outcome) {next : α → Context → Except FormulaError β}
    (hnext : ∀ a, DependsOn default names (next a)) :
    DependsOn default names fun ctx => outcome ctx >>= fun a => next a ctx where
  same ctx ctx' agree := by
    rw [h.same ctx ctx' agree]
    cases outcome ctx' with
    | error e => rfl
    | ok a => exact (hnext a).same ctx ctx' agree
  unknown ctx n failed := by
    cases computed : outcome ctx with
    | error e =>
      rw [computed] at failed
      cases failed
      exact h.unknown ctx n computed
    | ok a =>
      rw [computed] at failed
      exact (hnext a).unknown ctx n failed

theorem map (f : α → β) (h : DependsOn default names outcome) :
    DependsOn default names fun ctx => do return f (← outcome ctx) := h.bind fun _ => .const (.ok _)

theorem map' (f : α → β) (h : DependsOn default names outcome) :
    DependsOn default names fun ctx => (outcome ctx).map f := h.map f

/-- Two outcomes in a row depend on the names of both. -/
theorem both {names' : List String} {outcome' : Context → Except FormulaError β} (h : DependsOn default names outcome)
    (h' : DependsOn default names' outcome') {γ : Type} (f : α → β → γ) :
    DependsOn default (names ++ names') fun ctx => outcome ctx >>= fun a => do return f a (← outcome' ctx) :=
  (h.mono (List.subset_append_left _ _)).bind fun a => (h'.mono (List.subset_append_right _ _)).map (f a)

theorem lookup (name : String) (default : Option Value) :
    DependsOn default [name] (Reference.resolve · ⟨name, .lookup default⟩) where
  same ctx ctx' agree := by
    simp only [Reference.resolve, agree name (List.mem_singleton_self _)]
  unknown ctx n failed := by
    simp only [Reference.resolve] at failed
    split at failed
    case h_1 => cases failed
    case h_2 => cases failed
    case h_3 missing =>
      cases failed
      exact ⟨List.mem_singleton_self _, missing, rfl⟩

/-- A formula in a literal that meets an unknown name is its text, in the other context, too. -/
theorem orText {outcome : Context → Outcome} (h : DependsOn default names outcome) (source : String) :
    DependsOn default names fun ctx => (outcome ctx).orText source where
  same ctx ctx' agree := by rw [h.same ctx ctx' agree]
  unknown ctx n failed := by
    unfold Outcome.orText at failed
    split at failed
    case h_1 => cases failed
    case h_2 known => exact absurd failed (known n)

/-! ## Lists -/

theorem formulas {fs : List Formula} (h : ∀ f ∈ fs, DependsOn default f.mentions (f.evaluate ·)) :
    DependsOn default (Formula.mentionsAll fs) fun ctx => Outcome.all (Formula.evaluateAll ctx fs) := by
  induction fs with
  | nil =>
    simp only [Formula.evaluateAll]
    exact .const (.ok _)
  | cons f fs ih =>
    obtain ⟨first, later⟩ := List.forall_mem_cons.1 h
    simp only [Formula.evaluateAll, Formula.mentionsAll]
    exact first.both (ih later) _

theorem literals {ls : List Literal} (h : ∀ l ∈ ls, DependsOn default l.mentions (l.evaluate ·)) :
    DependsOn default (Literal.mentionsAll ls) fun ctx => Outcome.all (Literal.evaluateAll ctx ls) := by
  induction ls with
  | nil =>
    simp only [Literal.evaluateAll]
    exact .const (.ok _)
  | cons l ls ih =>
    obtain ⟨first, later⟩ := List.forall_mem_cons.1 h
    simp only [Literal.evaluateAll, Literal.mentionsAll]
    exact first.both (ih later) _

theorem members {ms : List (String × Literal)} (h : ∀ m ∈ ms, DependsOn default m.2.mentions (m.2.evaluate ·)) :
    DependsOn default (Literal.mentionsMembers ms) fun ctx => Outcome.allMembers (Literal.evaluateMembers ctx ms) := by
  induction ms with
  | nil =>
    simp only [Literal.evaluateMembers]
    exact .const (.ok _)
  | cons m ms ih =>
    obtain ⟨k, l⟩ := m
    obtain ⟨first, later⟩ := List.forall_mem_cons.1 h
    simp only [Literal.evaluateMembers, Literal.mentionsMembers]
    exact first.both (ih later) _

/-! ## Rows -/

variable {numeric : Bool}

theorem unary {r : Context → Outcome} (op : UnaryOp) (h : DependsOn default names r) :
    DependsOn default names fun ctx => op.ofOutcome (r ctx) := h.map _

theorem binary {l r : Context → Outcome} (op : BinaryOp) (hl : DependsOn default names l)
    (hr : DependsOn default names r) : DependsOn default names fun ctx => op.ofOutcomes numeric (l ctx) (r ctx) := by
  simp only [BinaryOp.ofOutcomes]
  refine hl.bind fun left => ?_
  split
  · cases op.decided? numeric left with
    | some v => exact .const (.ok v)
    | none => exact hr.map _
  · exact hr.bind fun right => .const (BinaryOp.apply_avoids numeric op left right)

/-- Operands that depend on the names. -/
abbrev Operands (default : Option Value) (names : List String) : Type :=
  { a : Operand // DependsOn default names (a.evaluate ·) }

theorem tree (t : Tree (Operands default names)) :
    DependsOn default names fun ctx => (Tree.evaluator numeric).ofTree (t.map fun a => a.1.evaluate ctx) := by
  induction t with
  | leaf a => exact a.2
  | unary op t ih => exact ih.unary op
  | binary op l r ihl ihr => exact ihl.binary op ihr

theorem row {ps : List (Part Operand)} (h : ∀ a, .operand a ∈ ps → DependsOn default names (a.evaluate ·)) :
    DependsOn default names fun ctx => interpret numeric (Part.evaluateAll ctx ps) := by
  obtain ⟨qs, rfl⟩ := Part.exists_subtype h
  simp only [interpret_eq_evaluate, Part.evaluateAll_eq_map, Part.map_map, Folder.fold_map_part]
  cases Tree.ofParts qs with
  | none => exact .const (.ok _)
  | some t => exact tree t

end DependsOn

/-! ## Formulas -/

theorem Part.mentions_subset {a : Operand} {ps : List (Part Operand)} (mem : .operand a ∈ ps) :
    a.mentions ⊆ Part.mentionsAll ps := by
  induction ps with
  | nil => cases mem
  | cons p ps ih =>
    rw [Part.mentionsAll]
    rcases List.mem_cons.1 mem with rfl | mem
    · rw [Part.mentions]
      exact List.subset_append_left _ _
    · exact List.subset_append_of_subset_right _ (ih mem)

/-- That outcomes depend on the mentioned names only passes from operands to formulas and back. -/
theorem dependsOn_inherited {s : Settings} (plain : s.reference = none)
    (functions : ∀ name f, s.functions.get? name = some f → Builtin.Plain f.run) :
    Direct.Inherited s (fun f => DependsOn s.default f.mentions (f.evaluate ·))
      (fun a => DependsOn s.default a.mentions (a.evaluate ·))
      (fun l => DependsOn s.default l.mentions (l.evaluate ·)) where
  text string := by
    simp only [Operand.evaluate]
    exact .const (.ok _)
  constant v := by
    simp only [Operand.evaluate]
    exact .const (.ok _)
  reference name r h := by
    rw [Direct.reference, plain] at h
    split at h
    case isTrue => cases h
    case isFalse =>
      cases h
      simp only [Operand.evaluate, Operand.mentions]
      exact .lookup name s.default
  call name f args known h := by
    simp only [Operand.evaluate, Operand.mentions]
    have builtin := functions name f known
    exact (DependsOn.formulas h).bind fun vs =>
      ⟨fun ctx ctx' _ => builtin.same vs ctx ctx', fun ctx n failed => absurd failed (builtin.known vs ctx n)⟩
  group f h := by simpa only [Operand.evaluate, Operand.mentions] using h
  literal tree h := by simpa only [Operand.evaluate, Operand.mentions] using h
  value v := by
    simp only [Literal.evaluate]
    exact .const (.ok _)
  array items h := by
    simp only [Literal.evaluate, Literal.mentions]
    exact (DependsOn.literals h).map' _
  object ms h := by
    simp only [Literal.evaluate, Literal.mentions]
    exact (DependsOn.members h).map' _
  formula f source h := by
    simp only [Literal.evaluate, Literal.mentions]
    exact h.orText source
  row source parts _ h := by
    simp only [Formula.evaluate, Formula.mentions]
    exact .row fun a mem => (h a mem).mono (Part.mentions_subset mem)

end ExactFormula
