import ExactFormula.Proofs.Formula.Bare
import ExactFormula.Proofs.Formula.Failures
import ExactFormula.Proofs.Reading.Built

/-!
The errors that an evaluation fails with. They are those of arithmetic and of functions, and an unknown reference
where there is no default: operators, groups, calls and literals pass on what their operands fail with.
-/

namespace ExactFormula

open FormulaError (Computed)

inductive FormulaError.Evaluated (default : Option Value) : FormulaError → Prop
  | computed {e : FormulaError} (h : Computed e) : Evaluated default e
  | unknown {name : String} (missing : default = none) : Evaluated default (.unknownReference name)

theorem FormulaError.Evaluated.phase_eq {default : Option Value} {e : FormulaError} (h : e.Evaluated default) :
    e.phase = .evaluation := by
  cases h with
  | computed h => cases h <;> rfl
  | unknown => rfl

open FormulaError (Evaluated)

namespace FailsWith

variable {allowed : FormulaError → Prop} {default : Option Value} {numeric : Bool} {ctx : Context}

theorem computed {α : Type} {r : Except FormulaError α} (h : FailsWith Computed r) :
    FailsWith (Evaluated default) r := h.mono fun _ => .computed

theorem lookup (name : String) (default : Option Value) :
    FailsWith (Evaluated default) (Reference.resolve ctx ⟨name, .lookup default⟩) := by
  simp only [Reference.resolve]
  split
  · exact .ok _
  · exact .ok _
  · exact .error (.unknown rfl)

theorem orText {r : Outcome} (h : FailsWith allowed r) (source : String) : FailsWith allowed (r.orText source) := by
  unfold Outcome.orText
  split
  · exact .ok _
  · exact h

/-! ## Lists -/

theorem formulas {fs : List Formula} (h : ∀ f ∈ fs, FailsWith allowed (f.evaluate ctx)) :
    FailsWith allowed (Outcome.all (Formula.evaluateAll ctx fs)) := by
  induction fs with
  | nil =>
    rw [Formula.evaluateAll]
    exact .ok _
  | cons f fs ih =>
    obtain ⟨first, later⟩ := List.forall_mem_cons.1 h
    rw [Formula.evaluateAll]
    exact first.bind fun _ => (ih later).map _

theorem literals {ls : List Literal} (h : ∀ l ∈ ls, FailsWith allowed (l.evaluate ctx)) :
    FailsWith allowed (Outcome.all (Literal.evaluateAll ctx ls)) := by
  induction ls with
  | nil =>
    rw [Literal.evaluateAll]
    exact .ok _
  | cons l ls ih =>
    obtain ⟨first, later⟩ := List.forall_mem_cons.1 h
    rw [Literal.evaluateAll]
    exact first.bind fun _ => (ih later).map _

theorem members {ms : List (String × Literal)} (h : ∀ m ∈ ms, FailsWith allowed (m.2.evaluate ctx)) :
    FailsWith allowed (Outcome.allMembers (Literal.evaluateMembers ctx ms)) := by
  induction ms with
  | nil =>
    rw [Literal.evaluateMembers]
    exact .ok _
  | cons m ms ih =>
    obtain ⟨k, l⟩ := m
    obtain ⟨first, later⟩ := List.forall_mem_cons.1 h
    rw [Literal.evaluateMembers]
    exact first.bind fun _ => (ih later).map _

/-! ## Rows -/

theorem binary {l r : Outcome} (op : BinaryOp) (hl : FailsWith (Evaluated default) l)
    (hr : FailsWith (Evaluated default) r) : FailsWith (Evaluated default) (op.ofOutcomes numeric l r) := by
  rw [BinaryOp.ofOutcomes]
  refine hl.bind fun left => ?_
  split
  · cases op.decided? numeric left with
    | some v => exact .ok v
    | none => exact hr.map _
  · exact hr.bind fun right => (BinaryOp.apply_fails numeric op left right).computed

theorem tree (t : Tree { r : Outcome // FailsWith (Evaluated default) r }) :
    FailsWith (Evaluated default) ((Tree.evaluator numeric).ofTree (t.map Subtype.val)) := by
  induction t with
  | leaf r => exact r.2
  | unary op t ih => exact ih.map _
  | binary op l r ihl ihr => exact ihl.binary op ihr

theorem row {ps : List (Part Operand)} (h : ∀ a, .operand a ∈ ps → FailsWith (Evaluated default) (a.evaluate ctx)) :
    FailsWith (Evaluated default) (interpret numeric (Part.evaluateAll ctx ps)) := by
  have outcomes : ∀ r, .operand r ∈ Part.evaluateAll ctx ps → FailsWith (Evaluated default) r := by
    intro r mem
    rw [Part.evaluateAll_eq_map] at mem
    obtain ⟨p, part, same⟩ := List.mem_map.1 mem
    cases p with
    | operand a =>
      cases same
      exact h a part
    | unary | binary => cases same
  obtain ⟨rs, same⟩ := Part.exists_subtype outcomes
  rw [same, interpret_eq_evaluate, Folder.fold_map_part]
  cases Tree.ofParts rs with
  | none => exact .ok _
  | some t => exact tree t

end FailsWith

/-! ## Formulas -/

theorem failsWith_inherited {s : Settings} (plain : s.reference = none)
    (builtin : ∀ name f, s.functions.get? name = some f → f ∈ Builtin.defs) (ctx : Context) :
    Direct.Inherited s (fun f => FailsWith (Evaluated s.default) (f.evaluate ctx))
      (fun a => FailsWith (Evaluated s.default) (a.evaluate ctx))
      (fun l => FailsWith (Evaluated s.default) (l.evaluate ctx)) where
  text string := by
    rw [Operand.evaluate]
    exact .ok _
  constant v := by
    rw [Operand.evaluate]
    exact .ok _
  reference name r h := by
    rw [Direct.reference, plain] at h
    split at h
    case isTrue => cases h
    case isFalse =>
      cases h
      rw [Operand.evaluate]
      exact .lookup name s.default
  call name f args known h := by
    rw [Operand.evaluate]
    exact (FailsWith.formulas h).bind fun vs => (Builtin.fails_of_mem (builtin name f known) vs ctx).computed
  group f h := by rwa [Operand.evaluate]
  literal tree h := by rwa [Operand.evaluate]
  value v := by
    rw [Literal.evaluate]
    exact .ok _
  array items h := by
    rw [Literal.evaluate]
    exact (FailsWith.literals h).map' _
  object ms h := by
    rw [Literal.evaluate]
    exact (FailsWith.members h).map' _
  formula f source h := by
    rw [Literal.evaluate]
    exact h.orText source
  row source parts _ h := by
    rw [Formula.evaluate]
    exact .row h

end ExactFormula
