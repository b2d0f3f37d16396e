import ExactFormula.Formula.Operation
import ExactFormula.Function.Builtin

/-!
Errors that a computation fails with. Operators and built-in functions fail in their arithmetic or as functions
only: they know no names, so they never fail for an unknown reference, and the functions do not look at the context.
-/

namespace ExactFormula

variable {α β γ : Type}

/-- The computation fails with errors of a class only. -/
def FailsWith (allowed : FormulaError → Prop) (r : Except FormulaError α) : Prop := ∀ e, r = .error e → allowed e

/-- The computation does not fail with an error of the kind. -/
def Avoids (kind : γ → FormulaError) (r : Except FormulaError α) : Prop := ∀ c, r ≠ .error (kind c)

theorem Avoids.ok {kind : γ → FormulaError} (a : α) : Avoids kind (.ok a : Except FormulaError α) := nofun

namespace FailsWith

variable {allowed : FormulaError → Prop} {r : Except FormulaError α}

theorem ok (a : α) : FailsWith allowed (.ok a : Except FormulaError α) := nofun

theorem error {e : FormulaError} (h : allowed e) : FailsWith allowed (.error e : Except FormulaError α) := by
  rintro _ ⟨⟩
  exact h

theorem mono (h : FailsWith allowed r) {allowed' : FormulaError → Prop} (wider : ∀ e, allowed e → allowed' e) :
    FailsWith allowed' r := fun e failed => wider e (h e failed)

theorem bind {f : α → Except FormulaError β} (h : FailsWith allowed r) (next : ∀ a, FailsWith allowed (f a)) :
    FailsWith allowed (r >>= f) := by
  cases r with
  | error e =>
    rintro _ ⟨⟩
    exact h e rfl
  | ok a => exact next a

theorem map (f : α → β) (h : FailsWith allowed r) : FailsWith allowed (do return f (← r)) := h.bind fun _ => .ok _

theorem map' (f : α → β) (h : FailsWith allowed r) : FailsWith allowed (r.map f) := h.map f

theorem avoids {kind : γ → FormulaError} (h : FailsWith allowed r) (others : ∀ c, ¬allowed (kind c)) :
    Avoids kind r := fun c failed => others c (h _ failed)

end FailsWith

/-- Errors of arithmetic and of functions. -/
inductive FormulaError.Computed : FormulaError → Prop
  | arithmetic {cause : DecimalError} : Computed (.arithmetic cause)
  | function {name reason : String} : Computed (.function name reason)

open FormulaError (Computed)

/-! ## Operators -/

theorem FailsWith.ofDecimal (r : Except DecimalError Decimal) :
    FailsWith Computed ((FormulaError.ofDecimal r).map Value.number) := by
  cases r with
  | error cause => exact .error .arithmetic
  | ok d => exact .ok _

namespace BinaryOp

theorem arithmetic_fails (op : BinaryOp) (l r : Decimal) : FailsWith Computed (op.arithmetic l r) := by
  cases op with
  | power | divide | modulo => exact .ofDecimal _
  | _ => exact .ok _

theorem textual_fails (op : BinaryOp) (l r : Value) : FailsWith Computed (op.textual l r) := by
  unfold textual
  split
  case h_1 =>
    split
    · exact .ok _
    · exact arithmetic_fails _ _ _
  case h_8 => exact arithmetic_fails _ _ _
  all_goals exact .ok _

theorem apply_fails (numeric : Bool) (op : BinaryOp) (l r : Value) : FailsWith Computed (op.apply numeric l r) := by
  rw [apply]
  split
  · exact .ok _
  · split
    · exact arithmetic_fails _ _ _
    · exact textual_fails _ _ _

theorem apply_avoids (numeric : Bool) (op : BinaryOp) (l r : Value) :
    Avoids .unknownReference (op.apply numeric l r) := (apply_fails numeric op l r).avoids nofun

end BinaryOp

/-! ## Built-in functions -/

namespace Builtin

/-- The function does not look at the context, and never fails for an unknown reference. -/
structure Plain (f : Function) : Prop where
  same : ∀ args ctx ctx', f args ctx = f args ctx'
  known : ∀ args ctx, Avoids .unknownReference (f args ctx)

theorem argument_fails (function : String) (args : List Value) (index : Nat) :
    FailsWith Computed (argument function args index) := by
  rw [argument]
  split
  · exact .ok _
  · exact .error .function

theorem round_fails (args : List Value) (ctx : Context) : FailsWith Computed (round args ctx) := by
  refine (argument_fails "round" args 0).bind fun v => ?_
  cases args[1]? with
  | none => exact .ok _
  | some arg =>
    dsimp only
    split
    · exact .ok _
    · exact .error .function

theorem avg_fails (args : List Value) (ctx : Context) : FailsWith Computed (avg args ctx) := by
  rw [avg]
  split
  · exact .ok _
  · exact .ofDecimal _

theorem choose_fails (args : List Value) (ctx : Context) : FailsWith Computed (choose args ctx) := by
  refine (argument_fails "if" args 0).bind fun v => ?_
  split
  · exact argument_fails "if" args 1
  · exact .ok _

theorem fails_of_mem {d : FunctionDef} (mem : d ∈ defs) (args : List Value) (ctx : Context) :
    FailsWith Computed (d.run args ctx) := by
  simp only [defs, List.mem_cons, List.not_mem_nil, or_false] at mem
  rcases mem with rfl | rfl | rfl | rfl | rfl | rfl | rfl | rfl | rfl | rfl | rfl
  · exact (argument_fails "abs" args 0).map _
  · exact round_fails args ctx
  · exact (argument_fails "floor" args 0).map _
  · exact (argument_fails "ceil" args 0).map _
  · dsimp only [min]
    split <;> exact .ok _
  · dsimp only [max]
    split <;> exact .ok _
  · exact .ok _
  · exact avg_fails args ctx
  · exact choose_fails args ctx
  · exact (argument_fails "not" args 0).map _
  · exact .ok _

theorem plain_of_mem {d : FunctionDef} (mem : d ∈ defs) : Plain d.run where
  same args ctx ctx' := by
    simp only [defs, List.mem_cons, List.not_mem_nil, or_false] at mem
    rcases mem with rfl | rfl | rfl | rfl | rfl | rfl | rfl | rfl | rfl | rfl | rfl <;> rfl
  known args ctx := (fails_of_mem mem args ctx).avoids nofun

/-- The functions of the table are those that were in it or that were registered. -/
theorem mem_of_get?_register {name : String} {f : FunctionDef} (fs : List FunctionDef) {t : FunctionTable}
    (h : (fs.foldl (fun t f => t.register f) t).get? name = some f) : f ∈ fs ∨ t.get? name = some f := by
  induction fs generalizing t with
  | nil => exact .inr h
  | cons g fs ih =>
    rcases ih h with later | found
    · exact .inl (List.mem_cons_of_mem g later)
    · simp only [FunctionTable.get?, FunctionTable.register, Entries.get?_put] at found
      split at found
      · cases found
        exact .inl List.mem_cons_self
      · exact .inr found

theorem mem_of_get?_table {name : String} {f : FunctionDef} (h : table.get? name = some f) : f ∈ defs :=
  (mem_of_get?_register defs h).resolve_right nofun

end Builtin

end ExactFormula
