import ExactFormula.Formula.Evaluation
import ExactFormula.Plan.Node
import ExactFormula.Proofs.Formula.Interpreter

/-!
The code of an expression tree puts the value of the tree on the stack, or ends with the first error of
its evaluation, whatever code follows. Operators folded in advance do not change that value.
-/

namespace ExactFormula

theorem Outcome.length_of_all {rs : List Outcome} {vs : List Value} (h : Outcome.all rs = .ok vs) :
    vs.length = rs.length := by
  induction rs generalizing vs with
  | nil => cases h; rfl
  | cons r rs ih =>
    cases r with
    | error e => cases h
    | ok v =>
      cases rest : Outcome.all rs with
      | error e => simp [Outcome.all, rest] at h
      | ok ws =>
        simp only [Outcome.all, rest, Outcome.ok_bind, Outcome.pure_eq_ok, Except.ok.injEq] at h
        subst h
        exact congrArg (· + 1) (ih rest)

namespace Plan

variable {τ : Type}

/-! ## The value of a tree -/

/-- What the places stand for that a tree points into. -/
structure Places where
  load : Nat → Outcome
  call : Nat → List Value → Outcome
  tree : Nat → Outcome

def places (p : Plan τ) (ctx : Context) (trees : List Outcome) : Places where
  load i := (p.references[i]?.map (·.resolve ctx)).getD (.ok .null)
  call f args := (p.functions[f]?.map fun (_, run) => run args ctx).getD (.ok .null)
  tree i := trees[i]?.getD (.ok .null)

mutual
def Node.outcome (numeric : Bool) (env : Places) : Node → Outcome
  | .const v => .ok v
  | .load i => env.load i
  | .call f args => Outcome.all (Node.outcomes numeric env args) >>= env.call f
  | .tree i => env.tree i
  | .unary op n => op.ofOutcome (n.outcome numeric env)
  | .binary op l r => op.ofOutcomes numeric (l.outcome numeric env) (r.outcome numeric env)

def Node.outcomes (numeric : Bool) (env : Places) : List Node → List Outcome
  | [] => []
  | n :: ns => n.outcome numeric env :: Node.outcomes numeric env ns
end

theorem Node.length_outcomes (numeric : Bool) (env : Places) (ns : List Node) :
    (Node.outcomes numeric env ns).length = ns.length := by
  induction ns with
  | nil => rfl
  | cons n ns ih => exact congrArg (· + 1) ih

/-! ## Folding in advance -/

namespace Node

variable {numeric : Bool} {env : Places}

theorem outcome_applyUnary (op : UnaryOp) (n : Node) :
    (n.applyUnary op).outcome numeric env = op.ofOutcome (n.outcome numeric env) := by
  cases n <;> rfl

/-- A folded operator has its value even where the right operand was dropped with its errors. -/
theorem outcome_of_folded? {op : BinaryOp} {l r : Node} {v : Value} (h : folded? numeric op l r = some v) :
    op.ofOutcomes numeric (l.outcome numeric env) (r.outcome numeric env) = .ok v := by
  cases l with
  | const a =>
    by_cases constant : ∃ b, r = const b
    · obtain ⟨b, rfl⟩ := constant
      simp only [outcome, BinaryOp.ofOutcomes_ok]
      cases applied : op.apply numeric a b with
      | ok w => simp only [folded?, applied, Except.toOption, Option.some.injEq] at h; rw [h]
      | error e => simp [folded?, applied, Except.toOption] at h
    · have decides : (if op.isShortCircuit then op.decided? numeric a else none) = some v := by
        cases r with
        | const b => exact absurd ⟨b, rfl⟩ constant
        | _ => exact h
      split at decides
      · rename_i short
        simp only [outcome, BinaryOp.ofOutcomes, Outcome.ok_bind, short, if_true, decides,
          Outcome.pure_eq_ok]
      · cases decides
  | _ => simp [folded?] at h

theorem outcome_applyBinary (op : BinaryOp) (l r : Node) :
    (applyBinary numeric op l r).outcome numeric env
      = op.ofOutcomes numeric (l.outcome numeric env) (r.outcome numeric env) := by
  rw [applyBinary]
  split
  · rename_i v folded
    rw [outcome, outcome_of_folded? folded]
  · rw [outcome]

end Node

/-! ## The code of a tree -/

variable {p : Plan τ} {ctx : Context} {trees : List Outcome}

/-- The constants stand in the plan from the place `base` on. -/
def Holds (p : Plan τ) (base : Nat) (constants : List Value) : Prop :=
  ∀ i v, constants[i]? = some v → p.constants[base + i]? = some v

theorem Holds.append {base : Nat} {vs ws : List Value} (h : p.Holds base (vs ++ ws)) :
    p.Holds base vs ∧ p.Holds (base + vs.length) ws := by
  refine ⟨fun i v hv => h i v ?_, fun i w hw => ?_⟩
  · have inside : i < vs.length := (List.getElem?_eq_some_iff.1 hv).1
    rw [List.getElem?_append_left inside, hv]
  · have found := h (vs.length + i) w (by rw [List.getElem?_append_right (by omega)]; simpa using hw)
    rwa [Nat.add_assoc]

theorem runFrom_cons (stack : List Value) (i : Instr) (code : List Instr) :
    p.runFrom ctx trees 0 stack (i :: code)
      = p.step ctx trees stack i >>= fun s => p.runFrom ctx trees s.2 s.1 code := by
  rw [runFrom]
  cases p.step ctx trees stack i <;> rfl

theorem runFrom_skip (p : Plan τ) (ctx : Context) (trees : List Outcome) (stack : List Value)
    (code rest : List Instr) :
    p.runFrom ctx trees code.length stack (code ++ rest) = p.runFrom ctx trees 0 stack rest := by
  induction code with
  | nil => rfl
  | cons i code ih => simpa only [List.length_cons, List.cons_append, runFrom] using ih

mutual
/-- What follows the code of a tree runs with the value of the tree on the stack. -/
theorem runFrom_emit : (n : Node) → (base : Nat) → (stack : List Value) → (rest : List Instr) →
    p.Holds base (n.emit base).2 →
    p.runFrom ctx trees 0 stack ((n.emit base).1 ++ rest)
      = n.outcome p.numeric (p.places ctx trees) >>= fun v => p.runFrom ctx trees 0 (v :: stack) rest
  | .const v, base, stack, rest, holds => by
      have found := holds 0 v rfl
      simp only [Node.emit, List.singleton_append, runFrom_cons, step, Node.outcome, Outcome.ok_bind]
      rw [← Nat.add_zero base, found, Option.getD_some]
  | .load i, _, stack, rest, _ => by
      simp only [Node.emit, List.singleton_append, runFrom_cons, step, Node.outcome, places]
      cases ((p.references[i]?.map (·.resolve ctx)).getD (.ok .null)) <;> rfl
  | .call f args, base, stack, rest, holds => by
      simp only [Node.emit] at holds ⊢
      rw [List.append_assoc, runFrom_emitAll args base stack _ holds, Node.outcome]
      cases computed : Outcome.all (Node.outcomes p.numeric (p.places ctx trees) args) with
      | error e => rfl
      | ok vs =>
        have count : vs.reverse.length = args.length := by
          rw [List.length_reverse, Outcome.length_of_all computed, Node.length_outcomes]
        simp only [Outcome.ok_bind, List.singleton_append, runFrom_cons, step, places]
        rw [← count, List.take_left, List.drop_left, List.reverse_reverse]
        cases ((p.functions[f]?.map fun (_, run) => run vs ctx).getD (.ok .null)) <;> rfl
  | .tree i, _, stack, rest, _ => by
      simp only [Node.emit, List.singleton_append, runFrom_cons, step, Node.outcome, places]
      cases (trees[i]?.getD (.ok .null)) <;> rfl
  | .unary op n, base, stack, rest, holds => by
      simp only [Node.emit] at holds ⊢
      rw [List.append_assoc, runFrom_emit n base stack _ holds, Node.outcome]
      cases n.outcome p.numeric (p.places ctx trees) <;> rfl
  | .binary op l r, base, stack, rest, holds => by
      obtain ⟨holdsLeft, holdsRight⟩ : p.Holds base (l.emit base).2
          ∧ p.Holds (base + (l.emit base).2.length) (r.emit (base + (l.emit base).2.length)).2 := by
        simp only [Node.emit] at holds
        split at holds <;> exact holds.append
      simp only [Node.emit, Node.outcome, BinaryOp.ofOutcomes]
      split
      · rw [List.append_assoc, runFrom_emit l base stack _ holdsLeft]
        cases l.outcome p.numeric (p.places ctx trees) with
        | error e => rfl
        | ok left =>
          simp only [Outcome.ok_bind, List.cons_append, runFrom_cons, step, List.headD_cons,
            List.tail_cons]
          cases op.decided? p.numeric left with
          | some v =>
            -- The jump covers the code of the right side and the settling behind it.
            have landing := p.runFrom_skip ctx trees (v :: stack)
              ((r.emit (base + (l.emit base).2.length)).1 ++ [.settle op]) rest
            rwa [List.length_append] at landing
          | none =>
            simp only [Outcome.ok_bind]
            rw [List.append_assoc, runFrom_emit r _ stack _ holdsRight]
            cases r.outcome p.numeric (p.places ctx trees) <;> rfl
      · rw [List.append_assoc, List.append_assoc, runFrom_emit l base stack _ holdsLeft]
        cases l.outcome p.numeric (p.places ctx trees) with
        | error e => rfl
        | ok left =>
          simp only [Outcome.ok_bind]
          rw [runFrom_emit r _ (left :: stack) _ holdsRight]
          cases r.outcome p.numeric (p.places ctx trees) with
          | error e => rfl
          | ok right =>
            simp only [Outcome.ok_bind, List.singleton_append, runFrom_cons, step, List.headD_cons,
              List.tail_cons]
            cases op.apply p.numeric left right <;> rfl

theorem runFrom_emitAll : (ns : List Node) → (base : Nat) → (stack : List Value) → (rest : List Instr) →
    p.Holds base (Node.emitAll base ns).2 →
    p.runFrom ctx trees 0 stack ((Node.emitAll base ns).1 ++ rest)
      = Outcome.all (Node.outcomes p.numeric (p.places ctx trees) ns) >>= fun vs =>
          p.runFrom ctx trees 0 (vs.reverse ++ stack) rest
  | [], _, _, _, _ => rfl
  | n :: ns, base, stack, rest, holds => by
      simp only [Node.emitAll] at holds ⊢
      rw [List.append_assoc, runFrom_emit n base stack _ holds.append.1, Node.outcomes, Outcome.all]
      cases n.outcome p.numeric (p.places ctx trees) with
      | error e => rfl
      | ok v =>
        simp only [Outcome.ok_bind]
        rw [runFrom_emitAll ns _ (v :: stack) rest holds.append.2]
        cases Outcome.all (Node.outcomes p.numeric (p.places ctx trees) ns) with
        | error e => rfl
        | ok vs => simp
end

/-- A plan whose code is that of a tree computes the value of the tree. -/
theorem run_of_emit (p : Plan τ) (n : Node) (made : n.emit 0 = (p.code, p.constants)) (ctx : Context)
    (trees : List Outcome) : p.run ctx trees = n.outcome p.numeric (p.places ctx trees) := by
  have holds : p.Holds 0 (n.emit 0).2 := by
    rw [made]
    intro i v found
    rwa [Nat.zero_add]
  have ran : p.runFrom ctx trees 0 [] ((n.emit 0).1 ++ []) = _ := runFrom_emit n 0 [] [] holds
  rw [made, List.append_nil] at ran
  rw [run, ran]
  exact bind_pure _

end Plan

end ExactFormula
