import ExactFormula.Proofs.Formula.Within
import ExactFormula.Proofs.Plan.Planning

/-!
Folding in advance is complete on formulas that depend on nothing: what is left of such a formula is a constant, or
a tree that fails in every context. It is sound everywhere, as a plan that is one constant comes from a tree that is.
-/

namespace ExactFormula

mutual
/-- No reference, no call and no literal that holds a formula, in groups on any level. -/
def Formula.isClosed : Formula → Bool
  | ⟨_, parts, _, _⟩ => Part.areClosed parts

def Part.areClosed : List (Part Operand) → Bool
  | [] => true
  | p :: ps => Part.isClosed p && Part.areClosed ps

def Part.isClosed : Part Operand → Bool
  | .operand a => a.isClosed
  | .unary _ => true
  | .binary _ => true

def Operand.isClosed : Operand → Bool
  | .text _ => true
  | .constant _ => true
  | .reference _ => false
  | .call _ _ _ => false
  | .group f => f.isClosed
  | .literal _ tree => tree.isConstant
end

/-! ## Literals without formulas -/

mutual
theorem Literal.exists_evaluate (ctx : Context) : (l : Literal) → l.isConstant = true → ∃ v, l.evaluate ctx = .ok v
  | .value v, _ => ⟨v, by rw [Literal.evaluate]⟩
  | .array items, h => by
      rw [Literal.isConstant] at h
      obtain ⟨vs, all⟩ := Literal.exists_evaluateAll ctx items h
      exact ⟨.array vs, by rw [Literal.evaluate, all]; rfl⟩
  | .object members, h => by
      rw [Literal.isConstant] at h
      obtain ⟨vs, all⟩ := Literal.exists_evaluateMembers ctx members h
      exact ⟨.object vs, by rw [Literal.evaluate, all]; rfl⟩
  | .formula _ _, h => by rw [Literal.isConstant] at h; cases h

theorem Literal.exists_evaluateAll (ctx : Context) : (ls : List Literal) → Literal.areConstant ls = true →
    ∃ vs, Outcome.all (Literal.evaluateAll ctx ls) = .ok vs
  | [], _ => ⟨[], by rw [Literal.evaluateAll, Outcome.all]⟩
  | l :: ls, h => by
      rw [Literal.areConstant, Bool.and_eq_true] at h
      obtain ⟨v, here⟩ := Literal.exists_evaluate ctx l h.1
      obtain ⟨vs, rest⟩ := Literal.exists_evaluateAll ctx ls h.2
      exact ⟨v :: vs, by simp [Literal.evaluateAll, Outcome.all, here, rest]⟩

theorem Literal.exists_evaluateMembers (ctx : Context) : (ms : List (String × Literal)) →
    Literal.areMembersConstant ms = true → ∃ vs, Outcome.allMembers (Literal.evaluateMembers ctx ms) = .ok vs
  | [], _ => ⟨[], by rw [Literal.evaluateMembers, Outcome.allMembers]⟩
  | (k, l) :: ms, h => by
      rw [Literal.areMembersConstant, Bool.and_eq_true] at h
      obtain ⟨v, here⟩ := Literal.exists_evaluate ctx l h.1
      obtain ⟨vs, rest⟩ := Literal.exists_evaluateMembers ctx ms h.2
      exact ⟨(k, v) :: vs, by simp [Literal.evaluateMembers, Outcome.allMembers, here, rest]⟩
end

namespace Plan

/-! ## Trees that depend on nothing -/

/-- A constant, or a tree that fails whatever its places stand for. -/
def Node.Settled (numeric : Bool) (n : Node) : Prop :=
  (∃ v, n = .const v) ∨ ∃ e, ∀ env, n.outcome numeric env = .error e

namespace Node

variable {numeric : Bool} {l r n : Node}

theorem Settled.applyUnary (op : UnaryOp) (h : n.Settled numeric) : (n.applyUnary op).Settled numeric := by
  rcases h with ⟨v, rfl⟩ | ⟨e, fails⟩
  · exact .inl ⟨op.apply v, rfl⟩
  · refine .inr ⟨e, fun env => ?_⟩
    rw [outcome_applyUnary, fails]
    rfl

/-- A left value that decides is folded with whatever stands on the right. -/
theorem folded?_of_decided {op : BinaryOp} {a v : Value} (short : op.isShortCircuit = true)
    (decided : op.decided? numeric a = some v) (r : Node) : folded? numeric op (const a) r = some v := by
  cases r with
  | const b => simp [folded?, BinaryOp.apply, short, decided, Except.toOption]
  | _ => simp [folded?, short, decided]

/-- An operator is left in the tree only where it fails: on two values, or because an operand fails that it
needs. -/
theorem Settled.applyBinary (op : BinaryOp) (hl : l.Settled numeric) (hr : r.Settled numeric) :
    (l.applyBinary numeric op r).Settled numeric := by
  cases folded : folded? numeric op l r with
  | some v => exact .inl ⟨v, by rw [Node.applyBinary, folded]⟩
  | none =>
    rcases hl with ⟨a, rfl⟩ | ⟨e, fails⟩
    · rcases hr with ⟨b, rfl⟩ | ⟨e, fails⟩
      · cases applied : op.apply numeric a b with
        | ok v => simp [folded?, applied, Except.toOption] at folded
        | error e =>
          refine .inr ⟨e, fun env => ?_⟩
          rw [outcome_applyBinary]
          simp only [outcome, BinaryOp.ofOutcomes_ok, applied]
      · refine .inr ⟨e, fun env => ?_⟩
        rw [outcome_applyBinary, fails]
        simp only [outcome, BinaryOp.ofOutcomes, Outcome.ok_bind]
        split
        · rename_i short
          cases decided : op.decided? numeric a with
          | some v => simp [folded?_of_decided short decided] at folded
          | none => rfl
        · rfl
    · refine .inr ⟨e, fun env => ?_⟩
      rw [outcome_applyBinary, fails]
      rfl

/-- The code of a tree is one constant only where the tree is. -/
theorem eq_const_of_emit {base i : Nat} (h : (n.emit base).1 = [.const i]) : ∃ v, n = .const v := by
  cases n with
  | const v => exact ⟨v, rfl⟩
  | load j => simp [emit] at h
  | call f args => simp [emit, List.append_eq_singleton_iff] at h
  | tree j => simp [emit] at h
  | unary op n => simp [emit, List.append_eq_singleton_iff] at h
  | binary op l r =>
    simp only [emit] at h
    split at h <;> simp [List.append_eq_singleton_iff] at h

end Node

end Plan

/-! ## Planning of closed formulas -/

namespace Planning

/-- Whatever comes of the planning depends on nothing. -/
def Settles (numeric : Bool) (x : Planning Planned) : Prop :=
  ∀ {T n depth T'}, x.run T = some ((n, depth), T') → n.Settled numeric

variable {numeric : Bool} {x y : Planning Planned}

theorem Settles.const (v : Value) : Settles numeric (return (.const v, 0)) := by
  intro T n depth T' h
  cases (pure_inv h).1
  exact .inl ⟨v, rfl⟩

theorem Settles.nested (hx : Settles numeric x) : Settles numeric (x >>= nested) := by
  intro T n depth T' h
  obtain ⟨⟨m, d⟩, T₁, first, second⟩ := bind_inv h
  rw [Planning.nested] at second
  split at second
  · cases second
  · cases (pure_inv second).1
    exact hx first

theorem Settles.unary (op : UnaryOp) (hx : Settles numeric x) : Settles numeric ((folder numeric).unary op x) := by
  intro T n depth T' h
  obtain ⟨⟨m, d⟩, T₁, first, h⟩ := bind_inv h
  cases (pure_inv h).1
  exact (hx first).applyUnary op

theorem Settles.binary (op : BinaryOp) (hx : Settles numeric x) (hy : Settles numeric y) :
    Settles numeric ((folder numeric).binary op x y) := by
  intro T n depth T' h
  obtain ⟨⟨l, d⟩, T₁, first, h⟩ := bind_inv h
  obtain ⟨⟨r, e⟩, T₂, second, h⟩ := bind_inv h
  cases (pure_inv h).1
  exact (hx first).applyBinary op (hy second)

theorem settles_ofParts {ps : List (Part Operand)}
    (h : ∀ a, Part.operand a ∈ ps → Settles numeric (a.planned numeric)) :
    Settles numeric (ofParts numeric (Part.plannedAll numeric ps)) := by
  obtain ⟨qs, rfl⟩ := Part.exists_subtype h
  rw [Part.plannedAll_eq_map, Part.map_map, ofParts, Folder.fold_map_part]
  cases Tree.ofParts qs with
  | none => exact Settles.const .null
  | some t =>
    show Settles numeric ((folder numeric).ofTree (t.map fun a => a.1.planned numeric))
    induction t with
    | leaf a => exact a.2
    | unary op t ih => exact ih.unary op
    | binary op l r ihl ihr => exact ihl.binary op ihr

mutual
theorem settles_formula (numeric : Bool) : (f : Formula) → f.isClosed = true → Settles numeric (f.planned numeric)
  | ⟨_, parts, _, _⟩, closed => by
      rw [Formula.isClosed] at closed
      rw [Formula.planned]
      exact settles_ofParts (settles_operands numeric parts closed)

theorem settles_operands (numeric : Bool) : (ps : List (Part Operand)) → Part.areClosed ps = true →
    ∀ a, Part.operand a ∈ ps → Settles numeric (a.planned numeric)
  | [], _, _, mem => by cases mem
  | .operand b :: ps, closed, a, mem => by
      rw [Part.areClosed, Part.isClosed, Bool.and_eq_true] at closed
      rcases List.mem_cons.1 mem with here | later
      · cases here
        exact settles_operand numeric b closed.1
      · exact settles_operands numeric ps closed.2 a later
  | .unary _ :: ps, closed, a, mem => by
      rw [Part.areClosed, Bool.and_eq_true] at closed
      rcases List.mem_cons.1 mem with here | later
      · cases here
      · exact settles_operands numeric ps closed.2 a later
  | .binary _ :: ps, closed, a, mem => by
      rw [Part.areClosed, Bool.and_eq_true] at closed
      rcases List.mem_cons.1 mem with here | later
      · cases here
      · exact settles_operands numeric ps closed.2 a later

theorem settles_operand (numeric : Bool) : (a : Operand) → a.isClosed = true → Settles numeric (a.planned numeric)
  | .text t, _ => by
      rw [Operand.planned]
      exact Settles.const (.string t)
  | .constant v, _ => by
      rw [Operand.planned]
      exact Settles.const v
  | .reference _, closed => by
      rw [Operand.isClosed] at closed
      cases closed
  | .call _ _ _, closed => by
      rw [Operand.isClosed] at closed
      cases closed
  | .group f, closed => by
      rw [Operand.isClosed] at closed
      rw [Operand.planned]
      exact Settles.nested (settles_formula numeric f closed)
  | .literal _ tree, closed => by
      rw [Operand.isClosed] at closed
      obtain ⟨v, value⟩ := tree.exists_evaluate .empty closed
      rw [Operand.planned, if_pos closed, value]
      exact Settles.const v
end

end Planning

/-! ## Plans -/

namespace Plan

/-- The value that a plan of one constant puts on the stack. -/
def constant? {τ : Type} (p : Plan τ) : Option Value :=
  match p.code with
  | [.const i] => p.constants[i]?
  | _ => none

variable {p : Plan Literal} {s : Settings} {parts : List (Part Operand)}

/-- Where the row of a closed formula has a value, its plan is that constant. -/
theorem constant_of_closed (readBy : Part.AllReadBy s parts) (made : ofParts? s.numeric parts = some p)
    (closed : Part.areClosed parts = true) {ctx : Context} {v : Value}
    (value : interpret s.numeric (Part.evaluateAll ctx parts) = .ok v) :
    p.isConstant = true ∧ p.constant? = some v := by
  have ran := run_eq_interpret readBy made ctx
  obtain ⟨⟨⟨root, depth⟩, T⟩, planned, emitted⟩ := Option.bind_eq_some_iff.1 made
  cases emitted
  rw [run_of_emit _ root rfl, value] at ran
  rcases Planning.settles_ofParts (Planning.settles_operands s.numeric parts closed) planned with
    ⟨w, rfl⟩ | ⟨e, fails⟩
  · cases ran
    exact ⟨rfl, rfl⟩
  · cases (fails _).symm.trans ran

/-- A plan of one constant is what its row comes to in every context. -/
theorem exists_constant (readBy : Part.AllReadBy s parts) (made : ofParts? s.numeric parts = some p)
    (constant : p.isConstant = true) :
    ∃ v, p.constant? = some v ∧ ∀ ctx, interpret s.numeric (Part.evaluateAll ctx parts) = .ok v := by
  have ran := run_eq_interpret readBy made
  obtain ⟨⟨⟨root, depth⟩, T⟩, planned, emitted⟩ := Option.bind_eq_some_iff.1 made
  cases emitted
  obtain ⟨v, rfl⟩ : ∃ v, root = .const v := by
    unfold isConstant at constant
    split at constant
    · exact Node.eq_const_of_emit ‹_›
    · cases constant
  exact ⟨v, rfl, fun ctx => (ran ctx).symm.trans rfl⟩

end Plan

end ExactFormula
