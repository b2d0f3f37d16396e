import ExactFormula.Proofs.Plan.Code

/-!
The height of the stack along every path through the code of a plan, whether the left side of `&&`, `||` or `??`
decides or not. Where every instruction finds the values that it takes, a machine that takes no others and points
at nothing that is not there comes to the same outcome.
-/

namespace ExactFormula

/-! ## Instructions -/

namespace Instr

/-- How many values an instruction takes from the stack. -/
def taken : Instr → Nat
  | const _ | load _ | tree _ => 0
  | call _ argc => argc
  | unary _ | shortCircuit _ _ | settle _ => 1
  | binary _ => 2

/-- How many values it leaves there, when it does not jump. -/
def left : Instr → Nat
  | shortCircuit _ _ => 0
  | _ => 1

/-- What the instruction points at is in the tables of the plan. -/
def InRange {τ : Type} (p : Plan τ) : Instr → Prop
  | const i => i < p.constants.length
  | load i => i < p.references.length
  | call f _ => f < p.functions.length
  | tree i => i < p.trees.length
  | unary _ | binary _ | shortCircuit _ _ | settle _ => True

end Instr

namespace Plan

variable {τ : Type} {p : Plan τ} {ctx : Context} {trees : List Outcome} {code rest : List Instr} {height : Nat}

/-! ## Paths -/

/-- Paths through code lead to the place with the height of the stack. -/
inductive Path (code : List Instr) : (place height : Nat) → Prop
  | start : Path code 0 0
  | next {place height : Nat} {i : Instr} (before : Path code place height) (here : code[place]? = some i) :
      Path code (place + 1) (height - i.taken + i.left)
  | jump {place height : Nat} {op : BinaryOp} {skip : Nat} (before : Path code place height)
      (here : code[place]? = some (.shortCircuit op skip)) : Path code (place + 1 + skip) (height - 1 + 1)

/-- From the place behind `skip` more instructions, all paths find what they take, and end with one value. -/
def Enough : (skip height : Nat) → List Instr → Prop
  | 0, height, [] => height = 1
  | _ + 1, _, [] => False
  | skip + 1, height, _ :: code => Enough skip height code
  | 0, height, i :: code => i.taken ≤ height ∧ Enough 0 (height - i.taken + i.left) code ∧
      ∀ op skip, i = .shortCircuit op skip → Enough skip (height - 1 + 1) code

theorem Enough.skip (skipped : List Instr) (h : Enough 0 height rest) :
    Enough skipped.length height (skipped ++ rest) := by
  induction skipped with
  | nil => exact h
  | cons i skipped ih => exact ih

theorem Enough.drop {skip : Nat} (h : Enough skip height code) :
    skip ≤ code.length ∧ Enough 0 height (code.drop skip) := by
  induction code generalizing skip with
  | nil =>
    cases skip with
    | zero => exact ⟨Nat.le_refl _, h⟩
    | succ skip => exact h.elim
  | cons i code ih =>
    cases skip with
    | zero => exact ⟨Nat.zero_le _, h⟩
    | succ skip =>
      obtain ⟨inside, behind⟩ := ih h
      exact ⟨Nat.succ_le_succ inside, behind⟩

/-- An instruction that does not jump, in front of code. -/
theorem Enough.cons {i : Instr} (plain : ∀ op skip, i ≠ .shortCircuit op skip) (h : Enough 0 (height + 1) code) :
    Enough 0 (height + i.taken) (i :: code) := by
  have one : i.left = 1 := by
    cases i with
    | shortCircuit op skip => exact absurd rfl (plain op skip)
    | _ => rfl
  refine ⟨Nat.le_add_left _ _, ?_, fun op skip same => absurd same (plain op skip)⟩
  rwa [Nat.add_sub_cancel, one]

mutual
/-- The code of a tree leaves one value more, on every path. -/
theorem enough_emit : (n : Node) → (base height : Nat) → {rest : List Instr} → Enough 0 (height + 1) rest →
    Enough 0 height ((n.emit base).1 ++ rest)
  | .const v, base, height, rest, h => by
      rw [Node.emit]
      exact Enough.cons nofun h
  | .load i, base, height, rest, h => by
      rw [Node.emit]
      exact Enough.cons nofun h
  | .call f args, base, height, rest, h => by
      simp only [Node.emit, List.append_assoc]
      exact enough_emitAll args base height (.cons nofun h)
  | .tree i, base, height, rest, h => by
      rw [Node.emit]
      exact Enough.cons nofun h
  | .unary op n, base, height, rest, h => by
      simp only [Node.emit, List.append_assoc]
      exact enough_emit n base height (.cons nofun h)
  | .binary op l r, base, height, rest, h => by
      simp only [Node.emit]
      split
      · rw [List.append_assoc, List.cons_append, List.append_assoc]
        refine enough_emit l base height ⟨Nat.le_add_left _ _, ?_, ?_⟩
        · exact enough_emit r _ height (.cons nofun h)
        · rintro _ _ ⟨⟩
          have landing := Enough.skip ((r.emit (base + (l.emit base).2.length)).1 ++ [.settle op]) h
          rwa [List.length_append, List.append_assoc] at landing
      · rw [List.append_assoc, List.append_assoc]
        refine enough_emit l base height (enough_emit r _ (height + 1) ?_)
        exact Enough.cons (i := .binary op) nofun h

theorem enough_emitAll : (ns : List Node) → (base height : Nat) → {rest : List Instr} →
    Enough 0 (height + ns.length) rest → Enough 0 height ((Node.emitAll base ns).1 ++ rest)
  | [], _, _, _, h => h
  | n :: ns, base, height, rest, h => by
      simp only [Node.emitAll, List.append_assoc]
      refine enough_emit n base height (enough_emitAll ns _ (height + 1) ?_)
      rwa [List.length_cons, Nat.add_comm ns.length, ← Nat.add_assoc] at h
end

/-- Along a path there is always enough for the paths on. -/
theorem Path.enough {place : Nat} (h : Path code place height) (all : Enough 0 0 code) :
    place ≤ code.length ∧ Enough 0 height (code.drop place) := by
  have step {place height : Nat} {i : Instr} (before : Enough 0 height (code.drop place))
      (here : code[place]? = some i) : place + 1 ≤ code.length ∧ i.taken ≤ height ∧
      Enough 0 (height - i.taken + i.left) (code.drop (place + 1)) ∧
      ∀ op skip, i = .shortCircuit op skip → Enough skip (height - 1 + 1) (code.drop (place + 1)) := by
    obtain ⟨inside, rfl⟩ := List.getElem?_eq_some_iff.1 here
    rw [List.drop_eq_getElem_cons inside] at before
    exact ⟨inside, before⟩
  induction h with
  | start => exact ⟨Nat.zero_le _, all⟩
  | next before here ih =>
    obtain ⟨inside, -, onwards, -⟩ := step ih.2 here
    exact ⟨inside, onwards⟩
  | jump before here ih =>
    obtain ⟨inside, -, -, jumps⟩ := step ih.2 here
    obtain ⟨lands, onwards⟩ := (jumps _ _ rfl).drop
    rw [List.length_drop] at lands
    rw [List.drop_drop] at onwards
    exact ⟨by omega, onwards⟩

/-- Code can be walked through to every place without a jump. -/
theorem exists_path (place : Nat) (inside : place ≤ code.length) : ∃ height, Path code place height := by
  induction place with
  | zero => exact ⟨0, .start⟩
  | succ place ih =>
    obtain ⟨height, before⟩ := ih (Nat.le_of_succ_le inside)
    exact ⟨_, .next before (List.getElem?_eq_getElem inside)⟩

/-- Every jump lands in the code or behind its end. -/
theorem jump_le (all : Enough 0 0 code) {place : Nat} {op : BinaryOp} {skip : Nat}
    (here : code[place]? = some (.shortCircuit op skip)) : place + 1 + skip ≤ code.length := by
  obtain ⟨inside, -⟩ := List.getElem?_eq_some_iff.1 here
  obtain ⟨height, before⟩ := exists_path place (Nat.le_of_lt inside)
  exact (Path.enough (.jump before here) all).1

/-- On every path an instruction finds the values that it takes. -/
theorem Path.taken_le {place : Nat} {i : Instr} (h : Path code place height) (all : Enough 0 0 code)
    (here : code[place]? = some i) : i.taken ≤ height := by
  obtain ⟨inside, rfl⟩ := List.getElem?_eq_some_iff.1 here
  have onwards := (h.enough all).2
  rw [List.drop_eq_getElem_cons inside] at onwards
  exact onwards.1

/-- Every path ends with one value. -/
theorem Path.ends (h : Path code code.length height) (all : Enough 0 0 code) : height = 1 := by
  have onwards := (h.enough all).2
  rw [List.drop_length] at onwards
  exact onwards

/-! ## Runs -/

/-- What an instruction makes of the stack, when that holds what it takes and the tables what it points at. -/
def step? (p : Plan τ) (ctx : Context) (trees : List Outcome) (stack : List Value) :
    Instr → Option (Except FormulaError (List Value × Nat))
  | .const i => p.constants[i]?.map fun v => .ok (v :: stack, 0)
  | .load i => p.references[i]?.map fun r => (r.resolve ctx).map fun v => (v :: stack, 0)
  | .call f argc =>
    if argc ≤ stack.length then
      p.functions[f]?.map fun (_, run) => (run (stack.take argc).reverse ctx).map fun v => (v :: stack.drop argc, 0)
    else none
  | .tree i => trees[i]?.map fun r => r.map fun v => (v :: stack, 0)
  | .unary op =>
    match stack with
    | v :: stack => some (.ok (op.apply v :: stack, 0))
    | [] => none
  | .binary op =>
    match stack with
    | r :: l :: stack => some ((op.apply p.numeric l r).map fun v => (v :: stack, 0))
    | _ => none
  | .shortCircuit op skip =>
    match stack with
    | left :: stack =>
      match op.decided? p.numeric left with
      | some v => some (.ok (v :: stack, skip))
      | none => some (.ok (stack, 0))
    | [] => none
  | .settle op =>
    match stack with
    | right :: stack => some (.ok (op.settle p.numeric right :: stack, 0))
    | [] => none

/-- From the place on, every instruction finds what it takes and points at, and nothing but the result is left. -/
inductive Runs (p : Plan τ) (ctx : Context) (trees : List Outcome) : (place : Nat) → List Value → Outcome → Prop
  | ended {v : Value} : Runs p ctx trees p.code.length [v] (.ok v)
  | failed {place : Nat} {stack : List Value} {i : Instr} {e : FormulaError} (here : p.code[place]? = some i)
      (step : p.step? ctx trees stack i = some (.error e)) : Runs p ctx trees place stack (.error e)
  | step {place skip : Nat} {stack stack' : List Value} {i : Instr} {r : Outcome} (here : p.code[place]? = some i)
      (step : p.step? ctx trees stack i = some (.ok (stack', skip)))
      (rest : Runs p ctx trees (place + 1 + skip) stack' r) : Runs p ctx trees place stack r

/-- A step that finds everything is the step of the plan. -/
theorem step?_eq_step {stack : List Value} {i : Instr} (range : i.InRange p) (known : trees.length = p.trees.length)
    (enough : i.taken ≤ stack.length) : p.step? ctx trees stack i = some (p.step ctx trees stack i) := by
  cases i with
  | const i =>
    have found : p.constants[i]? = some p.constants[i] := List.getElem?_eq_getElem range
    simp only [step?, step, found, Option.map_some, Option.getD_some]
  | load i =>
    have found : p.references[i]? = some p.references[i] := List.getElem?_eq_getElem range
    simp only [step?, step, found, Option.map_some, Option.getD_some]
    rfl
  | call f argc =>
    have found : p.functions[f]? = some p.functions[f] := List.getElem?_eq_getElem range
    simp only [step?, step, found, if_pos (show argc ≤ stack.length from enough), Option.map_some, Option.getD_some]
    rfl
  | tree i =>
    have inside : i < trees.length := by
      rw [known]
      exact range
    simp only [step?, step, List.getElem?_eq_getElem inside, Option.map_some, Option.getD_some]
    rfl
  | unary op =>
    obtain _ | ⟨v, stack⟩ := stack
    · exact absurd enough (Nat.not_succ_le_zero 0)
    · rfl
  | binary op =>
    obtain _ | ⟨r, _ | ⟨l, stack⟩⟩ := stack
    · exact absurd enough (Nat.not_succ_le_zero 1)
    · exact absurd (Nat.le_of_succ_le_succ enough) (Nat.not_succ_le_zero 0)
    · rfl
  | shortCircuit op skip =>
    obtain _ | ⟨left, stack⟩ := stack
    · exact absurd enough (Nat.not_succ_le_zero 0)
    · simp only [step?, step, List.headD_cons, List.tail_cons]
      cases op.decided? p.numeric left <;> rfl
  | settle op =>
    obtain _ | ⟨right, stack⟩ := stack
    · exact absurd enough (Nat.not_succ_le_zero 0)
    · rfl

/-- A step goes along a path. -/
theorem step_path {place skip : Nat} {stack stack' : List Value} {i : Instr} (before : Path code place stack.length)
    (here : code[place]? = some i) (h : p.step ctx trees stack i = .ok (stack', skip)) :
    Path code (place + 1 + skip) stack'.length := by
  have next (zero : skip = 0) (length : stack'.length = stack.length - i.taken + i.left) :
      Path code (place + 1 + skip) stack'.length := by
    rw [zero, length]
    exact .next before here
  have pushed {r : Outcome} {stack₁ : List Value}
      (h : (r >>= fun v => (return (v :: stack₁, 0) : Except FormulaError _)) = .ok (stack', skip)) :
      skip = 0 ∧ stack'.length = stack₁.length + 1 := by
    cases r with
    | error e => cases h
    | ok v =>
      cases h
      exact ⟨rfl, rfl⟩
  cases i with
  | const i =>
    cases h
    exact next rfl rfl
  | load i =>
    obtain ⟨zero, length⟩ := pushed h
    exact next zero length
  | call f argc =>
    obtain ⟨zero, length⟩ := pushed h
    rw [List.length_drop] at length
    exact next zero length
  | tree i =>
    obtain ⟨zero, length⟩ := pushed h
    exact next zero length
  | unary op =>
    cases h
    exact next rfl (by rw [List.length_cons, List.length_tail]; rfl)
  | binary op =>
    obtain ⟨zero, length⟩ := pushed h
    rw [List.length_tail, List.length_tail, Nat.sub_sub] at length
    exact next zero length
  | shortCircuit op target =>
    rw [step] at h
    split at h
    · cases h
      rw [List.length_cons, List.length_tail]
      exact .jump before here
    · cases h
      exact next rfl List.length_tail
  | settle op =>
    cases h
    exact next rfl (by rw [List.length_cons, List.length_tail]; rfl)

theorem runFrom_drop (skip : Nat) (stack : List Value) (code : List Instr) :
    p.runFrom ctx trees skip stack code = p.runFrom ctx trees 0 stack (code.drop skip) := by
  induction code generalizing skip with
  | nil => cases skip <;> rfl
  | cons i code ih =>
    cases skip with
    | zero => rfl
    | succ skip => exact ih skip

theorem runs_of_path (range : ∀ i ∈ p.code, i.InRange p) (known : trees.length = p.trees.length)
    (all : Enough 0 0 p.code) (place : Nat) (stack : List Value) (path : Path p.code place stack.length) :
    p.Runs ctx trees place stack (p.runFrom ctx trees 0 stack (p.code.drop place)) := by
  rcases Nat.lt_or_eq_of_le (path.enough all).1 with inside | rfl
  · have here : p.code[place]? = some p.code[place] := List.getElem?_eq_getElem inside
    have found : p.step? ctx trees stack p.code[place] = some (p.step ctx trees stack p.code[place]) :=
      step?_eq_step (range _ (List.getElem_mem inside)) known (path.taken_le all here)
    rw [List.drop_eq_getElem_cons inside, runFrom_cons]
    cases stepped : p.step ctx trees stack p.code[place] with
    | error e => exact .failed here (found.trans (congrArg some stepped))
    | ok next =>
      obtain ⟨stack', skip⟩ := next
      -- Whether the step jumps or not, a path leads to where it lands, and so there is enough from there on.
      have onwards := step_path path here stepped
      have rest := runs_of_path range known all (place + 1 + skip) stack' onwards
      rw [← List.drop_drop, ← runFrom_drop] at rest
      exact .step here (found.trans (congrArg some stepped)) rest
  · obtain ⟨v, rfl⟩ := List.length_eq_one_iff.1 (path.ends all)
    rw [List.drop_length]
    exact .ended
termination_by p.code.length - place

end Plan

end ExactFormula
