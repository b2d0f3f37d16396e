import ExactFormula.Proofs.Formula.Interpreter
import ExactFormula.Proofs.Formula.Turns
import ExactFormula.Proofs.Plan.Planning

/-!
The interpreter over operands that nobody has looked at yet, in a monad where a look may have effects of its
own, such as the calls that an operand makes. It looks at the operands that direct recursion over the tree of a
row looks at, in the same order, and stops where that stops.
-/

namespace ExactFormula

variable {α : Type} {m : Type → Type} [Monad m]

/-- An outcome that nothing has to be done for. -/
def Outcome.here (r : Outcome) : ExceptT FormulaError m Value := ExceptT.mk (pure r)

/-- Direct recursion over a tree. A strict operator takes its left operand, then its right one, and applies
itself; `&&`, `||` and `??` take the right operand only where the left value does not decide. An error ends
the evaluation, whichever operand it comes from. -/
def Tree.evaluateBy (look : α → ExceptT FormulaError m Value) (numeric : Bool) :
    Tree α → ExceptT FormulaError m Value
  | .leaf a => look a
  | .unary op t => do return op.apply (← evaluateBy look numeric t)
  | .binary op l r => do
    let left ← evaluateBy look numeric l
    if op.isShortCircuit then
      match op.decided? numeric left with
      | some v => return v
      | none => return op.settle numeric (← evaluateBy look numeric r)
    else
      let right ← evaluateBy look numeric r
      Outcome.here (op.apply numeric left right)

/-- What is left to do while operands wait. -/
inductive Deferred (α : Type)
  | force (t : Tree α)
  | unary (op : UnaryOp)
  | binary (op : BinaryOp)
  | decide (op : BinaryOp) (right : Tree α)
  | settle (op : BinaryOp)

namespace Deferred

/-- The task over the outcomes of the operands. -/
def known (f : α → Outcome) : Deferred α → Task
  | force t => .force (t.map f)
  | unary op => .unary op
  | binary op => .binary op
  | decide op right => .decide op (right.map f)
  | settle op => .settle op

def work (tasks : List (Deferred α)) : Nat := Task.totalWork (tasks.map (known fun _ => .ok .null))

/-- Works through the tasks, and looks at an operand when its turn comes. -/
def run (look : α → ExceptT FormulaError m Value) (numeric : Bool) (tasks : List (Deferred α))
    (values : List Value) : ExceptT FormulaError m Value :=
  match tasks with
  | [] => return Task.popped values
  | force (.leaf a) :: tasks => do
    let v ← look a
    run look numeric tasks (v :: values)
  | force (.unary op t) :: tasks => run look numeric (force t :: unary op :: tasks) values
  | force (.binary op l r) :: tasks =>
    if op.isShortCircuit then run look numeric (force l :: decide op r :: tasks) values
    else run look numeric (force l :: force r :: binary op :: tasks) values
  | unary op :: tasks => run look numeric tasks (op.apply (Task.popped values) :: values.tail)
  | binary op :: tasks => do
    let v ← Outcome.here (op.apply numeric (Task.popped values.tail) (Task.popped values))
    run look numeric tasks (v :: values.tail.tail)
  | decide op right :: tasks =>
    match op.decided? numeric (Task.popped values) with
    | some v => run look numeric tasks (v :: values.tail)
    | none => run look numeric (force right :: settle op :: tasks) values.tail
  | settle op :: tasks => run look numeric tasks (op.settle numeric (Task.popped values) :: values.tail)
termination_by work tasks
decreasing_by
  all_goals
    simp only [work, List.map_cons, known, Tree.map, Task.totalWork, Task.work, Task.treeWork]
    omega

/-! ## The machine and the recursion -/

section Lawful

variable [LawfulMonad m] (look : α → ExceptT FormulaError m Value) (numeric : Bool)

/-- To force a tree is to evaluate it and to go on with its value on the stack. -/
theorem run_force (t : Tree α) (tasks : List (Deferred α)) (values : List Value) :
    run look numeric (force t :: tasks) values =
      t.evaluateBy look numeric >>= fun v => run look numeric tasks (v :: values) := by
  induction t generalizing tasks values with
  | leaf a => rw [run, Tree.evaluateBy]
  | unary op t ih =>
    rw [run, ih, Tree.evaluateBy, bind_assoc]
    refine bind_congr fun v => ?_
    rw [run, pure_bind]
    rfl
  | binary op l r ihl ihr =>
    rw [run, Tree.evaluateBy, bind_assoc]
    by_cases short : op.isShortCircuit
    · rw [if_pos short, ihl]
      refine bind_congr fun left => ?_
      rw [if_pos short, run]
      simp only [Task.popped, List.headD_cons, List.tail_cons]
      cases op.decided? numeric left with
      | some v => simp only [pure_bind]
      | none =>
        simp only [ihr, bind_assoc, pure_bind]
        refine bind_congr fun right => ?_
        rw [run]
        rfl
    · rw [if_neg short, ihl]
      refine bind_congr fun left => ?_
      rw [if_neg short, ihr, bind_assoc]
      refine bind_congr fun right => ?_
      rw [run]
      rfl

theorem run_eq_evaluateBy (t : Tree α) : run look numeric [force t] [] = t.evaluateBy look numeric := by
  rw [run_force]
  simp only [run, Task.popped, List.headD_cons]
  exact bind_pure _

end Lawful

/-- Where a look has no effect the machine is the interpreter. -/
theorem run_known (f : α → Outcome) (numeric : Bool) (tasks : List (Deferred α)) (values : List Value) :
    run (m := Id) f numeric tasks values = Task.run numeric (tasks.map (known f)) values := by
  fun_induction run (m := Id) f numeric tasks values with
  | case1 values => simp only [List.map_nil, Task.run]; rfl
  | case2 values a tasks ih =>
    simp only [List.map_cons, known, Tree.map]
    cases f a with
    | error e => simp only [Task.run]; rfl
    | ok v => simp only [Task.run]; exact ih v
  | case3 values op t tasks ih => simpa only [List.map_cons, known, Tree.map, Task.run] using ih
  | case4 values op l r tasks short ih =>
    simpa only [List.map_cons, known, Tree.map, Task.run, if_pos short] using ih
  | case5 values op l r tasks strict ih =>
    simpa only [List.map_cons, known, Tree.map, Task.run, if_neg strict] using ih
  | case6 values op tasks ih => simpa only [List.map_cons, known, Task.run] using ih
  | case7 values op tasks ih =>
    simp only [List.map_cons, known, Task.run]
    cases op.apply numeric (Task.popped values.tail) (Task.popped values) with
    | error e => rfl
    | ok v => exact ih v
  | case8 values op right tasks v decided ih =>
    simpa only [List.map_cons, known, Task.run, decided] using ih
  | case9 values op right tasks undecided ih =>
    simpa only [List.map_cons, known, Task.run, undecided] using ih
  | case10 values op tasks ih => simpa only [List.map_cons, known, Task.run] using ih

end Deferred

/-! ## Rows -/

/-- A row in which operands and operators take turns has a tree that holds its parts, and its interpretation is direct
recursion over that tree. It stays so when a look at an operand has effects of its own: the machine looks at the same
operands in the same order, and not at one that comes after an error or that a left value has decided about. -/
theorem interpret_eq_recursion {parts : List (Part Operand)} (turns : Part.Alternate true parts) :
    ∃ t, Tree.ofParts parts = some t ∧ t.parts = parts ∧
      (∀ numeric ctx, interpret numeric (Part.evaluateAll ctx parts) =
        t.evaluateBy (m := Id) (Operand.evaluate ctx) numeric) ∧
      (∀ numeric ctx tasks values, Deferred.run (m := Id) (Operand.evaluate ctx) numeric tasks values =
        Task.run numeric (tasks.map (Deferred.known (Operand.evaluate ctx))) values) ∧
      (∀ (m : Type → Type) [Monad m] [LawfulMonad m] (look : Operand → ExceptT FormulaError m Value) numeric,
        Deferred.run look numeric [.force t] [] = t.evaluateBy look numeric) ∧
      ∀ (op : BinaryOp) numeric left, op.isShortCircuit = true → ∀ right, op.apply numeric left right =
        .ok ((op.decided? numeric left).getD (op.settle numeric right)) := by
  obtain ⟨t, tree, inOrder⟩ := Tree.exists_of_alternate turns
  refine ⟨t, tree, inOrder, fun numeric ctx => ?_, fun numeric ctx => Deferred.run_known _ numeric,
    fun m _ _ look numeric => Deferred.run_eq_evaluateBy look numeric t,
    fun op numeric left short right => by rw [BinaryOp.apply, if_pos short]⟩
  have mapped : Tree.ofParts (Part.evaluateAll ctx parts) = some (t.map (Operand.evaluate ctx)) := by
    rw [Part.evaluateAll_eq_map, Tree.ofParts, Folder.fold_map_part, tree]
    exact congrArg some (Tree.ofTree_folder _)
  rw [interpret, mapped, ← Deferred.run_eq_evaluateBy, Deferred.run_known]
  rfl

/-- An operand that decides, and one that nothing is known of. -/
def decidedRow : List (Part Operand) :=
  [.operand (.constant (.bool false)), .binary .and, .operand (.reference ⟨"unknown", .lookup none⟩)]

/-- The second operand is an error in every context without its name, and is never looked at. -/
theorem interpret_eq_recursion_decided : Part.Alternate true decidedRow ∧
    ∃ t, Tree.ofParts decidedRow = some t ∧ ∀ ctx,
      interpret false (Part.evaluateAll ctx decidedRow) = .ok (.bool false) ∧
      (Deferred.run (fun a => do modify (· + 1); Outcome.here (a.evaluate ctx)) false [.force t] []
        : ExceptT FormulaError (StateM Nat) Value).run.run 0 = (.ok (.bool false), 1) := by
  have turns : Part.Alternate true decidedRow := ⟨rfl, rfl, rfl, rfl⟩
  obtain ⟨t, tree, -, recursion, -, machine, -⟩ := interpret_eq_recursion turns
  refine ⟨turns, t, tree, fun ctx => ⟨?_, ?_⟩⟩
  · rw [recursion]
    cases tree
    rfl
  · rw [machine]
    cases tree
    rfl

end ExactFormula
