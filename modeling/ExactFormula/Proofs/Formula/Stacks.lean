import ExactFormula.Formula.Interpreter
import ExactFormula.Proofs.Reading.Built

/-!
The stacks of an evaluation never run out. A pass with two stacks that refuses to go on without an operand, and an
interpreter that takes values only from a stack that holds them, come to the same end as those that fall back on
something else, and nothing but the result is left.
-/

namespace ExactFormula

variable {α β : Type}

/-! ## The pass with two stacks -/

namespace Folder

/-- The two latest operands become one, when there are two. -/
def contract? (F : Folder α β) (op : BinaryOp) : List β → Option (List β)
  | r :: l :: rest => some (F.binary op l r :: rest)
  | _ => none

def reduce? (F : Folder α β) (level : Nat) : List β → List BinaryOp → Option (List β × List BinaryOp)
  | operands, [] => some (operands, [])
  | operands, op :: ops =>
    if level ≤ op.precedence then (F.contract? op operands).bind (reduce? F level · ops) else some (operands, op :: ops)

/-- What the pass ends with: signs, operands and operators that still wait. -/
def stacksFrom? (F : Folder α β) (signs : List UnaryOp) (operands : List β) (operators : List BinaryOp) :
    List (Part α) → Option (List UnaryOp × List β × List BinaryOp)
  | [] => (F.reduce? 0 operands operators).map (signs, ·)
  | .unary op :: ps => stacksFrom? F (op :: signs) operands operators ps
  | .operand a :: ps => stacksFrom? F [] (F.applySigns signs (F.leaf a) :: operands) operators ps
  | .binary op :: ps =>
    (F.reduce? op.precedence operands operators).bind fun (operands, operators) =>
      stacksFrom? F signs operands (op :: operators) ps

def stacks? (F : Folder α β) (ps : List (Part α)) : Option (List UnaryOp × List β × List BinaryOp) :=
  F.stacksFrom? [] [] [] ps

variable {F : Folder α β} {operands operands' : List β} {ops ops' : List BinaryOp} {level : Nat}

theorem reduce_of_reduce? (h : F.reduce? level operands ops = some (operands', ops')) :
    F.reduce level operands ops = (operands', ops') := by
  induction ops generalizing operands with
  | nil =>
    cases h
    rfl
  | cons op ops ih =>
    rw [reduce?] at h
    rw [reduce]
    split
    · rw [if_pos ‹_›] at h
      obtain ⟨applied, two, h⟩ := Option.bind_eq_some_iff.1 h
      have same : F.apply op operands = applied := by
        obtain _ | ⟨r, _ | ⟨l, rest⟩⟩ := operands
        · cases two
        · cases two
        · exact Option.some.inj two
      rw [same]
      exact ih h
    · rw [if_neg ‹_›] at h
      exact Option.some.inj h

/-- With one operand more than operators, as many more are left. -/
theorem exists_reduce? (F : Folder α β) (level : Nat) (count : operands.length = ops.length + 1) :
    ∃ operands' ops', F.reduce? level operands ops = some (operands', ops') ∧
      operands'.length = ops'.length + 1 ∧ (level = 0 → ops' = []) := by
  induction ops generalizing operands with
  | nil => exact ⟨operands, [], rfl, count, fun _ => rfl⟩
  | cons op ops ih =>
    match operands, count with
    | r :: l :: rest, count =>
      rw [reduce?]
      split
      · exact ih (by simpa using count)
      · rename_i looser
        refine ⟨_, _, rfl, count, ?_⟩
        rintro rfl
        exact absurd (Nat.zero_le _) looser

/-- The pass goes through a row in which operands and operators take turns, and one operand is left. -/
theorem exists_stacksFrom? (F : Folder α β) {expected : Bool} {ps : List (Part α)} (turns : Part.Alternate expected ps)
    {signs : List UnaryOp} (count : operands.length = ops.length + if expected then 0 else 1)
    (applied : expected = false → signs = []) :
    ∃ b, F.stacksFrom? signs operands ops ps = some ([], [b], []) ∧ F.foldFrom signs operands ops ps = some b := by
  induction ps generalizing expected signs operands ops with
  | nil =>
    cases turns
    obtain ⟨operands', ops', reduced, left, none⟩ := F.exists_reduce? 0 count
    obtain rfl := none rfl
    obtain ⟨b, rfl⟩ := List.length_eq_one_iff.1 left
    rw [applied rfl]
    refine ⟨b, ?_, ?_⟩
    · rw [stacksFrom?, reduced]
      rfl
    · rw [foldFrom, reduce_of_reduce? reduced]
      rfl
  | cons p ps ih =>
    cases p with
    | operand a =>
      obtain ⟨rfl, turns⟩ := turns
      exact ih turns (congrArg (· + 1) count) fun _ => rfl
    | unary op =>
      obtain ⟨rfl, turns⟩ := turns
      exact ih turns count fun ended => Bool.noConfusion ended
    | binary op =>
      obtain ⟨rfl, turns⟩ := turns
      obtain ⟨operands', ops', reduced, left, -⟩ := F.exists_reduce? op.precedence count
      have pushed : operands'.length = (op :: ops').length + if true then 0 else 1 := left
      rw [stacksFrom?, foldFrom, reduced, reduce_of_reduce? reduced]
      exact ih turns pushed fun ended => Bool.noConfusion ended

theorem exists_stacks? (F : Folder α β) {ps : List (Part α)} (turns : Part.Alternate true ps) :
    ∃ b, F.stacks? ps = some ([], [b], []) ∧ F.fold ps = some b :=
  F.exists_stacksFrom? turns rfl fun ended => Bool.noConfusion ended

end Folder

/-! ## The interpreter -/

namespace Task

variable {numeric : Bool}

/-- One step of the interpreter, when the stack holds all the values that it takes. -/
def step? (numeric : Bool) : Task → List Task → List Value → Option (Except FormulaError (List Task × List Value))
  | force (.leaf r), tasks, values => some (r.map fun v => (tasks, v :: values))
  | force (.unary op t), tasks, values => some (.ok (force t :: unary op :: tasks, values))
  | force (.binary op l r), tasks, values =>
    if op.isShortCircuit then some (.ok (force l :: decide op r :: tasks, values))
    else some (.ok (force l :: force r :: binary op :: tasks, values))
  | unary op, tasks, v :: values => some (.ok (tasks, op.apply v :: values))
  | binary op, tasks, r :: l :: values => some ((op.apply numeric l r).map fun v => (tasks, v :: values))
  | decide op right, tasks, l :: values =>
    match op.decided? numeric l with
    | some v => some (.ok (tasks, v :: values))
    | none => some (.ok (force right :: settle op :: tasks, values))
  | settle op, tasks, r :: values => some (.ok (tasks, op.settle numeric r :: values))
  | _, _, _ => none

/-- The tasks run to their outcome in steps that find all their values, and leave nothing but the result. -/
inductive Runs (numeric : Bool) : List Task → List Value → Outcome → Prop
  | ended {v : Value} : Runs numeric [] [v] (.ok v)
  | failed {t : Task} {tasks : List Task} {values : List Value} {e : FormulaError}
      (step : step? numeric t tasks values = some (.error e)) : Runs numeric (t :: tasks) values (.error e)
  | step {t : Task} {tasks tasks' : List Task} {values values' : List Value} {r : Outcome}
      (step : step? numeric t tasks values = some (.ok (tasks', values'))) (rest : Runs numeric tasks' values' r) :
      Runs numeric (t :: tasks) values r

/-- How many values a task takes, before it leaves one. -/
def taken : Task → Nat
  | force _ => 0
  | unary _ => 1
  | binary _ => 2
  | decide _ _ => 1
  | settle _ => 1

/-- So many values are enough for the tasks, and one is left behind them. -/
def Enough : List Task → (height : Nat) → Prop
  | [], height => height = 1
  | t :: tasks, height => t.taken ≤ height ∧ Enough tasks (height - t.taken + 1)

theorem runs_of_enough (tasks : List Task) (values : List Value) (enough : Enough tasks values.length) :
    Runs numeric tasks values (run numeric tasks values) := by
  fun_induction run numeric tasks values with
  | case1 values =>
    obtain ⟨v, rfl⟩ := List.length_eq_one_iff.1 enough
    exact .ended
  | case2 values tasks v ih => exact .step rfl (ih enough.2)
  | case3 values tasks e => exact .failed rfl
  | case4 values op t tasks ih => exact .step rfl (ih ⟨Nat.zero_le _, Nat.le_add_left _ _, enough.2⟩)
  | case5 values op l r tasks short ih =>
    exact .step (by rw [step?, if_pos short]) (ih ⟨Nat.zero_le _, Nat.le_add_left _ _, enough.2⟩)
  | case6 values op l r tasks strict ih =>
    exact .step (by rw [step?, if_neg strict]) (ih ⟨Nat.zero_le _, Nat.zero_le _, Nat.le_add_left _ _, enough.2⟩)
  | case7 values op tasks ih =>
    match values, enough with
    | v :: values, enough => exact .step rfl (ih enough.2)
  | case8 values op tasks v applied ih =>
    match values, enough with
    | r :: l :: values, enough =>
      have step : step? numeric (binary op) tasks (r :: l :: values) = some (.ok (tasks, v :: values)) :=
        congrArg (fun o : Outcome => some (o.map fun v => (tasks, v :: values))) applied
      exact .step step (ih enough.2)
  | case9 values op tasks e applied =>
    match values, enough with
    | r :: l :: values, enough =>
      exact .failed (congrArg (fun o : Outcome => some (o.map fun v => (tasks, v :: values))) applied)
  | case10 values op right tasks v decided ih =>
    match values, enough with
    | l :: values, enough =>
      have step : step? numeric (decide op right) tasks (l :: values) = some (.ok (tasks, v :: values)) := by
        rw [step?, show op.decided? numeric l = some v from decided]
      exact .step step (ih enough.2)
  | case11 values op right tasks undecided ih =>
    match values, enough with
    | l :: values, enough =>
      have step : step? numeric (decide op right) tasks (l :: values) =
          some (.ok (force right :: settle op :: tasks, values)) := by
        rw [step?, show op.decided? numeric l = none from undecided]
      exact .step step (ih ⟨Nat.zero_le _, Nat.le_add_left _ _, enough.2⟩)
  | case12 values op tasks ih =>
    match values, enough with
    | r :: values, enough => exact .step rfl (ih enough.2)

/-- The run that evaluates a tree finds all its values, and leaves one. -/
theorem runs_force (t : Tree Outcome) : Runs numeric [force t] [] (run numeric [force t] []) :=
  runs_of_enough _ _ ⟨Nat.zero_le _, rfl⟩

end Task

end ExactFormula
