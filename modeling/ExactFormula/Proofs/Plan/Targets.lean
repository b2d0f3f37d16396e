import ExactFormula.Proofs.Plan.Ranges

/-!
Code whose jumps name the place they lead to. It can be written out from a stack of work, where a jump is aimed once the
code of its right side is there. What comes of a tree is the code of its plan, each jump leads forward and into the
code or behind its end, and a machine that goes from place to place comes to the same outcome as the plan.
-/

namespace ExactFormula

/-- The instruction at the place, when a jump names where it leads to and not how much it skips. -/
def Instr.aimed (place : Nat) : Instr → Instr
  | shortCircuit op skip => shortCircuit op (place + 1 + skip)
  | i => i

/-- A jump with another target. -/
def Instr.retarget (target : Nat) : Instr → Instr
  | shortCircuit op _ => shortCircuit op target
  | i => i

namespace Plan

/-- Code that stands from the place on, with its jumps aimed. -/
def aimed (start : Nat) (code : List Instr) : List Instr := code.mapIdx fun k i => i.aimed (start + k)

theorem length_aimed (start : Nat) (code : List Instr) : (aimed start code).length = code.length := List.length_mapIdx

theorem aimed_append (start : Nat) (code rest : List Instr) :
    aimed start (code ++ rest) = aimed start code ++ aimed (start + code.length) rest := by
  have swap (k : Nat) : start + (k + code.length) = start + code.length + k := by omega
  rw [aimed, List.mapIdx_append]
  simp only [aimed, swap]

/-! ## Writing code -/

/-- A step of writing a tree that is still to be made. -/
inductive Pending
  | visit (n : Node)
  | push (i : Instr)
  /-- The left side is written; what is to follow is the jump and the right side. -/
  | jump (op : BinaryOp) (right : Node)
  /-- The jump at the place leads to the end of what is written. -/
  | patch (place : Nat)

/-- What is written of a plan. -/
structure Listing where
  code : List Instr := []
  constants : List Value := []

def Listing.push (l : Listing) (i : Instr) : Listing := { l with code := l.code ++ [i] }

theorem Listing.constants_push (l : Listing) (i : Instr) : (l.push i).constants = l.constants := rfl

/-- What a step adds to the work, and what is written after it. -/
def Pending.step (l : Listing) : Pending → List Pending × Listing
  | visit (.const v) => ([], ⟨l.code ++ [.const l.constants.length], l.constants ++ [v]⟩)
  | visit (.load i) => ([], l.push (.load i))
  | visit (.call f args) => (args.map visit ++ [push (.call f args.length)], l)
  | visit (.tree i) => ([], l.push (.tree i))
  | visit (.unary op n) => ([visit n, push (.unary op)], l)
  | visit (.binary op left right) =>
    if op.isShortCircuit then ([visit left, jump op right], l) else ([visit left, visit right, push (.binary op)], l)
  | push i => ([], l.push i)
  | jump op right => ([visit right, push (.settle op), patch l.code.length], l.push (.shortCircuit op 0))
  | patch place => ([], { l with code := l.code.modify place (Instr.retarget l.code.length) })

mutual
def Node.weight : Node → Nat
  | .const _ | .load _ | .tree _ => 1
  | .call _ args => Node.weights args + 2
  | .unary _ n => n.weight + 2
  | .binary _ left right => left.weight + right.weight + 4

def Node.weights : List Node → Nat
  | [] => 0
  | n :: ns => n.weight + Node.weights ns
end

/-- How many steps there are at most until the step is made with all that it adds. -/
def Pending.weight : Pending → Nat
  | visit n => n.weight
  | push _ | patch _ => 1
  | jump _ right => right.weight + 3

def Pending.weights : List Pending → Nat
  | [] => 0
  | task :: work => task.weight + weights work

theorem Pending.weights_append (work more : List Pending) : weights (work ++ more) = weights work + weights more := by
  induction work with
  | nil => rw [List.nil_append, weights, Nat.zero_add]
  | cons task work ih => rw [List.cons_append, weights, ih, weights, Nat.add_assoc]

theorem Pending.weights_visits (ns : List Node) : weights (ns.map visit) = Node.weights ns := by
  induction ns with
  | nil => rfl
  | cons n ns ih => rw [List.map_cons, weights, ih, Node.weights, weight]

theorem Pending.weights_step (l : Listing) (task : Pending) : weights (task.step l).1 < task.weight := by
  cases task with
  | visit n =>
    cases n with
    | const | load | tree => simp [step, weights, weight, Node.weight]
    | call f args =>
      rw [step, weights_append, weights_visits]
      simp [weights, weight, Node.weight]
    | unary op n => simp [step, weights, weight, Node.weight]
    | binary op left right =>
      rw [step]
      split <;> simp [weights, weight, Node.weight] <;> omega
  | push | patch => simp [step, weights, weight]
  | jump op right =>
    simp [step, weights, weight]

/-- Makes all the steps, those that a step adds first. -/
def assemble (l : Listing) : List Pending → Listing
  | [] => l
  | task :: work => assemble (task.step l).2 ((task.step l).1 ++ work)
termination_by work => Pending.weights work
decreasing_by
  rw [Pending.weights_append]
  exact Nat.add_lt_add_right (Pending.weights_step l task) _

/-! ## The code of a tree -/

/-- With code behind what is written, its jumps aimed, and with constants. -/
def Listing.add (l : Listing) (written : List Instr × List Value) : Listing :=
  ⟨l.code ++ aimed l.code.length written.1, l.constants ++ written.2⟩

theorem Listing.add_add (l : Listing) (first later : List Instr × List Value) :
    (l.add first).add later = l.add (first.1 ++ later.1, first.2 ++ later.2) := by
  simp only [add, List.length_append, length_aimed, aimed_append, List.append_assoc]

theorem Listing.length_constants_add (l : Listing) (written : List Instr × List Value) :
    (l.add written).constants.length = l.constants.length + written.2.length := List.length_append

theorem Listing.push_eq_add (l : Listing) {i : Instr} (plain : ∀ place, i.aimed place = i) :
    l.push i = l.add ([i], []) := by
  rw [push, add, aimed, List.mapIdx_singleton, plain, List.append_nil]

theorem assemble_push (i : Instr) (plain : ∀ place, i.aimed place = i) (l : Listing) (work : List Pending) :
    assemble l (.push i :: work) = assemble (l.add ([i], [])) work := by
  rw [assemble, ← l.push_eq_add plain]
  rfl

theorem assemble_jump (l : Listing) (op : BinaryOp) (right : Node) (work : List Pending) :
    assemble l (.jump op right :: work) =
      assemble (l.push (.shortCircuit op 0)) (.visit right :: .push (.settle op) :: .patch l.code.length :: work) := by
  rw [assemble]
  rfl

/-- The jump is there and its right side is written: patched, it leads behind that. -/
theorem assemble_patch (l : Listing) (op : BinaryOp) (right : List Instr × List Value) (work : List Pending) :
    assemble (((l.push (.shortCircuit op 0)).add right).add ([.settle op], [])) (.patch l.code.length :: work) =
      assemble (l.add (.shortCircuit op (right.1.length + 1) :: (right.1 ++ [.settle op]), right.2)) work := by
  have written : ((l.push (.shortCircuit op 0)).add right).add ([.settle op], []) =
      ⟨l.code ++ .shortCircuit op 0 :: aimed (l.code.length + 1) (right.1 ++ [.settle op]),
        l.constants ++ right.2⟩ := by
    rw [Listing.add_add, List.append_nil, Listing.push, Listing.add, List.length_append, List.append_assoc]
    rfl
  have modified (target : Nat) (code : List Instr) : (l.code ++ Instr.shortCircuit op 0 :: code).modify l.code.length
      (Instr.retarget target) = l.code ++ .shortCircuit op target :: code := by
    rw [List.modify_eq_take_drop, List.take_left, List.drop_left]
    rfl
  have length : (l.code ++ Instr.shortCircuit op 0 :: aimed (l.code.length + 1) (right.1 ++ [.settle op])).length =
      l.code.length + 1 + (right.1.length + 1) := by
    rw [List.length_append, List.length_cons, length_aimed, List.length_append, List.length_singleton]
    omega
  have jumps : aimed l.code.length ([.shortCircuit op (right.1.length + 1)] ++ (right.1 ++ [.settle op])) =
      .shortCircuit op (l.code.length + 1 + (right.1.length + 1)) ::
        aimed (l.code.length + 1) (right.1 ++ [.settle op]) := aimed_append _ _ _
  rw [assemble, Pending.step, List.nil_append, written, length, modified, ← jumps]
  rfl

mutual
/-- Visiting a tree writes its code, whatever work is left. -/
theorem assemble_visit : (n : Node) → (l : Listing) → (work : List Pending) →
    assemble l (.visit n :: work) = assemble (l.add (n.emit l.constants.length)) work
  | .const v, l, work => by
    rw [assemble]
    rfl
  | .load i, l, work => by
    rw [assemble, Node.emit, ← l.push_eq_add fun _ => rfl]
    rfl
  | .call f args, l, work => by
    have opened : assemble l (.visit (.call f args) :: work) =
        assemble l (args.map .visit ++ .push (.call f args.length) :: work) := by
      rw [assemble, Pending.step, List.append_assoc]
      rfl
    rw [opened, assemble_visits args, assemble_push _ fun _ => rfl, Listing.add_add, List.append_nil, Node.emit]
  | .tree i, l, work => by
    rw [assemble, Node.emit, ← l.push_eq_add fun _ => rfl]
    rfl
  | .unary op n, l, work => by
    have opened : assemble l (.visit (.unary op n) :: work) = assemble l (.visit n :: .push (.unary op) :: work) := by
      rw [assemble]
      rfl
    rw [opened, assemble_visit n, assemble_push _ fun _ => rfl, Listing.add_add, List.append_nil, Node.emit]
  | .binary op left right, l, work => by
    by_cases jumps : op.isShortCircuit
    · have opened : assemble l (.visit (.binary op left right) :: work) =
          assemble l (.visit left :: .jump op right :: work) := by
        rw [assemble, Pending.step, if_pos jumps]
        rfl
      simp only [Node.emit, if_pos jumps]
      rw [opened, assemble_visit left, assemble_jump, assemble_visit right, assemble_push _ fun _ => rfl,
        assemble_patch, Listing.add_add, Listing.constants_push, Listing.length_constants_add]
    · have opened : assemble l (.visit (.binary op left right) :: work) =
          assemble l (.visit left :: .visit right :: .push (.binary op) :: work) := by
        rw [assemble, Pending.step, if_neg jumps]
        rfl
      simp only [Node.emit, if_neg jumps]
      rw [opened, assemble_visit left, assemble_visit right, assemble_push _ fun _ => rfl, Listing.add_add,
        Listing.add_add, List.append_nil, List.append_assoc, Listing.length_constants_add]

theorem assemble_visits : (ns : List Node) → (l : Listing) → (work : List Pending) →
    assemble l (ns.map .visit ++ work) = assemble (l.add (Node.emitAll l.constants.length ns)) work
  | [], l, work => by
    have same : l.add ([], []) = l := by rw [Listing.add, aimed, List.mapIdx_nil, List.append_nil, List.append_nil]
    rw [Node.emitAll, same]
    rfl
  | n :: ns, l, work => by
    rw [List.map_cons, List.cons_append, assemble_visit n, assemble_visits ns, Listing.add_add,
      Listing.length_constants_add, Node.emitAll]
end

theorem assemble_tree (n : Node) : assemble {} [.visit n] = ⟨aimed 0 (n.emit 0).1, (n.emit 0).2⟩ := by
  rw [assemble_visit, assemble]
  rfl

/-! ## From place to place -/

variable {τ : Type} (p : Plan τ) (ctx : Context) (trees : List Outcome)

/-- What the instruction at a place makes of the stack, and the place to go on from. -/
def stepFrom (place : Nat) (stack : List Value) : Instr → Except FormulaError (List Value × Nat)
  | .shortCircuit op target =>
    match op.decided? p.numeric (stack.headD .null) with
    | some v => .ok (v :: stack.tail, target)
    | none => .ok (stack.tail, place + 1)
  | i => (p.step ctx trees stack i).map fun next => (next.1, place + 1)

/-- From the place on, the machine comes to the outcome. -/
inductive ComesTo (code : List Instr) : (place : Nat) → List Value → Outcome → Prop
  | ended {place : Nat} (stack : List Value) (behind : code.length ≤ place) :
    ComesTo code place stack (.ok (stack.headD .null))
  | failed {place : Nat} {stack : List Value} {i : Instr} {e : FormulaError} (here : code[place]? = some i)
    (step : p.stepFrom ctx trees place stack i = .error e) : ComesTo code place stack (.error e)
  | step {place place' : Nat} {stack stack' : List Value} {i : Instr} {r : Outcome} (here : code[place]? = some i)
    (step : p.stepFrom ctx trees place stack i = .ok (stack', place')) (rest : ComesTo code place' stack' r) :
    ComesTo code place stack r

variable {p ctx trees}

theorem ComesTo.unique {code : List Instr} {place : Nat} {stack : List Value} {r r' : Outcome}
    (h : p.ComesTo ctx trees code place stack r) (h' : p.ComesTo ctx trees code place stack r') : r = r' := by
  induction h with
  | ended stack behind =>
    cases h' with
    | ended => rfl
    | failed here | step here => rw [List.getElem?_eq_none behind] at here; cases here
  | failed here step =>
    cases h' with
    | ended _ behind => rw [List.getElem?_eq_none behind] at here; cases here
    | failed here' step' =>
      cases here.symm.trans here'
      exact congrArg Except.error (Except.error.inj (step.symm.trans step'))
    | step here' step' =>
      cases here.symm.trans here'
      cases step.symm.trans step'
  | step here step _ ih =>
    cases h' with
    | ended _ behind => rw [List.getElem?_eq_none behind] at here; cases here
    | failed here' step' =>
      cases here.symm.trans here'
      cases step.symm.trans step'
    | step here' step' rest =>
      cases here.symm.trans here'
      cases step.symm.trans step'
      exact ih rest

/-- An aimed jump leads to where the jump lands. -/
theorem stepFrom_aimed (place : Nat) (stack : List Value) (i : Instr) :
    p.stepFrom ctx trees place stack (i.aimed place) =
      (p.step ctx trees stack i).map fun next => (next.1, place + 1 + next.2) := by
  have pushed (r : Outcome) (stack : List Value) :
      (r >>= fun v => (return (v :: stack, 0) : Except FormulaError (List Value × Nat))).map
          (fun next => (next.1, place + 1)) =
        (r >>= fun v => return (v :: stack, 0)).map fun next => (next.1, place + 1 + next.2) := by
    cases r <;> rfl
  cases i with
  | shortCircuit op skip =>
    simp only [Instr.aimed, stepFrom, step]
    cases op.decided? p.numeric (stack.headD .null) <;> rfl
  | const | unary | settle => rfl
  | load | call | tree | binary => exact pushed _ _

/-- From every place, the machine comes to the outcome of the code that is left. -/
theorem comesTo_aimed (p : Plan τ) (ctx : Context) (trees : List Outcome) (place : Nat) (stack : List Value) :
    p.ComesTo ctx trees (aimed 0 p.code) place stack (p.runFrom ctx trees 0 stack (p.code.drop place)) := by
  by_cases inside : place < p.code.length
  · have here : (aimed 0 p.code)[place]? = some (p.code[place].aimed place) := by
      rw [aimed, List.getElem?_mapIdx, List.getElem?_eq_getElem inside, Nat.zero_add]
      rfl
    have stepped := @stepFrom_aimed τ p ctx trees place stack p.code[place]
    rw [List.drop_eq_getElem_cons inside, runFrom_cons]
    cases made : p.step ctx trees stack p.code[place] with
    | error e =>
      rw [made] at stepped
      exact .failed here stepped
    | ok next =>
      rw [made] at stepped
      have rest := comesTo_aimed p ctx trees (place + 1 + next.2) next.1
      rw [← List.drop_drop, ← runFrom_drop] at rest
      exact .step here stepped rest
  · have behind : p.code.length ≤ place := Nat.le_of_not_lt inside
    rw [List.drop_eq_nil_of_le behind]
    exact .ended stack (by rwa [length_aimed])
termination_by p.code.length - place

/-! ## Plans -/

theorem exists_skip {code : List Instr} {place target : Nat} {op : BinaryOp}
    (here : (aimed 0 code)[place]? = some (.shortCircuit op target)) :
    ∃ skip, target = place + 1 + skip ∧ code[place]? = some (.shortCircuit op skip) := by
  rw [aimed, List.getElem?_mapIdx, Nat.zero_add] at here
  obtain ⟨i, found, aims⟩ := Option.map_eq_some_iff.1 here
  cases i with
  | shortCircuit op skip =>
    cases aims
    exact ⟨skip, rfl, found⟩
  | _ => cases aims

/-- The tree of a plan, written out from a stack of work, gives the code of the plan with its jumps aimed: all lead
forward and into the code or behind its end, and a machine that follows them comes to what the plan does. -/
structure Aims (p : Plan Literal) (root : Node) : Prop where
  written : assemble {} [.visit root] = ⟨aimed 0 p.code, p.constants⟩
  forward : ∀ place op target, (aimed 0 p.code)[place]? = some (.shortCircuit op target) →
    place < target ∧ target ≤ (aimed 0 p.code).length
  runs : ∀ ctx r, p.ComesTo ctx (Literal.evaluateAll ctx p.trees) (aimed 0 p.code) 0 [] r ↔
    r = p.run ctx (Literal.evaluateAll ctx p.trees)

theorem exists_aims {numeric : Bool} {parts : List (Part Operand)} {p : Plan Literal}
    (made : ofParts? numeric parts = some p) : ∃ root, p.Aims root := by
  have supplied := supplied_of_ofParts? made
  obtain ⟨⟨⟨root, depth⟩, T⟩, -, emitted⟩ := Option.bind_eq_some_iff.1 made
  cases emitted
  exact ⟨root, {
    written := assemble_tree root
    forward := fun place op target here => by
      obtain ⟨skip, rfl, found⟩ := exists_skip here
      rw [length_aimed]
      exact supplied.lands place op skip found
    runs := fun ctx r => by
      have runs := comesTo_aimed ⟨(root.emit 0).1, (root.emit 0).2, T.references, T.functions, T.trees, numeric⟩ ctx
        (Literal.evaluateAll ctx T.trees) 0 []
      exact ⟨fun comes => comes.unique runs, fun same => same ▸ runs⟩ }⟩

end Plan

end ExactFormula
