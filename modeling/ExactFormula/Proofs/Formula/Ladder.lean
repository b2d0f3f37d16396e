import Mathlib.Data.List.Forall2
import ExactFormula.Proofs.Formula.Folding

/-!
Precedence as a ladder of passes over a whole row: first the operators in front of operands, then one
left-to-right scan for each class of operators, the tightest first. The single pass with two stacks, which knows
operators by their level, makes the same tree of every row in which operands and binary operators alternate, and the
tree holds the parts of the row in their order.
-/

namespace ExactFormula

variable {α β : Type}

/-! ## Rows and their parts -/

/-- An operand with the operators in front of it. -/
structure Signed (α : Type) where
  signs : List UnaryOp
  operand : α

/-- Operands with binary operators between them. -/
structure Row (α : Type) where
  first : Signed α
  rest : List (BinaryOp × Signed α)

def Signed.parts (s : Signed α) : List (Part α) := s.signs.map .unary ++ [.operand s.operand]

def Row.tailParts (rest : List (BinaryOp × Signed α)) : List (Part α) :=
  rest.flatMap fun (op, s) => .binary op :: s.parts

def Row.parts (row : Row α) : List (Part α) := row.first.parts ++ Row.tailParts row.rest

/-- The parts of a tree from left to right. -/
def Tree.parts : Tree α → List (Part α)
  | .leaf a => [.operand a]
  | .unary op t => .unary op :: t.parts
  | .binary op l r => l.parts ++ .binary op :: r.parts

/-! ## The ladder -/

namespace Folder

/-- Applies each operator in front of an operand to it, the innermost first. -/
def signPass (F : Folder α β) : List (Part α) → List (Part β)
  | [] => []
  | .operand a :: ps => .operand (F.leaf a) :: F.signPass ps
  | .binary op :: ps => .binary op :: F.signPass ps
  | .unary op :: ps =>
    match F.signPass ps with
    | .operand b :: qs => .operand (F.unary op b) :: qs
    | qs => .unary op :: qs

/-- Scans from left to right and folds every operator of the class with the operands beside it. -/
def classPass (F : Folder α β) (ops : List BinaryOp) : List (Part β) → List (Part β)
  | .operand l :: .binary op :: .operand r :: ps =>
    if op ∈ ops then F.classPass ops (.operand (F.binary op l r) :: ps)
    else .operand l :: .binary op :: F.classPass ops (.operand r :: ps)
  | p :: ps => p :: F.classPass ops ps
  | [] => []
termination_by ps => ps.length

/-- The classes of the binary operators, the tightest first. -/
def classes : List (List BinaryOp) :=
  [[.power], [.multiply, .divide, .modulo], [.add, .subtract], [.less, .lessEqual, .greater, .greaterEqual],
    [.equal, .notEqual], [.and], [.or, .coalesce]]

def ladder (F : Folder α β) (ps : List (Part α)) : List (Part β) :=
  classes.foldl (fun row ops => F.classPass ops row) (F.signPass ps)

/-! ## Passes keep the parts -/

end Folder

/-- The parts of a row of trees. -/
def Tree.partsAll (row : List (Part (Tree α))) : List (Part α) :=
  row.flatMap fun
    | .operand t => t.parts
    | .unary op => [.unary op]
    | .binary op => [.binary op]

@[simp] theorem Tree.partsAll_nil : Tree.partsAll ([] : List (Part (Tree α))) = [] := rfl

@[simp] theorem Tree.partsAll_operand (t : Tree α) (row : List (Part (Tree α))) :
    Tree.partsAll (.operand t :: row) = t.parts ++ Tree.partsAll row := rfl

@[simp] theorem Tree.partsAll_unary (op : UnaryOp) (row : List (Part (Tree α))) :
    Tree.partsAll (.unary op :: row) = .unary op :: Tree.partsAll row := rfl

@[simp] theorem Tree.partsAll_binary (op : BinaryOp) (row : List (Part (Tree α))) :
    Tree.partsAll (.binary op :: row) = .binary op :: Tree.partsAll row := rfl

namespace Folder

theorem partsAll_signPass (ps : List (Part α)) : Tree.partsAll (Tree.folder.signPass ps) = ps := by
  induction ps with
  | nil => rfl
  | cons p ps ih =>
    cases p with
    | operand a => simp [signPass, Tree.parts, ih]
    | binary op => simp [signPass, ih]
    | unary op =>
      simp only [signPass]
      split
      · rename_i t qs h
        rw [h] at ih
        simpa [Tree.parts] using ih
      · simp [ih]

theorem partsAll_classPass (ops : List BinaryOp) (row : List (Part (Tree α))) :
    Tree.partsAll (Tree.folder.classPass ops row) = Tree.partsAll row := by
  fun_induction classPass Tree.folder ops row with
  | case1 l op r ps h ih => rw [ih]; simp [Tree.parts]
  | case2 l op r ps h ih => simpa using ih
  | case3 p ps _ ih => cases p <;> simp [ih]
  | case4 => rfl

theorem partsAll_ladder (ps : List (Part α)) : Tree.partsAll (Tree.folder.ladder ps) = ps := by
  have climb (classes : List (List BinaryOp)) (row : List (Part (Tree α))) :
      Tree.partsAll (classes.foldl (fun row ops => Tree.folder.classPass ops row) row)
        = Tree.partsAll row := by
    induction classes generalizing row with
    | nil => rfl
    | cons ops classes ih => rw [List.foldl_cons, ih, partsAll_classPass]
  rw [ladder, climb, partsAll_signPass]

/-! ## Rows of results

Between the passes a row is a result and a list of operators with the results behind them.
-/

/-- The operators and results behind the first result. -/
def resultParts (row : List (BinaryOp × β)) : List (Part β) :=
  row.flatMap fun (op, b) => [.binary op, .operand b]

/-- The operators of the class are those of the level. -/
def OfLevel (ops : List BinaryOp) (level : Nat) : Prop := ∀ op, op ∈ ops ↔ op.precedence = level

/-- The levels of the binary operators, the tightest first. -/
def levels : List Nat := [7, 6, 5, 4, 3, 2, 1]

/-- Each class of the ladder has a level of its own. -/
theorem classes_levels : List.Forall₂ OfLevel classes levels := by
  refine .cons ?_ (.cons ?_ (.cons ?_ (.cons ?_ (.cons ?_ (.cons ?_ (.cons ?_ .nil)))))) <;> intro op <;> cases op <;>
    decide

/-- The scan of one level over a row of results. -/
def sweep (F : Folder α β) (level : Nat) : β → List (BinaryOp × β) → β × List (BinaryOp × β)
  | l, [] => (l, [])
  | l, (op, r) :: row =>
    if op.precedence = level then F.sweep level (F.binary op l r) row
    else (l, (op, (F.sweep level r row).1) :: (F.sweep level r row).2)

theorem classPass_resultParts (F : Folder α β) {ops : List BinaryOp} {level : Nat} (same : OfLevel ops level) (b : β)
    (row : List (BinaryOp × β)) : F.classPass ops (.operand b :: resultParts row)
      = .operand (F.sweep level b row).1 :: resultParts (F.sweep level b row).2 := by
  induction row generalizing b with
  | nil => simp [resultParts, sweep, classPass]
  | cons x row ih =>
    obtain ⟨op, r⟩ := x
    have here : resultParts ((op, r) :: row) = .binary op :: .operand r :: resultParts row := rfl
    rw [here, classPass, sweep]
    by_cases taken : op.precedence = level
    · rw [if_pos taken, if_pos ((same op).2 taken)]
      exact ih _
    · rw [if_neg taken, if_neg (mt (same op).1 taken), ih]
      rfl

/-- The scans of several levels, one after the other. -/
def climb (F : Folder α β) (levels : List Nat) (row : β × List (BinaryOp × β)) : β × List (BinaryOp × β) :=
  levels.foldl (fun row level => F.sweep level row.1 row.2) row

theorem foldl_classPass (F : Folder α β) {classes : List (List BinaryOp)} {levels : List Nat}
    (same : List.Forall₂ OfLevel classes levels) (row : β × List (BinaryOp × β)) :
    classes.foldl (fun row ops => F.classPass ops row) (.operand row.1 :: resultParts row.2)
      = .operand (F.climb levels row).1 :: resultParts (F.climb levels row).2 := by
  induction same generalizing row with
  | nil => rfl
  | cons first _ ih =>
    rw [List.foldl_cons, F.classPass_resultParts first]
    exact ih _

/-! ## One operator taken early

An operator may be applied before its level is scanned if everything to its left binds less tightly and
what follows it binds no more tightly.
-/

/-- The operator in front of the first result of a row is below the bound. -/
def FollowedBelow (bound : Nat) (row : List (BinaryOp × β)) : Prop :=
  ∀ x ∈ row.head?, x.1.precedence ≤ bound

inductive Contracts (F : Folder α β) (op : BinaryOp) :
    β × List (BinaryOp × β) → β × List (BinaryOp × β) → Prop
  | here {l r row} (h : FollowedBelow op.precedence row) :
    Contracts F op (l, (op, r) :: row) (F.binary op l r, row)
  | there {b before row row'} (h : before.precedence < op.precedence) (c : Contracts F op row row') :
    Contracts F op (b, (before, row.1) :: row.2) (b, (before, row'.1) :: row'.2)

theorem sweep_of_followedBelow (F : Folder α β) {level bound : Nat} (above : bound < level)
    {row : List (BinaryOp × β)} (h : FollowedBelow bound row) :
    ∃ row', FollowedBelow bound row' ∧ ∀ b, F.sweep level b row = (b, row') := by
  cases row with
  | nil => exact ⟨[], h, fun _ => rfl⟩
  | cons x row =>
    obtain ⟨op, r⟩ := x
    have low : op.precedence ≤ bound := h (op, r) rfl
    refine ⟨_, ?_, fun b => by rw [sweep, if_neg (by omega)]⟩
    rintro _ ⟨⟩
    exact low

theorem Contracts.sweep {F : Folder α β} {op : BinaryOp} {row row' : β × List (BinaryOp × β)} {level : Nat}
    (c : Contracts F op row row') (above : op.precedence < level) :
    Contracts F op (F.sweep level row.1 row.2) (F.sweep level row'.1 row'.2) := by
  induction c with
  | here h =>
    obtain ⟨row', h', eq⟩ := F.sweep_of_followedBelow above h
    simp only [Folder.sweep, eq, if_neg (Nat.ne_of_lt above)]
    exact .here h'
  | there h _ ih =>
    simp only [Folder.sweep, if_neg (Nat.ne_of_lt (Nat.lt_trans h above))]
    exact .there h ih

theorem Contracts.sweep_eq {F : Folder α β} {op : BinaryOp} {row row' : β × List (BinaryOp × β)}
    (c : Contracts F op row row') :
    F.sweep op.precedence row.1 row.2 = F.sweep op.precedence row'.1 row'.2 := by
  induction c with
  | here h => rw [Folder.sweep, if_pos rfl]
  | there h _ ih => simp only [Folder.sweep, if_neg (Nat.ne_of_lt h), ih]

theorem Contracts.climb_eq {F : Folder α β} {op : BinaryOp} {levels : List Nat}
    {row row' : β × List (BinaryOp × β)} (descending : levels.Pairwise (· > ·))
    (reached : op.precedence ∈ levels) (c : Contracts F op row row') :
    F.climb levels row = F.climb levels row' := by
  induction levels generalizing row row' with
  | nil => simp at reached
  | cons level levels ih =>
    rw [List.pairwise_cons] at descending
    rcases List.mem_cons.1 reached with rfl | later
    · exact congrArg (F.climb levels) c.sweep_eq
    · exact ih descending.2 later (c.sweep (descending.1 _ later))

theorem levels_descending : levels.Pairwise (· > ·) := by decide

theorem precedence_mem_levels (op : BinaryOp) : op.precedence ∈ levels := by cases op <;> decide

/-! ## The two stacks as a row

The operators that wait for their right side, the latest first, each with its left operand. They bind
more and more tightly towards the top.
-/

/-- The waiting operators as the front of a row. -/
def unstack : List (BinaryOp × β) → β × List (BinaryOp × β) → β × List (BinaryOp × β)
  | [], row => row
  | (op, l) :: waiting, row => unstack waiting (l, (op, row.1) :: row.2)

abbrev Tightening (waiting : List (BinaryOp × β)) : Prop :=
  waiting.Pairwise fun x y => y.1.precedence < x.1.precedence

theorem Contracts.unstack {F : Folder α β} {op : BinaryOp} {row row' : β × List (BinaryOp × β)}
    {waiting : List (BinaryOp × β)} (looser : ∀ x ∈ waiting, x.1.precedence < op.precedence)
    (c : Contracts F op row row') : Contracts F op (unstack waiting row) (unstack waiting row') := by
  induction waiting generalizing row row' with
  | nil => exact c
  | cons x waiting ih =>
    obtain ⟨before, l⟩ := x
    rw [List.forall_mem_cons] at looser
    exact ih looser.2 (.there looser.1 c)

/-- Taking the operators down to a level from the stacks does not change what the ladder makes of the
row. -/
theorem reduce_waiting (F : Folder α β) {level : Nat} {waiting row : List (BinaryOp × β)}
    (tight : Tightening waiting) (below : FollowedBelow level row) (b : β) :
    ∃ waiting' b',
      F.reduce level (b :: waiting.map (·.2)) (waiting.map (·.1))
        = (b' :: waiting'.map (·.2), waiting'.map (·.1))
      ∧ Tightening waiting' ∧ (∀ x ∈ waiting', x.1.precedence < level)
      ∧ F.climb levels (unstack waiting (b, row)) = F.climb levels (unstack waiting' (b', row)) := by
  induction waiting generalizing b with
  | nil => exact ⟨[], b, rfl, .nil, by simp, rfl⟩
  | cons x waiting ih =>
    obtain ⟨op, l⟩ := x
    obtain ⟨looser, tight'⟩ := List.pairwise_cons.1 tight
    by_cases h : level ≤ op.precedence
    · obtain ⟨waiting', b', reduced, kept⟩ := ih tight' (F.binary op l b)
      have early : Contracts F op (l, (op, b) :: row) (F.binary op l b, row) :=
        .here fun x hx => Nat.le_trans (below x hx) h
      refine ⟨waiting', b', ?_, kept.1, kept.2.1, ?_⟩
      · rw [← reduced, List.map_cons, List.map_cons, reduce, if_pos h, apply]
      · rw [← kept.2.2]
        exact (early.unstack looser).climb_eq levels_descending (precedence_mem_levels op)
    · refine ⟨(op, l) :: waiting, b, by rw [List.map_cons, List.map_cons, reduce, if_neg h], tight, ?_, rfl⟩
      intro y hy
      rcases List.mem_cons.1 hy with rfl | later
      · exact Nat.lt_of_not_le h
      · exact Nat.lt_trans (looser y later) (Nat.lt_of_not_le h)

/-! ## The pass with two stacks and the ladder agree -/

/-- What a folder makes of an operand with the operators in front of it. -/
def ofSigned (F : Folder α β) (s : Signed α) : β := s.signs.foldr F.unary (F.leaf s.operand)

def resultsOf (F : Folder α β) (rest : List (BinaryOp × Signed α)) : List (BinaryOp × β) :=
  rest.map fun (op, s) => (op, F.ofSigned s)

theorem foldFrom_signed (F : Folder α β) (s : Signed α) (signs : List UnaryOp) (bs : List β)
    (ops : List BinaryOp) (ps : List (Part α)) :
    F.foldFrom signs bs ops (s.parts ++ ps)
      = F.foldFrom [] (F.applySigns signs (F.ofSigned s) :: bs) ops ps := by
  obtain ⟨front, a⟩ := s
  induction front generalizing signs with
  | nil => rfl
  | cons op front ih => exact ih (op :: signs)

theorem climb_single (F : Folder α β) (levels : List Nat) (b : β) : F.climb levels (b, []) = (b, []) := by
  induction levels with
  | nil => rfl
  | cons level levels ih => exact ih

theorem foldFrom_tailParts (F : Folder α β) {waiting : List (BinaryOp × β)} (tight : Tightening waiting)
    (b : β) (rest : List (BinaryOp × Signed α)) :
    ∃ result,
      F.foldFrom [] (b :: waiting.map (·.2)) (waiting.map (·.1)) (Row.tailParts rest) = some result
      ∧ F.climb levels (unstack waiting (b, F.resultsOf rest)) = (result, []) := by
  induction rest generalizing waiting b with
  | nil =>
    have below : FollowedBelow 0 ([] : List (BinaryOp × β)) := by simp [FollowedBelow]
    obtain ⟨waiting', b', reduced, -, low, climbed⟩ := F.reduce_waiting tight below b
    obtain rfl : waiting' = [] :=
      List.eq_nil_iff_forall_not_mem.2 fun x hx => Nat.not_lt_zero _ (low x hx)
    refine ⟨b', ?_, ?_⟩
    · rw [Row.tailParts, List.flatMap_nil, foldFrom, reduced]
      rfl
    · exact climbed.trans (F.climb_single levels b')
  | cons x rest ih =>
    obtain ⟨op, s⟩ := x
    have below : FollowedBelow op.precedence (F.resultsOf ((op, s) :: rest)) := by
      rintro _ ⟨⟩
      exact Nat.le_refl _
    obtain ⟨waiting', b', reduced, tight', looser, climbed⟩ := F.reduce_waiting tight below b
    have pushed : Tightening ((op, b') :: waiting') := List.pairwise_cons.2 ⟨looser, tight'⟩
    obtain ⟨result, folded, climbed'⟩ := ih pushed (F.ofSigned s)
    refine ⟨result, ?_, climbed.trans climbed'⟩
    rw [Row.tailParts, List.flatMap_cons, List.cons_append, foldFrom, reduced]
    exact (F.foldFrom_signed s [] _ _ _).trans folded

theorem signPass_signed (F : Folder α β) (s : Signed α) (ps : List (Part α)) :
    F.signPass (s.parts ++ ps) = .operand (F.ofSigned s) :: F.signPass ps := by
  obtain ⟨front, a⟩ := s
  induction front with
  | nil => rfl
  | cons op front ih =>
    have next : F.signPass (Signed.parts ⟨op :: front, a⟩ ++ ps)
        = match F.signPass (Signed.parts ⟨front, a⟩ ++ ps) with
          | .operand b :: qs => .operand (F.unary op b) :: qs
          | qs => .unary op :: qs := rfl
    rw [next, ih]
    rfl

theorem signPass_tailParts (F : Folder α β) (rest : List (BinaryOp × Signed α)) :
    F.signPass (Row.tailParts rest) = resultParts (F.resultsOf rest) := by
  induction rest with
  | nil => rfl
  | cons x rest ih =>
    obtain ⟨op, s⟩ := x
    rw [Row.tailParts, List.flatMap_cons, List.cons_append, signPass, signPass_signed]
    exact congrArg (fun row => Part.binary op :: Part.operand (F.ofSigned s) :: row) ih

theorem ladder_row (F : Folder α β) (row : Row α) :
    F.ladder row.parts
      = .operand (F.climb levels (F.ofSigned row.first, F.resultsOf row.rest)).1
        :: resultParts (F.climb levels (F.ofSigned row.first, F.resultsOf row.rest)).2 := by
  rw [ladder, Row.parts, signPass_signed, signPass_tailParts]
  exact F.foldl_classPass classes_levels (F.ofSigned row.first, F.resultsOf row.rest)

theorem exists_fold_row (F : Folder α β) (row : Row α) :
    ∃ result, F.fold row.parts = some result ∧ F.ladder row.parts = [.operand result] := by
  have nothing : Tightening ([] : List (BinaryOp × β)) := .nil
  obtain ⟨result, folded, climbed⟩ := F.foldFrom_tailParts nothing (F.ofSigned row.first) row.rest
  refine ⟨result, (F.foldFrom_signed row.first [] [] [] _).trans folded, ?_⟩
  rw [unstack] at climbed
  rw [ladder_row, climbed]
  rfl

/-- On every row the pass with two stacks and the ladder of passes make the same of one tree, and the
parts of that tree are the row. -/
theorem fold_row_eq_ladder (F : Folder α β) (row : Row α) :
    ∃ t : Tree α, t.parts = row.parts ∧ Tree.ofParts row.parts = some t
      ∧ F.fold row.parts = some (F.ofTree t) ∧ F.ladder row.parts = [.operand (F.ofTree t)] := by
  obtain ⟨t, ofParts, ladder⟩ := Tree.folder.exists_fold_row row
  obtain ⟨result, fold, ladder'⟩ := F.exists_fold_row row
  have parts := partsAll_ladder row.parts
  have made := F.fold_eq_map_ofTree row.parts
  rw [Tree.ofParts, ofParts, fold, Option.map_some, Option.some.injEq] at made
  rw [ladder, Tree.partsAll_operand, Tree.partsAll_nil, List.append_nil] at parts
  subst made
  exact ⟨t, parts, ofParts, fold, ladder'⟩

end Folder

end ExactFormula
