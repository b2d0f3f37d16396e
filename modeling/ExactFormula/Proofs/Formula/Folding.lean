import ExactFormula.Formula.Tree

/-!
What a folder makes of a row of parts is what it makes of the tree of that row. The pass with two
stacks moves results about and never looks into them.
-/

namespace ExactFormula

variable {α β γ : Type}

/-- What a folder makes of a tree. -/
def Folder.ofTree (F : Folder α β) : Tree α → β
  | .leaf a => F.leaf a
  | .unary op t => F.unary op (F.ofTree t)
  | .binary op l r => F.binary op (F.ofTree l) (F.ofTree r)

def Tree.map (f : α → γ) : Tree α → Tree γ
  | .leaf a => .leaf (f a)
  | .unary op t => .unary op (t.map f)
  | .binary op l r => .binary op (l.map f) (r.map f)

def Part.map (f : α → γ) : Part α → Part γ
  | .operand a => .operand (f a)
  | .unary op => .unary op
  | .binary op => .binary op

@[simp] theorem Tree.folder_leaf (a : α) : Tree.folder.leaf a = .leaf a := rfl

@[simp] theorem Tree.folder_unary (op : UnaryOp) (t : Tree α) : Tree.folder.unary op t = .unary op t := rfl

@[simp] theorem Tree.folder_binary (op : BinaryOp) (l r : Tree α) :
    Tree.folder.binary op l r = .binary op l r := rfl

theorem Tree.ofTree_folder (t : Tree α) : Tree.folder.ofTree t = t := by
  induction t with
  | leaf a => rfl
  | unary op t ih => simp [Folder.ofTree, ih]
  | binary op l r ihl ihr => simp [Folder.ofTree, ihl, ihr]

namespace Folder

/-! ## A folder and the tree of the row -/

variable (F : Folder α β)

theorem apply_map_ofTree (op : BinaryOp) (ts : List (Tree α)) :
    F.apply op (ts.map F.ofTree) = (Tree.folder.apply op ts).map F.ofTree := by
  match ts with
  | [] | [_] => rfl
  | _ :: _ :: _ => rfl

theorem reduce_map_ofTree (level : Nat) (ts : List (Tree α)) (ops : List BinaryOp) :
    F.reduce level (ts.map F.ofTree) ops
      = ((Tree.folder.reduce level ts ops).1.map F.ofTree, (Tree.folder.reduce level ts ops).2) := by
  induction ops generalizing ts with
  | nil => rfl
  | cons op ops ih =>
    simp only [reduce]
    split
    · rw [apply_map_ofTree, ih]
    · rfl

theorem applySigns_ofTree (signs : List UnaryOp) (t : Tree α) :
    F.applySigns signs (F.ofTree t) = F.ofTree (Tree.folder.applySigns signs t) := by
  induction signs generalizing t with
  | nil => rfl
  | cons op signs ih => exact ih (.unary op t)

theorem foldFrom_map_ofTree (signs : List UnaryOp) (ts : List (Tree α)) (ops : List BinaryOp)
    (ps : List (Part α)) :
    F.foldFrom signs (ts.map F.ofTree) ops ps = (Tree.folder.foldFrom signs ts ops ps).map F.ofTree := by
  induction ps generalizing signs ts ops with
  | nil => simp [foldFrom, reduce_map_ofTree]
  | cons p ps ih =>
    cases p with
    | operand a =>
      have signed := F.applySigns_ofTree signs (.leaf a)
      rw [ofTree] at signed
      rw [foldFrom, signed]
      exact ih [] (_ :: ts) ops
    | unary op => exact ih (op :: signs) ts ops
    | binary op => simp only [foldFrom, reduce_map_ofTree, ih]

theorem fold_eq_map_ofTree (ps : List (Part α)) : F.fold ps = (Tree.ofParts ps).map F.ofTree :=
  F.foldFrom_map_ofTree [] [] [] ps

/-! ## Operands replaced -/

/-- The folder that first replaces every operand. -/
def comap (f : γ → α) : Folder γ β := ⟨fun c => F.leaf (f c), F.unary, F.binary⟩

theorem reduce_comap (f : γ → α) (level : Nat) (bs : List β) (ops : List BinaryOp) :
    (F.comap f).reduce level bs ops = F.reduce level bs ops := by
  induction ops generalizing bs with
  | nil => rfl
  | cons op ops ih =>
    simp only [reduce]
    split
    · exact ih _
    · rfl

theorem foldFrom_map_part (f : γ → α) (signs : List UnaryOp) (bs : List β) (ops : List BinaryOp)
    (ps : List (Part γ)) :
    F.foldFrom signs bs ops (ps.map (Part.map f)) = (F.comap f).foldFrom signs bs ops ps := by
  induction ps generalizing signs bs ops with
  | nil => simp [foldFrom, reduce_comap]
  | cons p ps ih =>
    cases p with
    | operand a => exact ih [] _ ops
    | unary op => exact ih (op :: signs) bs ops
    | binary op => simp only [List.map_cons, Part.map, foldFrom, reduce_comap, ih]

theorem comap_ofTree (f : γ → α) (t : Tree γ) : (F.comap f).ofTree t = F.ofTree (t.map f) := by
  induction t with
  | leaf c => rfl
  | unary op t ih => simp only [ofTree, Tree.map, ← ih]; rfl
  | binary op l r ihl ihr => simp only [ofTree, Tree.map, ← ihl, ← ihr]; rfl

theorem fold_map_part (f : γ → α) (ps : List (Part γ)) :
    F.fold (ps.map (Part.map f)) = (Tree.ofParts ps).map fun t => F.ofTree (t.map f) := by
  have folded := (F.comap f).fold_eq_map_ofTree ps
  rw [funext (F.comap_ofTree f)] at folded
  rw [fold, foldFrom_map_part, ← folded, fold]

end Folder

end ExactFormula
