import ExactFormula.Proofs.Formula.Ladder
import ExactFormula.Proofs.Reading.Built

/-!
A row in which operands and binary operators take turns is operands with signs in front and operators between.
It has a tree, and the tree holds the parts of the row in their order.
-/

namespace ExactFormula

variable {α : Type}

theorem Part.exists_row_of_alternate {ps : List (Part α)} :
    (Part.Alternate true ps → ∃ row : Row α, ps = row.parts) ∧
      (Part.Alternate false ps → ∃ rest : List (BinaryOp × Signed α), ps = Row.tailParts rest) := by
  induction ps with
  | nil => exact ⟨nofun, fun _ => ⟨[], rfl⟩⟩
  | cons p ps ih =>
    refine ⟨fun turns => ?_, fun turns => ?_⟩
    · cases p with
      | operand a =>
        obtain ⟨rest, rfl⟩ := ih.2 turns.2
        exact ⟨⟨⟨[], a⟩, rest⟩, rfl⟩
      | unary op =>
        obtain ⟨⟨⟨signs, a⟩, rest⟩, rfl⟩ := ih.1 turns.2
        exact ⟨⟨⟨op :: signs, a⟩, rest⟩, rfl⟩
      | binary op => cases turns.1
    · cases p with
      | operand a => cases turns.1
      | unary op => cases turns.1
      | binary op =>
        obtain ⟨⟨first, rest⟩, rfl⟩ := ih.1 turns.2
        exact ⟨(op, first) :: rest, rfl⟩

theorem Signed.alternate_append (s : Signed α) {ps : List (Part α)} (turns : Part.Alternate false ps) :
    Part.Alternate true (s.parts ++ ps) := by
  obtain ⟨signs, a⟩ := s
  induction signs with
  | nil => exact ⟨rfl, turns⟩
  | cons op signs ih => exact ⟨rfl, ih⟩

theorem Row.alternate_tailParts (rest : List (BinaryOp × Signed α)) : Part.Alternate false (Row.tailParts rest) := by
  induction rest with
  | nil => rfl
  | cons tail rest ih => exact ⟨rfl, tail.2.alternate_append ih⟩

theorem Row.alternate_parts (row : Row α) : Part.Alternate true row.parts :=
  row.first.alternate_append (Row.alternate_tailParts row.rest)

theorem Tree.exists_of_alternate {ps : List (Part α)} (turns : Part.Alternate true ps) :
    ∃ t, Tree.ofParts ps = some t ∧ t.parts = ps := by
  obtain ⟨row, rfl⟩ := Part.exists_row_of_alternate.1 turns
  obtain ⟨t, made, ladder⟩ := Tree.folder.exists_fold_row row
  have parts := Folder.partsAll_ladder row.parts
  rw [ladder, Tree.partsAll_operand, Tree.partsAll_nil, List.append_nil] at parts
  exact ⟨t, made, parts⟩

end ExactFormula
