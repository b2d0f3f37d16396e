import Mathlib.Algebra.Group.Nat.Defs
import ExactFormula.Decimal.Text
import ExactFormula.Proofs.Json.Number

/-!
The number that a row of decimal digits writes, and the digits that are written for a number.
-/

namespace ExactFormula.Decimal

open Json (Digits)

abbrev digitValue (ds : List Char) : Nat := Nat.ofDigitChars 10 ds 0

variable {ds : List Char}

theorem digitValue_append (xs ys : List Char) :
    digitValue (xs ++ ys) = 10 ^ ys.length * digitValue xs + digitValue ys := by
  rw [digitValue, Nat.ofDigitChars_append, Nat.ofDigitChars_eq_ofDigitChars_zero]

theorem digitValue_digitChar {n : Nat} (h : n < 10) : digitValue [Nat.digitChar n] = n := by
  rw [digitValue, Nat.ofDigitChars_cons, Nat.ofDigitChars_nil]
  simpa using Nat.toNat_digitChar_sub_48_of_lt_ten h

theorem isDigit_digitChar {n : Nat} (h : n < 10) : (Nat.digitChar n).isDigit = true := by
  rw [Nat.isDigit_digitChar, decide_eq_true h]

/-! ## Zeros -/

theorem digitValue_zeros (k : Nat) : digitValue (List.replicate k '0') = 0 := by
  induction k with
  | zero => rfl
  | succ k ih =>
    rw [List.replicate_succ, digitValue, Nat.ofDigitChars_cons]
    exact ih

theorem exists_leadingZeros (ds : List Char) : ∃ k, ds = List.replicate k '0' ++ ds.dropWhile (· == '0') := by
  refine ⟨(ds.takeWhile (· == '0')).length, ?_⟩
  have zeros : ds.takeWhile (· == '0') = List.replicate (ds.takeWhile (· == '0')).length '0' := by
    rw [List.eq_replicate_iff]
    exact ⟨rfl, fun c mem => beq_iff_eq.1 (List.all_eq_true.1 List.all_takeWhile c mem)⟩
  rw [← zeros, List.takeWhile_append_dropWhile]

theorem digitValue_dropZeros (ds : List Char) : digitValue (ds.dropWhile (· == '0')) = digitValue ds := by
  obtain ⟨k, split⟩ := exists_leadingZeros ds
  have whole := congrArg digitValue split
  rw [digitValue_append, digitValue_zeros, Nat.mul_zero, Nat.zero_add] at whole
  exact whole.symm

theorem exists_trailingZeros (ds : List Char) : ∃ k, ds = trimZeros ds ++ List.replicate k '0' := by
  obtain ⟨k, split⟩ := exists_leadingZeros ds.reverse
  refine ⟨k, ?_⟩
  have turned := congrArg List.reverse split
  rwa [List.reverse_reverse, List.reverse_append, List.reverse_replicate] at turned

/-- Digits without their last zeros are worth as much less as there were zeros. -/
theorem digitValue_trimZeros (ds : List Char) : (trimZeros ds).length ≤ ds.length ∧
    digitValue (trimZeros ds) * 10 ^ (ds.length - (trimZeros ds).length) = digitValue ds := by
  obtain ⟨k, split⟩ := exists_trailingZeros ds
  have length := congrArg List.length split
  have value := congrArg digitValue split
  rw [List.length_append, List.length_replicate] at length
  rw [digitValue_append, digitValue_zeros, List.length_replicate, Nat.add_zero, Nat.mul_comm] at value
  refine ⟨by omega, ?_⟩
  rw [value, length, Nat.add_sub_cancel_left]

/-! ## Written digits -/

theorem length_fixedDigits (count n : Nat) : (fixedDigits count n).length = count := by
  induction count generalizing n with
  | zero => rfl
  | succ count ih => rw [fixedDigits, List.length_append, ih]; rfl

theorem digits_fixedDigits (count n : Nat) : Digits (fixedDigits count n) := by
  induction count generalizing n with
  | zero => nofun
  | succ count ih =>
    rw [fixedDigits]
    exact List.forall_mem_append.2 ⟨ih _, List.forall_mem_singleton.2 (isDigit_digitChar (Nat.mod_lt n (by decide)))⟩

theorem digitValue_fixedDigits (count n : Nat) : digitValue (fixedDigits count n) = n % 10 ^ count := by
  induction count generalizing n with
  | zero => simp [fixedDigits, Nat.mod_one]
  | succ count ih =>
    rw [fixedDigits, digitValue_append, ih, digitValue_digitChar (Nat.mod_lt n (by decide)), Nat.pow_succ', Nat.mod_mul]
    simp
    omega

theorem length_digitBlock (level n : Nat) : (digitBlock level n).length = 2 ^ level := by
  induction level generalizing n with
  | zero => rfl
  | succ level ih => rw [digitBlock, List.length_append, ih, ih, Nat.pow_succ, Nat.mul_two]

theorem digits_digitBlock (level n : Nat) : Digits (digitBlock level n) := by
  induction level generalizing n with
  | zero => exact List.forall_mem_singleton.2 (isDigit_digitChar (Nat.mod_lt n (by decide)))
  | succ level ih =>
    rw [digitBlock]
    exact List.forall_mem_append.2 ⟨ih _, ih _⟩

theorem digitValue_digitBlock (level n : Nat) : digitValue (digitBlock level n) = n % 10 ^ 2 ^ level := by
  induction level generalizing n with
  | zero => exact digitValue_digitChar (Nat.mod_lt n (by decide))
  | succ level ih =>
    have half : Nat.pow 10 (1 <<< level) = 10 ^ 2 ^ level := by
      rw [Nat.one_shiftLeft]
      rfl
    rw [digitBlock, digitValue_append, ih, ih, length_digitBlock, half, Nat.mod_mod, Nat.pow_succ, Nat.mul_two,
      Nat.pow_add, Nat.mod_mul, Nat.add_comm]

/-- Three bits give at most one digit, so the block is long enough. -/
theorem lt_digitBlock (n : Nat) : n < 10 ^ 2 ^ ((n.log2 / 3 + 1).log2 + 1) := by
  have count : n.log2 / 3 + 1 ≤ 2 ^ ((n.log2 / 3 + 1).log2 + 1) := Nat.le_of_lt Nat.lt_log2_self
  calc n < 2 ^ (n.log2 + 1) := Nat.lt_log2_self
    _ ≤ 2 ^ (3 * (n.log2 / 3 + 1)) := Nat.pow_le_pow_right (by decide) (by omega)
    _ = 8 ^ (n.log2 / 3 + 1) := by rw [Nat.pow_mul]
    _ ≤ 10 ^ (n.log2 / 3 + 1) := Nat.pow_le_pow_left (by decide) _
    _ ≤ 10 ^ 2 ^ ((n.log2 / 3 + 1).log2 + 1) := Nat.pow_le_pow_right (by decide) count

theorem wholeDigits_whole (n : Nat) : Json.Whole (wholeDigits n) := by
  rw [wholeDigits]
  split
  · exact .zero
  case h_2 nonempty =>
    have all := digits_digitBlock ((n.log2 / 3 + 1).log2 + 1) n
    have first := List.head?_dropWhile_not (· == '0') (digitBlock ((n.log2 / 3 + 1).log2 + 1) n)
    generalize digitBlock ((n.log2 / 3 + 1).log2 + 1) n = block at all first nonempty ⊢
    cases kept : block.dropWhile (· == '0') with
    | nil => exact absurd kept nonempty
    | cons d ds =>
      rw [kept] at first
      have kept : ∀ c ∈ d :: ds, c.isDigit = true := fun c mem =>
        all c ((List.dropWhile_sublist _).subset (kept ▸ mem))
      exact .more (kept d List.mem_cons_self) (by simpa using first) (List.forall_mem_cons.1 kept).2

theorem digitValue_wholeDigits (n : Nat) : digitValue (wholeDigits n) = n := by
  have value := digitValue_dropZeros (digitBlock ((n.log2 / 3 + 1).log2 + 1) n)
  rw [digitValue_digitBlock, Nat.mod_eq_of_lt (lt_digitBlock n)] at value
  rw [wholeDigits]
  split
  case h_1 zeros => rwa [zeros] at value
  case h_2 => exact value

end ExactFormula.Decimal
