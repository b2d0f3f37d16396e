import Mathlib.Algebra.Order.BigOperators.Group.Multiset
import ExactFormula.Function.Builtin
import ExactFormula.Proofs.Decimal.Arithmetic

/-!
The least, the greatest, the sum and the mean of arguments. They are those of the readings of the arguments as a
multiset: neither the order of the arguments nor how they are put into arrays matters.
-/

namespace ExactFormula.Builtin

open Decimal (value value_add value_le_iff)

/-! ## Readings -/

/-- What a value counts with: the items of an array, or the value itself. -/
def unpacked : Value → List Value
  | .array items => items
  | v => [v]

/-- The numeric readings of the arguments. An array counts with its items, and values without a reading do not count. -/
def readings (args : List Value) : Multiset Decimal := ((args.flatMap unpacked).filterMap Value.number? : List Decimal)

variable {args args' rest packed : List Value}

theorem coe_numbers (args : List Value) : (numbers args : Multiset Decimal) = readings args := by
  have single (v : Value) : [v].filterMap Value.number? = v.number?.toList := by
    cases reading : v.number? <;> simp [reading]
  unfold numbers readings
  rw [List.filterMap_flatMap]
  congr 2
  funext v
  cases v with
  | array items => rfl
  | _ => exact (single _).symm

theorem readings_perm (h : args'.Perm args) : readings args' = readings args := by
  unfold readings
  rw [Multiset.coe_eq_coe]
  exact (h.flatMap_right unpacked).filterMap Value.number?

theorem flatMap_unpacked (single : ∀ v ∈ packed, ∀ items, v ≠ .array items) : packed.flatMap unpacked = packed := by
  have same : ∀ v ∈ packed, unpacked v = [v] := by
    intro v mem
    cases v with
    | array items => exact absurd rfl (single _ mem items)
    | _ => rfl
  induction packed with
  | nil => rfl
  | cons v packed ih => simp_all

theorem readings_pack (single : ∀ v ∈ packed, ∀ items, v ≠ .array items) (h : args.Perm (packed ++ rest)) :
    readings (.array packed :: rest) = readings args := by
  rw [← readings_perm h.symm]
  simp [readings, flatMap_unpacked single, unpacked]

/-! ## Sums and means -/

theorem value_sumOf (ds : List Decimal) : (sumOf ds).value = (ds.map value).sum := by
  have start (acc : Decimal) : (ds.foldl (· + ·) acc).value = acc.value + (ds.map value).sum := by
    induction ds generalizing acc with
    | nil => simp
    | cons d ds ih => simp [ih, value_add, add_assoc]
  have zero : Decimal.zero.value = 0 := by simp [value, Decimal.zero]
  rw [sumOf, start, zero, zero_add]

/-- The sum of the readings. -/
def total (args : List Value) : ℚ := ((readings args).map value).sum

theorem value_sum (args : List Value) : (sumOf (numbers args)).value = total args := by
  rw [value_sumOf, total, ← coe_numbers, Multiset.map_coe, Multiset.sum_coe]

theorem sumOf_congr (h : readings args' = readings args) : sumOf (numbers args') = sumOf (numbers args) := by
  apply Decimal.value_injective
  rw [value_sum, value_sum, total, total, h]

/-- Without readings the mean is null, and otherwise it is the sum divided by their count. -/
theorem avg_eq (args : List Value) (ctx : Context) : avg args ctx = if readings args = 0 then .ok .null else
    (FormulaError.ofDecimal ((sumOf (numbers args)).div (.ofInt (readings args).card))).map .number := by
  rw [← coe_numbers, avg]
  cases numbers args with
  | nil => rfl
  | cons d ds => simp

theorem avg_closest (nonempty : readings args ≠ 0) (ctx : Context) : ∃ mean, avg args ctx = .ok (.number mean) ∧
    Decimal.Closest .halfEven (total args / (readings args).card) mean := by
  have count : (Decimal.ofInt (readings args).card).value ≠ 0 := by
    simpa [Decimal.value_ofInt] using nonempty
  obtain ⟨mean, divided, closest⟩ := Decimal.closest_divWith .halfEven (sumOf (numbers args)) count
  rw [value_sum, Decimal.value_ofInt, Int.cast_natCast] at closest
  refine ⟨mean, ?_, closest⟩
  rw [avg_eq, if_neg nonempty, Decimal.div, divided]
  rfl

/-! ## The least and the greatest -/

/-- A reading that stands in an order before all readings, itself included. -/
structure Extreme (r : ℚ → ℚ → Prop) (ds : Multiset Decimal) (d : Decimal) : Prop where
  mem : d ∈ ds
  before : ∀ e ∈ ds, r d.value e.value

/-- A choice between two decimals takes one that stands in an order before both. -/
structure Picks (r : ℚ → ℚ → Prop) (pick : Decimal → Decimal → Decimal) : Prop where
  one : ∀ a b, pick a b = a ∨ pick a b = b
  left : ∀ a b, r (pick a b).value a.value
  right : ∀ a b, r (pick a b).value b.value

theorem picks_min : Picks (· ≤ ·) Decimal.min := by
  constructor
  all_goals
    intro a b
    unfold Decimal.min
  · split <;> simp
  · split <;> simp only [value_le_iff] <;> omega
  · split <;> simp only [value_le_iff] <;> omega

theorem picks_max : Picks (· ≥ ·) Decimal.max := by
  constructor
  all_goals
    intro a b
    unfold Decimal.max
  · split <;> simp
  · split <;> simp only [ge_iff_le, value_le_iff] <;> omega
  · split <;> simp only [ge_iff_le, value_le_iff] <;> omega

section

variable {r : ℚ → ℚ → Prop} {pick : Decimal → Decimal → Decimal}

theorem Extreme.unique [Std.Antisymm r] {ds : Multiset Decimal} {d e : Decimal} (hd : Extreme r ds d)
    (he : Extreme r ds e) : d = e :=
  Decimal.value_injective (antisymm (hd.before e he.mem) (he.before d hd.mem))

theorem Picks.extreme [IsPreorder ℚ r] (h : Picks r pick) (d : Decimal) (ds : List Decimal) :
    Extreme r (d :: ds : List Decimal) (ds.foldl pick d) := by
  induction ds generalizing d with
  | nil => exact ⟨by simp, by simp [refl]⟩
  | cons e ds ih =>
    obtain ⟨mem, before⟩ := ih (pick d e)
    rw [List.foldl_cons]
    generalize ds.foldl pick (pick d e) = first at mem before
    have picked : r first.value (pick d e).value := before _ (by simp)
    constructor
    · rcases h.one d e with same | same <;> rw [same] at mem <;> simp at mem ⊢ <;> tauto
    · intro c among
      simp only [Multiset.mem_coe, List.mem_cons] at among
      rcases among with rfl | rfl | later
      · exact trans_of r picked (h.left c e)
      · exact trans_of r picked (h.right d c)
      · exact before c (by simp [later])

/-- A function that gives the first of the readings in an order, and null where there are none. -/
structure Selects (r : ℚ → ℚ → Prop) (f : Function) : Prop where
  none : ∀ args ctx, readings args = 0 → f args ctx = .ok .null
  some : ∀ args ctx, readings args ≠ 0 → ∃ d, f args ctx = .ok (.number d) ∧ Extreme r (readings args) d

theorem Picks.selects [IsPreorder ℚ r] (h : Picks r pick) {f : Function} (same : ∀ args ctx, f args ctx =
    match numbers args with
    | [] => .ok .null
    | d :: ds => .ok (.number (ds.foldl pick d))) : Selects r f := by
  constructor
  all_goals
    intro args ctx
    rw [same, ← coe_numbers]
    cases numbers args with
    | nil => simp
    | cons d ds => simp [h.extreme d ds]

theorem Selects.congr [Std.Antisymm r] {f : Function} (h : Selects r f) (same : readings args' = readings args)
    (ctx' ctx : Context) : f args' ctx' = f args ctx := by
  by_cases empty : readings args = 0
  · rw [h.none args ctx empty, h.none args' ctx' (same.trans empty)]
  · obtain ⟨d, found, first⟩ := h.some args ctx empty
    obtain ⟨d', found', first'⟩ := h.some args' ctx' (same ▸ empty)
    rw [same] at first'
    rw [found', found, first'.unique first]

end

theorem selects_min : Selects (· ≤ ·) min := picks_min.selects fun _ _ => rfl

theorem selects_max : Selects (· ≥ ·) max := picks_max.selects fun _ _ => rfl

/-! ## Aggregates -/

theorem aggregate_congr {f : Function} (aggregate : f ∈ [min, max, sum, avg]) (same : readings args' = readings args)
    (ctx' ctx : Context) : f args' ctx' = f args ctx := by
  simp only [List.mem_cons, List.not_mem_nil, or_false] at aggregate
  rcases aggregate with rfl | rfl | rfl | rfl
  · exact selects_min.congr same ctx' ctx
  · exact selects_max.congr same ctx' ctx
  · rw [sum, sum, sumOf_congr same]
  · rw [avg_eq, avg_eq, sumOf_congr same, same]

/-- The exact mean lies between the least and the greatest reading. -/
theorem mean_between {least greatest : Decimal} (nonempty : readings args ≠ 0)
    (low : Extreme (· ≤ ·) (readings args) least) (high : Extreme (· ≥ ·) (readings args) greatest) :
    least.value ≤ total args / (readings args).card ∧ total args / (readings args).card ≤ greatest.value := by
  have positive : (0 : ℚ) < (readings args).card := by
    exact_mod_cast Multiset.card_pos.2 nonempty
  rw [le_div_iff₀ positive, div_le_iff₀ positive]
  constructor
  · have := Multiset.card_nsmul_le_sum (s := (readings args).map value) (a := least.value) (by simpa using low.before)
    simpa [total, mul_comm] using this
  · have := Multiset.sum_le_card_nsmul ((readings args).map value) greatest.value (by simpa using high.before)
    simpa [total, mul_comm] using this

/-- The least, the greatest, the sum and the mean depend on the readings alone, whatever the order of the arguments, and
whether they are packed into an array or not. The least and the greatest are readings, and the mean, which is rounded
once, lies between them. Without readings there is only a sum, which is zero. -/
theorem aggregates_of_readings (args : List Value) (ctx : Context) :
    (∀ f ∈ [min, max, sum, avg],
      (∀ args' ctx', readings args' = readings args → f args' ctx' = f args ctx) ∧
      (∀ args', args'.Perm args → f args' ctx = f args ctx) ∧
      ∀ packed rest, (∀ v ∈ packed, ∀ items, v ≠ .array items) → args.Perm (packed ++ rest) →
        f (.array packed :: rest) ctx = f args ctx) ∧
    (readings args ≠ 0 → ∃ least mean greatest,
      min args ctx = .ok (.number least) ∧ avg args ctx = .ok (.number mean) ∧
        max args ctx = .ok (.number greatest) ∧
      Extreme (· ≤ ·) (readings args) least ∧ Extreme (· ≥ ·) (readings args) greatest ∧
      least.value ≤ mean.value ∧ mean.value ≤ greatest.value ∧
      Decimal.Closest .halfEven (((readings args).map value).sum / (readings args).card) mean) ∧
    (readings args = 0 → min args ctx = .ok .null ∧ max args ctx = .ok .null ∧ avg args ctx = .ok .null ∧
      sum args ctx = .ok (.number .zero)) ∧
    ∃ result, sum args ctx = .ok (.number result) ∧ result.value = ((readings args).map value).sum := by
  refine ⟨fun f aggregate => ⟨fun args' ctx' same => aggregate_congr aggregate same ctx' ctx,
    fun args' perm => aggregate_congr aggregate (readings_perm perm) ctx ctx,
    fun packed rest single perm => aggregate_congr aggregate (readings_pack single perm) ctx ctx⟩, ?_, ?_,
    _, rfl, value_sum args⟩
  · intro nonempty
    obtain ⟨least, foundLeast, low⟩ := selects_min.some args ctx nonempty
    obtain ⟨greatest, foundGreatest, high⟩ := selects_max.some args ctx nonempty
    obtain ⟨mean, foundMean, closest⟩ := avg_closest nonempty ctx
    obtain ⟨above, below⟩ := mean_between nonempty low high
    exact ⟨least, mean, greatest, foundLeast, foundMean, foundGreatest, low, high, closest.le_value above,
      closest.value_le below, closest⟩
  · intro empty
    refine ⟨selects_min.none args ctx empty, selects_max.none args ctx empty, by rw [avg_eq, if_pos empty], ?_⟩
    rw [← coe_numbers, Multiset.coe_eq_zero] at empty
    simp [sum, empty, sumOf]

/-- An array in which only two items have readings. -/
def someItems : Value := .array [.number (.ofInt (-1)), .string "x", .string "5"]

def looseItems : List Value := [.bool true, .null, .number (.ofInt 3)]

/-- The loose items about the array, which are read as `3`, `-1`, `5` and `1`. -/
def mixedArguments : List Value := [.number (.ofInt 3), someItems, .bool true, .null]

theorem aggregates_of_readings_mixed :
    readings mixedArguments ≠ 0 ∧
      (∀ f ∈ [min, max, sum, avg], f [.array looseItems, someItems] .empty = f mixedArguments .empty) ∧
      (∃ least mean greatest, min mixedArguments .empty = .ok (.number least) ∧
        avg mixedArguments .empty = .ok (.number mean) ∧ max mixedArguments .empty = .ok (.number greatest) ∧
        least.value ≤ mean.value ∧ mean.value ≤ greatest.value) ∧
      avg mixedArguments .empty = .ok (.number (.ofInt 2)) ∧
      readings [.null] = 0 ∧ avg [.null] .empty = .ok .null := by
  have nonempty : readings mixedArguments ≠ 0 := by
    rw [← coe_numbers, ne_eq, Multiset.coe_eq_zero]
    have read : numbers mixedArguments = [.ofInt 3, .ofInt (-1), .ofInt 5, .one] := by rfl
    simp [read]
  have none : readings [.null] = 0 := rfl
  have single : ∀ v ∈ looseItems, ∀ items, v ≠ .array items := by simp [looseItems]
  have perm : ([.number (.ofInt 3), someItems] ++ [.bool true, .null] : List Value).Perm (looseItems ++ [someItems]) :=
    List.perm_append_comm
  obtain ⟨alike, between, -⟩ := aggregates_of_readings mixedArguments .empty
  obtain ⟨-, -, empty, -⟩ := aggregates_of_readings [.null] .empty
  obtain ⟨least, mean, greatest, low, middle, high, -, -, above, below, -⟩ := between nonempty
  exact ⟨nonempty, fun f aggregate => (alike f aggregate).2.2 _ _ single perm,
    ⟨least, mean, greatest, low, middle, high, above, below⟩, by rfl, none, (empty none).2.2.1⟩

end ExactFormula.Builtin
