import ExactFormula.Proofs.Decimal.Denoted

/-!
Written decimals are canonical: there is one text for each decimal, and numerals of one value are printed
alike once they are read.
-/

namespace ExactFormula.Decimal

open Json (Digits)

/-- A minus in front of negative decimals, whole digits without leading zeros, and a fraction of at most twenty
digits that does not end in zero; without a fraction there is no point. -/
structure Canonical (a : Decimal) (cs : List Char) : Prop where
  parts : ∃ whole fraction, cs = (if a.units < 0 then ['-'] else []) ++ (whole ++ pointed fraction) ∧
    Json.Whole whole ∧ Digits fraction ∧ fraction.length ≤ scale ∧ fraction.getLast? ≠ some '0'

theorem getLast?_trimZeros (ds : List Char) : (trimZeros ds).getLast? ≠ some '0' := by
  rw [trimZeros, List.getLast?_reverse]
  intro last
  have first := List.head?_dropWhile_not (· == '0') ds.reverse
  rw [last] at first
  cases first

theorem canonical_chars (a : Decimal) : Canonical a a.chars where
  parts := by
    have short := (digitValue_trimZeros (fixedDigits scale (a.units.natAbs % Nat.pow 10 scale))).1
    rw [length_fixedDigits] at short
    have split := chars_eq a
    simp only [isNegative, decide_eq_true_eq] at split
    exact ⟨_, _, split, wholeDigits_whole _, digits_trimZeros (digits_fixedDigits _ _), short, getLast?_trimZeros _⟩

theorem parse_toText (a : Decimal) : parse a.toText = .ok a := by
  rw [parse, toText, String.toList_ofList, parseChars_chars]

theorem toText_injective {a b : Decimal} (h : a.toText = b.toText) : a = b := by
  have same := congrArg parse h
  rw [parse_toText, parse_toText] at same
  exact Except.ok.inj same

theorem parse_denoted {t u : String} {x : ℚ} {a b : Decimal} (ht : Denotes t x) (hu : Denotes u x)
    (ha : parse t = .ok a) (hb : parse u = .ok b) : a = b := by
  have units := (parse_nearest ht ha).unique (parse_nearest hu hb)
  cases a
  cases b
  exact congrArg mk units

/-- A printed decimal reads back, its text is canonical and names no other decimal, and whatever else denotes a
number that was read is printed as it is. -/
theorem toText_canonical :
    (∀ a : Decimal, parse a.toText = .ok a ∧ Canonical a a.toText.toList) ∧
      zero.toText = "0" ∧
      (∀ a b : Decimal, a = b ↔ a.toText = b.toText) ∧
      ∀ (t : String) (a : Decimal), parse t = .ok a → (∃ x, Denotes t x) ∧
        ∀ (u : String) (b : Decimal) (x : ℚ), Denotes t x → Denotes u x → parse u = .ok b → a.toText = b.toText := by
  refine ⟨fun a => ⟨parse_toText a, ?_⟩, rfl, fun a b => ⟨congrArg toText, toText_injective⟩, fun t a ha =>
    ⟨exists_denoted ha, fun u b x ht hu hb => congrArg toText (parse_denoted ht hu ha hb)⟩⟩
  rw [toText, String.toList_ofList]
  exact canonical_chars a

theorem denotes_gapped : Denotes "1_000.50" (2001 / 2) := by
  refine ⟨⟨.none, "1_000".toList, some "50".toList, none, List.all_eq_true.1 (by rfl), List.any_eq_true.1 (by rfl),
    by decide⟩, by rfl, ?_⟩
  have digits : digitValue (ungapped ("1_000".toList ++ "50".toList)) = 100050 := by rfl
  have places : (ungapped "50".toList).length = 2 := by rfl
  simp only [Numeral.value, Numeral.significand, Numeral.places, Option.getD_some, digits, places]
  norm_num [Sign.factor]

theorem denotes_power : Denotes " +10005e-1" (2001 / 2) := by
  refine ⟨⟨.plus, "10005".toList, none,
    some ⟨'e', .minus, ['1'], rfl, List.all_eq_true.1 (by rfl), List.any_eq_true.1 (by rfl)⟩,
    List.all_eq_true.1 (by rfl), List.any_eq_true.1 (by rfl), by decide⟩, by rfl, ?_⟩
  have digits : digitValue (ungapped "10005".toList) = 10005 := by rfl
  have power : digitValue (ungapped ['1']) = 1 := by rfl
  simp only [Numeral.value, Numeral.significand, Numeral.places, Power.value, Option.getD_none, List.append_nil,
    Option.map_some, Option.getD_some, digits, power]
  norm_num [Sign.factor, ungapped]

/-- A gapped numeral and one with a power of ten, both of the value 1000.5. -/
theorem toText_canonical_power : ∃ a b, parse "1_000.50" = .ok a ∧ parse " +10005e-1" = .ok b ∧
    a.toText = b.toText :=
  ⟨⟨100050000000000000000000⟩, ⟨100050000000000000000000⟩, by rfl, by rfl,
    (toText_canonical.2.2.2 _ _ (by rfl)).2 _ _ _ denotes_gapped denotes_power (by rfl)⟩

end ExactFormula.Decimal
