import Mathlib.Logic.Relation
import ExactFormula.Proofs.Decimal.Arithmetic
import ExactFormula.Proofs.Decimal.Denoted

/-!
Spellings of decimals. A text spells at most one numeral, and the decimal that is read is the one closest to its value.
Zeros at either end, gaps, a plus sign, blanks around, and the place of the point against the power of ten are matters
of spelling: they do not change what is read.
-/

namespace ExactFormula.Decimal

/-! ## One numeral for a text -/

theorem eq_of_append {p : Char → Bool} {xs xs' ys ys' : List Char} (hx : ∀ c ∈ xs, p c = true)
    (hx' : ∀ c ∈ xs', p c = true) (hy : ∀ c ∈ ys.head?, p c = false) (hy' : ∀ c ∈ ys'.head?, p c = false)
    (h : xs ++ ys = xs' ++ ys') : xs = xs' ∧ ys = ys' := by
  have ended {ys : List Char} (hy : ∀ c ∈ ys.head?, p c = false) : ys.takeWhile p = [] := by
    cases ys with
    | nil => rfl
    | cons c ys => rw [List.takeWhile_cons_of_neg (by simp [hy c rfl])]
  have taken := congrArg (List.takeWhile p) h
  rw [List.takeWhile_append_of_pos hx, List.takeWhile_append_of_pos hx', ended hy, ended hy', List.append_nil,
    List.append_nil] at taken
  subst taken
  exact ⟨rfl, List.append_cancel_left h⟩

/-- A sign is told apart from what follows it. -/
theorem eq_of_signed {s s' : Sign} {cs cs' : List Char} (hc : ∀ c ∈ cs.head?, c ≠ '+' ∧ c ≠ '-')
    (hc' : ∀ c ∈ cs'.head?, c ≠ '+' ∧ c ≠ '-') (h : s.chars ++ cs = s'.chars ++ cs') : s = s' ∧ cs = cs' := by
  cases s <;> cases s' <;> simp only [Sign.chars, List.nil_append, List.cons_append, List.cons.injEq, true_and] at h
  case none.none | plus.plus | minus.minus => exact ⟨rfl, h⟩
  case none.plus | none.minus => simp [h] at hc
  case plus.none | minus.none => simp [← h] at hc'
  case plus.minus | minus.plus => exact absurd h.1 (by decide)

theorem unsigned_of_isDigitOrGap {c : Char} (h : isDigitOrGap c = true) : c ≠ '+' ∧ c ≠ '-' := by
  constructor <;> rintro rfl <;> cases h

theorem unsigned_of_gapped {cs : List Char} (h : Gapped cs) : ∀ c ∈ cs.head?, c ≠ '+' ∧ c ≠ '-' :=
  fun c first => unsigned_of_isDigitOrGap (h c (List.mem_of_mem_head? first))

theorem not_isDigitOrGap_of_mark {c : Char} (h : isExponentMark c = true) : isDigitOrGap c = false := by
  simp only [isExponentMark, Bool.or_eq_true, beq_iff_eq] at h
  rcases h with rfl | rfl <;> rfl

theorem Power.chars_injective {p q : Power} (h : p.chars = q.chars) : p = q := by
  obtain ⟨mark, tail⟩ := List.cons.inj h
  obtain ⟨sign, digits⟩ := eq_of_signed (unsigned_of_gapped p.gapped) (unsigned_of_gapped q.gapped) tail
  cases p
  cases q
  simp_all

namespace Numeral

variable {m n : Numeral}

/-- The written power, if there is one. -/
def tail (n : Numeral) : List Char := (n.power.map Power.chars).getD []

theorem tail_head (n : Numeral) : ∀ c ∈ n.tail.head?, isExponentMark c = true := by
  rw [tail]
  cases n.power with
  | none => nofun
  | some p =>
    rintro c ⟨⟩
    exact p.isMark

theorem eq_of_tail (h : m.tail = n.tail) : m.power = n.power := by
  rw [tail, tail] at h
  cases hm : m.power <;> cases hn : n.power <;> rw [hm, hn] at h
  case none.some | some.none => cases h
  case some.some p q => rw [Power.chars_injective h]

/-- The point with its digits, if there is one, and the power. -/
theorem eq_of_fraction
    (h : (m.fraction.map ('.' :: ·)).getD [] ++ m.tail = (n.fraction.map ('.' :: ·)).getD [] ++ n.tail) :
    m.fraction = n.fraction ∧ m.tail = n.tail := by
  have pointless {k : Numeral} {cs : List Char} : k.tail ≠ '.' :: cs := fun start => by
    cases k.tail_head '.' (by rw [start]; rfl)
  have ended (k : Numeral) : ∀ c ∈ k.tail.head?, isDigitOrGap c = false :=
    fun c first => not_isDigitOrGap_of_mark (k.tail_head c first)
  have digits {k : Numeral} {ds : List Char} (some_ : k.fraction = some ds) : Gapped ds := fun c mem =>
    k.gapped c (List.mem_append_right _ (by rwa [some_]))
  cases hm : m.fraction <;> cases hn : n.fraction <;> rw [hm, hn] at h
  case none.none => exact ⟨rfl, h⟩
  case none.some => exact absurd h pointless
  case some.none => exact absurd h.symm pointless
  case some.some ds es =>
    obtain ⟨same, tail⟩ := eq_of_append (digits hm) (digits hn) (ended m) (ended n) (List.cons.inj h).2
    exact ⟨congrArg some same, tail⟩

theorem unsigned_body (n : Numeral) : ∀ c ∈ (n.mantissa ++ n.tail).head?, c ≠ '+' ∧ c ≠ '-' := by
  rw [mantissa]
  cases whole : n.whole with
  | cons d ds =>
    rintro c ⟨⟩
    exact unsigned_of_isDigitOrGap (n.gapped _ (by simp [whole]))
  | nil =>
    cases fraction : n.fraction with
    | some ds =>
      rintro c ⟨⟩
      decide
    | none =>
      obtain ⟨c, mem, -⟩ := n.shown
      rw [whole, fraction] at mem
      cases mem

/-- What is written determines the numeral. -/
theorem chars_injective (h : m.chars = n.chars) : m = n := by
  obtain ⟨sign, body⟩ := eq_of_signed m.unsigned_body n.unsigned_body h
  have ended (k : Numeral) : ∀ c ∈ ((k.fraction.map ('.' :: ·)).getD [] ++ k.tail).head?, isDigitOrGap c = false := by
    cases k.fraction with
    | some ds =>
      rintro c ⟨⟩
      rfl
    | none => exact fun c first => not_isDigitOrGap_of_mark (k.tail_head c first)
  have inside (k : Numeral) : Gapped k.whole := fun c mem => k.gapped c (List.mem_append_left _ mem)
  rw [mantissa, mantissa, List.append_assoc, List.append_assoc] at body
  obtain ⟨whole, rest⟩ := eq_of_append (inside m) (inside n) (ended m) (ended n) body
  obtain ⟨fraction, tail⟩ := eq_of_fraction rest
  have power := eq_of_tail tail
  cases m
  cases n
  simp_all

end Numeral

theorem Denotes.unique {text : String} {x y : ℚ} (hx : Denotes text x) (hy : Denotes text y) : x = y := by
  obtain ⟨m, chars, rfl⟩ := hx
  obtain ⟨n, chars', rfl⟩ := hy
  rw [Numeral.chars_injective (chars.symm.trans chars')]

/-! ## Spellings of one value -/

/-- The written exponent, zero where there is none. -/
def Numeral.exponent (n : Numeral) : ℤ := (n.power.map Power.value).getD 0

/-- The second numeral is the first one, spelled differently in one respect. -/
inductive Respelled (m n : Numeral) : Prop
  | leadingZeros (k : ℕ) (sign : n.sign = m.sign) (whole : n.whole = List.replicate k '0' ++ m.whole)
    (fraction : n.fraction = m.fraction) (power : n.power = m.power)
  | trailingZeros (k : ℕ) (sign : n.sign = m.sign) (whole : n.whole = m.whole)
    (fraction : n.fraction = some (m.fraction.getD [] ++ List.replicate k '0')) (power : n.power = m.power)
  | gaps (sign : n.sign = m.sign) (whole : ungapped n.whole = ungapped m.whole)
    (fraction : n.fraction.map ungapped = m.fraction.map ungapped) (power : n.power = m.power)
  | plus (sign : m.sign = .none) (sign' : n.sign = .plus) (whole : n.whole = m.whole)
    (fraction : n.fraction = m.fraction) (power : n.power = m.power)
  | point (sign : n.sign = m.sign) (digits : n.whole ++ n.fraction.getD [] = m.whole ++ m.fraction.getD [])
    (moved : n.exponent - n.places = m.exponent - m.places)
  | exponent (sign : n.sign = m.sign) (whole : n.whole = m.whole) (fraction : n.fraction = m.fraction)
    (power : n.exponent = m.exponent)

theorem Respelled.value_eq {m n : Numeral} (h : Respelled m n) : n.value = m.value := by
  have zeros (k : ℕ) : ungapped (List.replicate k '0') = List.replicate k '0' := by simp [ungapped]
  cases h with
  | leadingZeros k sign whole fraction power =>
    have significand : n.significand = m.significand := by
      rw [Numeral.significand, Numeral.significand, whole, fraction, List.append_assoc, ungapped_append, zeros,
        digitValue_append, digitValue_zeros, Nat.mul_zero, Nat.zero_add]
    simp only [Numeral.value, Numeral.places, sign, fraction, power, significand]
  | trailingZeros k sign whole fraction power =>
    have significand : n.significand = m.significand * 10 ^ k := by
      rw [Numeral.significand, Numeral.significand, whole, fraction, Option.getD_some, ← List.append_assoc,
        ungapped_append, zeros, digitValue_append, digitValue_zeros, List.length_replicate, Nat.add_zero, Nat.mul_comm]
    have places : n.places = m.places + k := by
      rw [Numeral.places, Numeral.places, fraction, Option.getD_some, ungapped_append, zeros, List.length_append,
        List.length_replicate]
    simp only [Numeral.value, sign, power, significand, places]
    generalize (m.power.map Power.value).getD 0 = e
    have moved : (10 : ℚ) ^ (e - m.places) = 10 ^ k * 10 ^ (e - (m.places + k : ℕ)) := by
      rw [← zpow_natCast, ← zpow_add₀ (by norm_num)]
      congr 1
      push_cast
      ring
    rw [moved]
    push_cast
    ring
  | gaps sign whole fraction power =>
    have fraction : ungapped (n.fraction.getD []) = ungapped (m.fraction.getD []) := by
      cases hm : m.fraction <;> cases hn : n.fraction <;> rw [hm, hn] at fraction
      case none.some | some.none => cases fraction
      case some.some => exact Option.some.inj fraction
    have significand : n.significand = m.significand := by
      rw [Numeral.significand, Numeral.significand, ungapped_append, whole, fraction, ← ungapped_append]
    simp only [Numeral.value, Numeral.places, sign, fraction, power, significand]
  | plus sign sign' whole fraction power =>
    simp only [Numeral.value, Numeral.places, Numeral.significand, sign, sign', whole, fraction, power, Sign.factor]
  | point sign digits moved =>
    have significand : n.significand = m.significand := by rw [Numeral.significand, Numeral.significand, digits]
    rw [Numeral.value, Numeral.value, sign, significand]
    exact congrArg (_ * (10 : ℚ) ^ ·) moved
  | exponent sign whole fraction power =>
    have moved : n.exponent - n.places = m.exponent - m.places := by
      rw [power, Numeral.places, Numeral.places, fraction]
    rw [Numeral.value, Numeral.value, sign, Numeral.significand, Numeral.significand, whole, fraction]
    exact congrArg (_ * (10 : ℚ) ^ ·) moved

theorem value_eq_of_respelled {m n : Numeral} (h : Relation.EqvGen Respelled m n) : m.value = n.value := by
  induction h with
  | rel m n step => exact step.value_eq.symm
  | refl m => rfl
  | symm m n _ ih => exact ih.symm
  | trans m n k _ _ ih ih' => exact ih.trans ih'

/-! ## Reading -/

theorem closest_of_parse {text : String} {a : Decimal} {n : Numeral} (spelled : Text.trim text.toList = n.chars)
    (h : parse text = .ok a) : Closest .halfEven n.value a :=
  closest_of_nearest (parse_nearest ⟨n, spelled, rfl⟩ h)

/-- An accepted text spells one numeral, and is read as its exact value rounded once. Whatever is read of another
spelling of it is the same. -/
theorem parse_closest {text : String} {a : Decimal} (h : parse text = .ok a) :
    ∃ n : Numeral, Text.trim text.toList = n.chars ∧ (∀ m : Numeral, Text.trim text.toList = m.chars → m = n) ∧
      Closest .halfEven n.value a ∧
      ∀ (other : String) (m : Numeral) (b : Decimal), Text.trim other.toList = m.chars →
        Relation.EqvGen Respelled n m → parse other = .ok b → b = a := by
  obtain ⟨x, n, spelled, -⟩ := exists_denoted h
  refine ⟨n, spelled, fun m spelled' => Numeral.chars_injective (spelled'.symm.trans spelled),
    closest_of_parse spelled h, fun other m b spelled' respelled read => ?_⟩
  have nearest := parse_nearest ⟨n, spelled, rfl⟩ h
  have nearest' := parse_nearest ⟨m, spelled', rfl⟩ read
  rw [value_eq_of_respelled respelled] at nearest
  have units := nearest'.unique nearest
  cases a
  cases b
  exact congrArg mk units

/-- `0.000000000000000000015` -/
def tiedNumeral : Numeral :=
  ⟨.none, "0".toList, some "000000000000000000015".toList, none, List.all_eq_true.1 (by rfl),
    List.any_eq_true.1 (by rfl), by decide⟩

/-- `e-21` -/
def tiedPower : Power := ⟨'e', .minus, "21".toList, rfl, List.all_eq_true.1 (by rfl), List.any_eq_true.1 (by rfl)⟩

/-- `15e-21` with a sign and leading zeros. -/
def poweredNumeral (sign : Sign) (zeros : ℕ) : Numeral where
  sign := sign
  whole := List.replicate zeros '0' ++ "15".toList
  fraction := none
  power := some tiedPower
  gapped := by
    rw [Option.getD_none, List.append_nil]
    exact List.forall_mem_append.2 ⟨fun c mem => (List.mem_replicate.1 mem).2 ▸ rfl, List.all_eq_true.1 (by rfl)⟩
  shown := ⟨'5', by simp, rfl⟩
  starts := by cases zeros <;> simp [List.replicate_succ]

theorem respelled_tied : Relation.EqvGen Respelled tiedNumeral (poweredNumeral .plus 0) := by
  have moved : (poweredNumeral .none 20).exponent - (poweredNumeral .none 20).places =
      tiedNumeral.exponent - tiedNumeral.places := by decide
  refine .trans _ (poweredNumeral .none 20) _ (.rel _ _ (.point rfl rfl moved)) ?_
  refine .trans _ (poweredNumeral .none 0) _ (.symm _ _ (.rel _ _ (.leadingZeros 20 rfl rfl rfl rfl))) ?_
  exact .rel _ _ (.plus rfl rfl rfl rfl rfl)

/-- A tie behind the last place goes to the even unit, however it is written. -/
theorem parse_closest_tied : ∃ n : Numeral, parse "0.000000000000000000015" = .ok ⟨2⟩ ∧
    Text.trim "0.000000000000000000015".toList = n.chars ∧ Closest .halfEven n.value ⟨2⟩ ∧
    Text.trim " +15e-21".toList = (poweredNumeral .plus 0).chars ∧
    Relation.EqvGen Respelled n (poweredNumeral .plus 0) ∧ parse " +15e-21" = .ok ⟨2⟩ := by
  have read : parse "0.000000000000000000015" = .ok ⟨2⟩ := by rfl
  have spelled : Text.trim "0.000000000000000000015".toList = tiedNumeral.chars := by rfl
  have spelled' : Text.trim " +15e-21".toList = (poweredNumeral .plus 0).chars := by rfl
  obtain ⟨n, same, unique, closest, others⟩ := parse_closest read
  cases unique tiedNumeral spelled
  have other : ∃ b, parse " +15e-21" = .ok b := ⟨⟨2⟩, by rfl⟩
  obtain ⟨b, read'⟩ := other
  rw [others " +15e-21" _ b spelled' respelled_tied read'] at read'
  exact ⟨tiedNumeral, read, spelled, closest, spelled', respelled_tied, read'⟩

end ExactFormula.Decimal
