import ExactFormula.Proofs.Bytewise.Numeral
import ExactFormula.Proofs.Bytewise.Tokens
import ExactFormula.Proofs.Relaxed.Dates

/-!
The bare values and dates of relaxed documents by bytes.
-/

namespace ExactFormula.Bytewise

variable {text cs : List Char} {c : Char} {p : Nat}

/-! ## Values -/

def scanTurn (text : List Char) (nested : Bool) : Nat × Nat × Nat → Nat → Char →
    Except Fault (Turn (Nat × Nat × Nat) Nat)
  | (braces, brackets, parens), k, b =>
    if b == '{' then return .next (braces + 1, brackets, parens) (k + 1)
    else if b == '[' then return .next (braces, brackets + 1, parens) (k + 1)
    else if b == '(' then return .next (braces, brackets, parens + 1) (k + 1)
    else if b == '}' && 0 < braces then return .next (braces - 1, brackets, parens) (k + 1)
    else if b == '}' && brackets == 0 && parens == 0 then return .done k
    else if b == ']' && 0 < brackets then return .next (braces, brackets - 1, parens) (k + 1)
    else if b == ']' && braces == 0 && parens == 0 then return .done k
    else if b == ')' && 0 < parens then return .next (braces, brackets, parens - 1) (k + 1)
    else if b == ',' && nested && braces == 0 && brackets == 0 && parens == 0 then return .done k
    else if Text.isQuote b then return .done k
    else do
      if ← atComment text k then return .done k else return .next (braces, brackets, parens) (k + 1)

def scanValue (text : List Char) (nested : Bool) (p : Nat) : Except Fault Nat :=
  loop text (scanTurn text nested) (fun _ k => .ok k) (0, 0, 0) p

/-- A turn of the loop against what the scan by characters takes: both end, or both take the character and count the
same brackets. -/
inductive ScansAlike (nested : Bool) (c : Char) (cs : List Char) (p : Nat) :
    List Char → Except Fault (Turn (Nat × Nat × Nat) Nat) → Prop
  | ends : ScansAlike nested c cs p [] (.ok (.done p))
  | takes (b k n : Nat) :
    ScansAlike nested c cs p (c :: Relaxed.bareValue nested b k n cs) (.ok (.next (b, k, n) (p + 1)))

theorem ScansAlike.ite {nested : Bool} {taken taken' : List Char}
    {turn turn' : Except Fault (Turn (Nat × Nat × Nat) Nat)} {condition : Prop} [Decidable condition]
    (h : ScansAlike nested c cs p taken turn) (h' : ScansAlike nested c cs p taken' turn') :
    ScansAlike nested c cs p (if condition then taken else taken') (if condition then turn else turn') := by
  split
  · exact h
  · exact h'

theorem At.scansAlike (h : At text p (c :: cs)) (nested : Bool) (braces brackets parens : Nat) :
    ScansAlike nested c cs p (Relaxed.bareValue nested braces brackets parens (c :: cs))
      (scanTurn text nested (braces, brackets, parens) p c) := by
  rw [Relaxed.bareValue, scanTurn, h.atComment_eq, ok_bind]
  exact .ite (.takes ..) <| .ite (.takes ..) <| .ite (.takes ..) <| .ite (.takes ..) <| .ite .ends <|
    .ite (.takes ..) <| .ite .ends <| .ite (.takes ..) <| .ite .ends <| .ite .ends <| .ite .ends (.takes ..)

theorem scanTurn_wide {b : Char} (byte : byte? text p = some b) (wide : ¬Ascii b) (nested : Bool)
    (braces brackets parens : Nat) :
    scanTurn text nested (braces, brackets, parens) p b = .ok (.next (braces, brackets, parens) (p + 1)) := by
  simp (disch := decide) [scanTurn, beq_wide wide, narrow_isQuote wide, atComment_of_byte? byte]

theorem bareValue_wide (wide : ¬Ascii c) (nested : Bool) (braces brackets parens : Nat) (cs : List Char) :
    Relaxed.bareValue nested braces brackets parens (c :: cs) =
      c :: Relaxed.bareValue nested braces brackets parens cs := by
  simp (disch := decide) [Relaxed.bareValue, beq_wide wide, narrow_isQuote wide]

theorem At.scanLoop_eq (h : At text p cs) (nested : Bool) (braces brackets parens : Nat) :
    loop text (scanTurn text nested) (fun _ k => .ok k) (braces, brackets, parens) p =
      .ok (Bytewise.ahead p cs (Relaxed.bareValue nested braces brackets parens cs).length) := by
  induction cs generalizing p braces brackets parens with
  | nil => exact h.loop_nil
  | cons c cs ih =>
    by_cases ascii : Ascii c
    · have byte := h.byte?_ascii ascii
      have alike := h.scansAlike nested braces brackets parens
      generalize taken : Relaxed.bareValue nested braces brackets parens (c :: cs) = value at alike ⊢
      generalize turn : scanTurn text nested (braces, brackets, parens) p c = outcome at alike
      cases alike with
      | ends => exact loop_done byte turn
      | takes b k n =>
        rw [List.length_cons, ahead_succ, ← ih h.next, ascii.utf8Size_eq]
        exact loop_next byte turn (Nat.lt_succ_self p)
    · rw [bareValue_wide ascii, List.length_cons, ahead_succ, ← ih h.next]
      exact h.loop_inside ascii (fun k b byte wide => scanTurn_wide byte wide ..) (Nat.zero_le _)

theorem bareValue_take (nested : Bool) (braces brackets parens : Nat) (cs : List Char) :
    cs.take (Relaxed.bareValue nested braces brackets parens cs).length =
      Relaxed.bareValue nested braces brackets parens cs := by
  fun_induction Relaxed.bareValue nested braces brackets parens cs <;> simp_all

/-- The strict form of a value. -/
def strictValue (marker value : List Char) : Except Fault (List Char) := do
  if ← isDecimalLiteral value then return '"' :: (Relaxed.plainNumeral value ++ ['"'])
  else if Relaxed.isDate value then return Text.quote value
  else if Relaxed.isJsonWord value then return value
  else if marker.isEmpty then return Text.quote value
  else return Text.quote (marker ++ value)

def readValue (text marker : List Char) (nested : Bool) (p : Nat) : Except Fault (List Char × Nat) := do
  let q ← scanValue text nested p
  let raw ← slice text p q
  let token := Text.trimStart raw
  if token.isEmpty then
    if raw.isEmpty then copyChar text p else return (raw, q)
  else
    let value := Text.trimEnd token
    let behind ← slice token (size value) (size token)
    return ((← strictValue marker value) ++ behind, q)

theorem strictValue_eq (marker value : List Char) :
    strictValue marker value = .ok (Relaxed.strictValue marker value) := by
  rw [strictValue, Relaxed.strictValue, isDecimalLiteral_eq, ok_bind]
  split_ifs with numeral date word unmarked
  · rfl
  · rfl
  · rfl
  · rw [List.isEmpty_iff.1 unmarked]
    rfl
  · rfl

theorem slice_front {front token : List Char} (h : front <+: token) :
    slice token (size front) (size token) = .ok (token.drop front.length) := by
  obtain ⟨w, rfl⟩ := h
  have behind : At (front ++ w) (size front) w := ⟨front, rfl, rfl⟩
  rw [behind.slice_rest, List.drop_left]

theorem trimEnd_front (token : List Char) : Text.trimEnd token <+: token := by
  have reversed := List.reverse_prefix.2 (List.dropWhile_suffix Text.isBlank (l := token.reverse))
  rwa [List.reverse_reverse] at reversed

theorem At.readValue_eq (h : At text p (c :: cs)) (marker : List Char) (nested : Bool) :
    readValue text marker nested p =
      if (Relaxed.bareValue nested 0 0 0 (c :: cs)).isEmpty then .ok ([c], p + c.utf8Size)
      else .ok (Relaxed.strictText marker (Relaxed.bareValue nested 0 0 0 (c :: cs)),
        Bytewise.ahead p (c :: cs) (Relaxed.bareValue nested 0 0 0 (c :: cs)).length) := by
  have taken := h.slice_ahead (Relaxed.bareValue nested 0 0 0 (c :: cs)).length
  rw [bareValue_take] at taken
  rw [readValue, scanValue, h.scanLoop_eq, ok_bind, taken, ok_bind, h.copyChar_eq]
  generalize Relaxed.bareValue nested 0 0 0 (c :: cs) = raw
  dsimp only
  rw [slice_front (trimEnd_front _), ok_bind, strictValue_eq, ok_bind, Relaxed.strictText]
  cases blank : (Text.trimStart raw).isEmpty with
  | true =>
    rw [if_pos rfl, if_pos rfl]
    rfl
  | false =>
    have nonempty : raw.isEmpty = false := by
      cases raw with
      | nil => cases blank
      | cons d ds => rfl
    rw [nonempty]
    rfl

/-! ## Dates -/

def isDateMark (b : Char) : Bool := b == '-' || b == '.' || b == '/'

def endsValueAfterDate (b : Char) : Bool := b == ',' || b == '}' || b == ']' || b == ':'

/-- The rest of a date behind its year and the mark after it. -/
def dateBehind (text : List Char) (p : Nat) : Except Fault (Option (List Char × Nat)) := do
  let stop ← skipWhile text Relaxed.isDateChar (p + 5)
  let candidate ← slice text p stop
  if !(decide (8 ≤ size candidate) && decide (size candidate ≤ 35)) || !Relaxed.isDate candidate then return none
  if (byte? text stop).any Relaxed.isNameStart then return none
  let next ← skipWhile text (· == ' ') stop
  if (byte? text next).any fun b => !endsValueAfterDate b then return none
  return some ('"' :: (candidate ++ ['"']), stop)

def tryReadDate (text : List Char) (atKey : Bool) (p : Nat) : Except Fault (Option (List Char × Nat)) := do
  if atKey then return none
  if size text ≤ p + 6 then return none
  let year ← bytesBetween text p (p + 4)
  let mark ← byteAt text (p + 4)
  if !year.all Char.isDigit || !isDateMark mark then return none
  dateBehind text p

theorem endsDate_eq (cs : List Char) : Relaxed.endsDate cs = (!cs.head?.any Relaxed.isNameStart &&
    !(cs.dropWhile (· == ' ')).head?.any fun b => !endsValueAfterDate b) := by
  cases cs with
  | nil => rfl
  | cons c cs =>
    rw [Relaxed.endsDate]
    cases (c :: cs).dropWhile (· == ' ') with
    | nil => rfl
    | cons d ds => simp [endsValueAfterDate]

/-- Checks one after another that give up are one condition. -/
theorem checks_eq {α : Type} (long short date name mark : Bool) (result : Option α) :
    (if !(long && short) || !date then .ok none else if name then .ok none else if mark then .ok none else .ok result :
      Except Fault (Option α)) = .ok (if long && short && date && (!name && !mark) then result else none) := by
  cases long <;> cases short <;> cases date <;> cases name <;> cases mark <;> rfl

theorem take_takeWhile (test : Char → Bool) (cs : List Char) :
    cs.take (cs.takeWhile test).length = cs.takeWhile test :=
  (List.prefix_iff_eq_take.1 (List.takeWhile_prefix test)).symm

theorem At.dateBehind_eq {year rest : List Char} (h : At text p (year ++ rest)) (length : year.length = 5)
    (dateChars : ∀ c ∈ year, Relaxed.isDateChar c = true) :
    dateBehind text p = .ok (
      let date := (year ++ rest).takeWhile Relaxed.isDateChar
      if 8 ≤ date.length && date.length ≤ 35 && Relaxed.isDate date &&
          Relaxed.endsDate ((year ++ rest).drop date.length) then
        some ('"' :: (date ++ ['"']), Bytewise.ahead p (year ++ rest) date.length)
      else none) := by
  have width : size year = 5 := (size_ascii fun c mem => narrow_isDateChar.ascii (dateChars c mem)).trans length
  have behind := h.append
  rw [width] at behind
  -- The run of date characters is looked for from the fifth byte on, but `year` belongs to it as well.
  have stop : skipWhile text Relaxed.isDateChar (p + 5) =
      .ok (Bytewise.ahead p (year ++ rest) ((year ++ rest).takeWhile Relaxed.isDateChar).length) := by
    rw [behind.skipWhile_eq narrow_isDateChar.uniform, List.takeWhile_append_of_pos dateChars, List.length_append,
      ahead_add, ahead_append, List.drop_left, width]
  have here := h.ahead ((year ++ rest).takeWhile Relaxed.isDateChar).length
  have candidate := h.slice_ahead ((year ++ rest).takeWhile Relaxed.isDateChar).length
  rw [take_takeWhile] at candidate
  have dateWidth : size ((year ++ rest).takeWhile Relaxed.isDateChar) =
      ((year ++ rest).takeWhile Relaxed.isDateChar).length :=
    size_ascii fun _ mem => narrow_isDateChar.ascii (List.mem_takeWhile_imp mem)
  have after := here.behind_takeWhile (· == ' ')
  have uniform : Uniform fun b => !endsValueAfterDate b := fun wide wide' => by
    simp (disch := decide) only [endsValueAfterDate, beq_wide wide, beq_wide wide']
  rw [dateBehind, stop, ok_bind, candidate, ok_bind, dateWidth, here.any_byte? narrow_isNameStart.uniform,
    here.skipWhile_eq (Narrow.uniform (narrow_beq (by decide))), ok_bind, after.any_byte? uniform]
  dsimp only
  rw [endsDate_eq]
  exact checks_eq ..

/-- Where the first bytes are of a class of ASCII characters, they are the first characters. -/
theorem exists_eq_bytes_append {test : Char → Bool} (narrow : Narrow test) {n : Nat} {cs : List Char}
    (within : n ≤ size cs) (all : ((bytes cs).take n).all test = true) : ∃ rest, cs = (bytes cs).take n ++ rest := by
  induction n generalizing cs with
  | zero => exact ⟨cs, by rw [List.take_zero, List.nil_append]⟩
  | succ n ih =>
    cases cs with
    | nil => exact absurd within (Nat.not_succ_le_zero n)
    | cons c cs =>
      by_cases ascii : Ascii c
      · rw [bytes_cons_ascii ascii, List.take_succ_cons, List.all_cons, Bool.and_eq_true] at all
        rw [size_cons, ascii.utf8Size_eq, Nat.add_comm 1] at within
        obtain ⟨rest, split⟩ := ih (Nat.le_of_succ_le_succ within) all.2
        refine ⟨rest, ?_⟩
        rw [bytes_cons_ascii ascii, List.take_succ_cons, List.cons_append, ← split]
      · obtain ⟨b, tail, first, wide⟩ := bytes_cons_wide ascii cs
        rw [first, List.take_succ_cons, List.all_cons, narrow wide] at all
        cases all

theorem isDate_mark {date : List Char} (h : Relaxed.isDate date = true) :
    ∃ mark, date[4]? = some mark ∧ isDateMark mark = true := by
  obtain ⟨month, day, rest, year, part, -⟩ := Relaxed.isDate_cases h
  obtain ⟨mark, digits, rfl, marks, -⟩ := Relaxed.dropDatePart_eq_some part
  simp only [Relaxed.dropDigits] at year
  split at year
  case isTrue => cases year
  case isFalse enough =>
    have most := (List.takeWhile_sublist Text.isDecimalDigit (l := date.take 4)).length_le
    have four : ((date.take 4).takeWhile Text.isDecimalDigit).length = 4 := by
      rw [List.length_take] at most
      omega
    rw [four] at year
    refine ⟨mark, ?_, ?_⟩
    · rw [← List.head?_drop, Option.some.inj year]
      rfl
    · simp only [List.mem_cons, List.not_mem_nil, or_false] at marks
      rcases marks with rfl | rfl | rfl <;> rfl

theorem isDateChar_of_isDigit (digit : c.isDigit = true) : Relaxed.isDateChar c = true := by
  simp [Relaxed.isDateChar, digit]

theorem isDateChar_of_isDateMark (mark : isDateMark c = true) : Relaxed.isDateChar c = true := by
  simp only [isDateMark, Bool.or_eq_true, beq_iff_eq] at mark
  rcases mark with (rfl | rfl) | rfl <;> rfl

/-- A date that is read starts with the bytes that are looked at first. -/
theorem bareDate?_bytes {date : List Char} (h : Relaxed.bareDate? cs = some date) : 8 ≤ size cs ∧
    ((bytes cs).take 4).all Char.isDigit = true ∧ ∃ mark, (bytes cs)[4]? = some mark ∧ isDateMark mark = true := by
  obtain ⟨isDate, -, rfl⟩ := Relaxed.isDate_of_bareDate? h
  simp only [Relaxed.bareDate?] at h
  split at h
  case isFalse => cases h
  case isTrue conditions =>
    simp only [Bool.and_eq_true, decide_eq_true_eq] at conditions
    obtain ⟨⟨⟨⟨digits, long⟩, -⟩, -⟩, -⟩ := conditions
    have split := List.takeWhile_append_dropWhile (p := Relaxed.isDateChar) (l := cs)
    have held : bytes cs = cs.takeWhile Relaxed.isDateChar ++ bytes (cs.dropWhile Relaxed.isDateChar) := by
      rw [← bytes_ascii fun c mem => narrow_isDateChar.ascii (List.mem_takeWhile_imp mem), ← bytes_append, split]
    obtain ⟨mark, fifth, isMark⟩ := isDate_mark isDate
    refine ⟨?_, ?_, mark, ?_, isMark⟩
    · rw [size, held, List.length_append]
      omega
    · rw [held, List.take_append_of_le_length (by omega)]
      rwa [← split, List.take_append_of_le_length (by omega)] at digits
    · rw [held, List.getElem?_append_left (by omega), fifth]

theorem At.dateBehind_bareDate? (h : At text p cs) (long : 5 ≤ size cs)
    (digits : ((bytes cs).take 4).all Char.isDigit = true) {mark : Char} (held : (bytes cs)[4]? = some mark)
    (isMark : isDateMark mark = true) : dateBehind text p =
      .ok ((Relaxed.bareDate? cs).map fun date => ('"' :: (date ++ ['"']), Bytewise.ahead p cs date.length)) := by
  -- All five bytes are ASCII, so a slice from the start cuts no character and the lengths are those in characters.
  have first : (bytes cs).take 5 = (bytes cs).take 4 ++ [mark] := by
    rw [List.take_add_one, held, Option.toList_some]
  have dateChars : ∀ c ∈ (bytes cs).take 5, Relaxed.isDateChar c = true := by
    rw [first]
    intro c mem
    rcases List.mem_append.1 mem with mem | mem
    · exact isDateChar_of_isDigit (List.all_eq_true.1 digits c mem)
    · exact isDateChar_of_isDateMark (List.mem_singleton.1 mem ▸ isMark)
  have length : ((bytes cs).take 5).length = 5 := List.length_take_of_le long
  obtain ⟨rest, split⟩ := exists_eq_bytes_append narrow_isDateChar long (List.all_eq_true.2 dateChars)
  have read := At.dateBehind_eq (split ▸ h) length dateChars
  have year : (cs.take 4).all Char.isDigit = true := by
    rw [split, List.take_append_of_le_length (by omega), List.take_take]
    exact digits
  rw [← split] at read
  refine read.trans ?_
  rw [Relaxed.bareDate?]
  dsimp only
  rw [year, Bool.true_and, apply_ite (Option.map _)]
  rfl

theorem At.tryReadDate_eq (h : At text p cs) : tryReadDate text false p =
    .ok ((Relaxed.bareDate? cs).map fun date => ('"' :: (date ++ ['"']), Bytewise.ahead p cs date.length)) := by
  have whole := h.size_eq
  rw [tryReadDate, if_neg Bool.false_ne_true]
  by_cases short : size text ≤ p + 6
  · rw [if_pos short]
    cases found : Relaxed.bareDate? cs with
    | none => rfl
    | some date =>
      have long := (bareDate?_bytes found).1
      omega
  · obtain ⟨mark, held⟩ : ∃ mark, (bytes cs)[4]? = some mark := by
      have inside : 4 < (bytes cs).length := by
        rw [← size]
        omega
      exact ⟨_, List.getElem?_eq_getElem inside⟩
    have year : bytesBetween text p (p + 4) = .ok ((bytes cs).take 4) := by
      rw [bytesBetween, if_pos (by omega), h.bytes_drop, Nat.add_sub_cancel_left]
    have byte : byte? text (p + 4) = some mark := (h.byte?_eq 4).trans held
    rw [if_neg short, year, ok_bind, byteAt_of_byte? byte, ok_bind]
    cases opens : ((bytes cs).take 4).all Char.isDigit && isDateMark mark with
    | false =>
      rw [← Bool.not_and, opens]
      cases found : Relaxed.bareDate? cs with
      | none => rfl
      | some date =>
        obtain ⟨-, digits, mark', held', isMark⟩ := bareDate?_bytes found
        cases held.symm.trans held'
        rw [digits, isMark] at opens
        cases opens
    | true =>
      obtain ⟨digits, isMark⟩ := Bool.and_eq_true_iff.1 opens
      rw [digits, isMark]
      exact h.dateBehind_bareDate? (by omega) digits held isMark

end ExactFormula.Bytewise
