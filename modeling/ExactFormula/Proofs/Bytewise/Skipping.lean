import ExactFormula.Proofs.Bytewise.Position
import ExactFormula.Proofs.Relaxed.Normalizing

/-!
Bytewise scans over runs of characters of one class, quotations and comments. Each of them stops where the scan by
characters does.
-/

namespace ExactFormula.Bytewise

/-! ## Classes of bytes -/

/-- A class of ASCII characters. -/
def Narrow (test : Char → Bool) : Prop := ∀ {b}, ¬Ascii b → test b = false

/-- A class that does not tell characters outside ASCII apart. -/
def Uniform (test : Char → Bool) : Prop := ∀ {b c}, ¬Ascii b → ¬Ascii c → test b = test c

theorem Narrow.uniform {test : Char → Bool} (h : Narrow test) : Uniform test :=
  fun wide wide' => (h wide).trans (h wide').symm

/-- A character and its first byte, which are the same in ASCII. -/
theorem Narrow.same {test : Char → Bool} (narrow : Narrow test) {b c : Char} (first : b = c ∨ ¬Ascii b ∧ ¬Ascii c) :
    test b = test c := by
  rcases first with rfl | ⟨wide, wide'⟩
  · rfl
  · rw [narrow wide, narrow wide']

theorem Narrow.ascii {test : Char → Bool} (narrow : Narrow test) {c : Char} (h : test c = true) : Ascii c :=
  Decidable.not_not.1 fun wide => by
    rw [narrow wide] at h
    cases h

theorem narrow_beq {a : Char} (ascii : Ascii a) : Narrow (· == a) :=
  fun wide => beq_eq_false_iff_ne.2 fun same => wide (same ▸ ascii)

theorem beq_wide {b : Char} (wide : ¬Ascii b) {a : Char} (ascii : Ascii a) : (b == a) = false :=
  narrow_beq ascii wide

theorem narrow_isSpace : Narrow Relaxed.isSpace := fun wide => by
  simp (disch := decide) only [Relaxed.isSpace, beq_wide wide, Bool.or_self]

theorem narrow_isStructural : Narrow Relaxed.isStructural := fun wide => by
  simp (disch := decide) only [Relaxed.isStructural, beq_wide wide, Bool.or_self]

theorem narrow_isQuote : Narrow Text.isQuote := fun wide => by
  simp (disch := decide) only [Text.isQuote, beq_wide wide, Bool.or_self]

theorem narrow_isDigit : Narrow Char.isDigit := fun {b} wide => by
  have large : 0x80 ≤ b.toNat := Nat.not_lt.1 wide
  simp [Char.isDigit, UInt32.le_iff_toNat_le]
  omega

theorem narrow_isAlpha : Narrow Char.isAlpha := fun wide => Bool.eq_false_iff.2 fun letter => wide (by
  rcases Bool.or_eq_true_iff.1 letter with upper | lower
  · exact Nat.lt_of_le_of_lt (UInt32.le_iff_toNat_le.1 (of_decide_eq_true upper).2) (by decide)
  · have greatest := of_decide_eq_true (Bool.and_eq_true_iff.1 lower).2
    exact Nat.lt_of_le_of_lt (UInt32.le_iff_toNat_le.1 greatest) (by decide))

theorem narrow_isNameStart : Narrow Relaxed.isNameStart := fun wide => by
  simp (disch := decide) only [Relaxed.isNameStart, narrow_isAlpha wide, beq_wide wide, Bool.or_self]

theorem narrow_isNamePart : Narrow Relaxed.isNamePart := fun wide => by
  rw [Relaxed.isNamePart, narrow_isNameStart wide, narrow_isDigit wide, Bool.or_self]

theorem narrow_isDateChar : Narrow Relaxed.isDateChar := fun wide => by
  simp (disch := decide) only [Relaxed.isDateChar, narrow_isDigit wide, beq_wide wide, Bool.or_self]

variable {text cs : List Char} {c : Char} {p : Nat}

/-- Such a class holds the next byte where it holds the next character. -/
theorem At.any_byte? (h : At text p cs) {test : Char → Bool} (uniform : Uniform test) :
    (byte? text p).any test = cs.head?.any test := by
  cases cs with
  | nil =>
    have ended : byte? text p = none := List.getElem?_eq_none (Nat.le_of_eq h.size_of_nil)
    rw [ended]
    rfl
  | cons c cs =>
    obtain ⟨b, byte, rfl | ⟨wide, wide'⟩⟩ := h.exists_byte
    · rw [byte]
      rfl
    · rw [byte, List.head?_cons, Option.any_some, Option.any_some, uniform wide wide']

/-! ## Runs of one class -/

def skipWhile (text : List Char) (test : Char → Bool) (p : Nat) : Except Fault Nat :=
  loop text (fun (_ : Unit) k b => if test b then .ok (.next () (k + 1)) else .ok (.done k)) (fun _ k => .ok k) () p

theorem At.skipWhile_eq {test : Char → Bool} (uniform : Uniform test) (h : At text p cs) :
    skipWhile text test p = .ok (Bytewise.ahead p cs (cs.takeWhile test).length) := by
  induction cs generalizing p with
  | nil => exact h.loop_nil
  | cons c cs ih =>
    cases taken : test c with
    | false =>
      obtain ⟨b, byte, same⟩ := h.exists_byte
      have left : test b = false := by
        rcases same with rfl | ⟨wide, wide'⟩
        · exact taken
        · rw [uniform wide wide', taken]
      rw [skipWhile, loop_done byte (by rw [left]; rfl), List.takeWhile_cons, taken]
      rfl
    | true =>
      have next : skipWhile text test p = skipWhile text test (p + c.utf8Size) := by
        by_cases ascii : Ascii c
        · rw [ascii.utf8Size_eq]
          exact loop_next (h.byte?_ascii ascii) (by rw [taken]; rfl) (Nat.lt_succ_self p)
        · exact h.loop_inside ascii (fun k b _ wide => by rw [uniform wide ascii, taken]; rfl) (Nat.zero_le _)
      rw [next, ih h.next, List.takeWhile_cons, taken, if_pos rfl, List.length_cons, ahead_succ]

theorem drop_takeWhile (test : Char → Bool) (cs : List Char) :
    cs.drop (cs.takeWhile test).length = cs.dropWhile test := by
  have left : (cs.takeWhile test ++ cs.dropWhile test).drop (cs.takeWhile test).length = cs.dropWhile test :=
    List.drop_left ..
  rwa [List.takeWhile_append_dropWhile] at left

theorem takeWhile_dropWhile (test : Char → Bool) (cs : List Char) : (cs.dropWhile test).takeWhile test = [] := by
  cases left : cs.dropWhile test with
  | nil => rfl
  | cons d rest =>
    have first := List.head?_dropWhile_not test cs
    rw [left] at first
    exact List.takeWhile_cons_of_neg (by simpa using first)

theorem At.behind_takeWhile (h : At text p cs) (test : Char → Bool) :
    At text (Bytewise.ahead p cs (cs.takeWhile test).length) (cs.dropWhile test) := by
  rw [← drop_takeWhile]
  exact h.ahead _

/-! ## Quotations -/

/-- The loop to the quote that closes; `jump` is where a backslash leads to. -/
def closingLoop (text : List Char) (quote : Char) (jump finish : Nat → Nat) (p : Nat) : Except Fault Nat :=
  loop text (fun (_ : Unit) k b =>
    if b == '\\' then .ok (.next () (jump k))
    else if b == quote then .ok (.done (k + 1))
    else .ok (.next () (k + 1))) (fun _ k => .ok (finish k)) () p

/-- Just past the quotation that opens at a position. -/
def skipQuoted (text : List Char) (p : Nat) : Except Fault Nat := do
  let quote ← byteAt text p
  closingLoop text quote (· + 2) (fun _ => size text) (p + 1)

/-- A backslash leads past the byte behind it where there is one, and else to the end. -/
structure Leads (text : List Char) (jump finish : Nat → Nat) : Prop where
  inside {k : Nat} : k + 1 < size text → jump k = k + 2
  last {k : Nat} : k + 1 = size text → size text ≤ jump k ∧ finish (jump k) = size text
  ended : finish (size text) = size text

theorem At.closingLoop_eq {quote : Char} (ascii : Ascii quote) (other : quote ≠ '\\') {jump finish : Nat → Nat}
    (leads : Leads text jump finish) (h : At text p cs) :
    closingLoop text quote jump finish p = .ok (Bytewise.ahead p cs (Text.quotationLength quote cs)) := by
  have pass : ∀ k b, byte? text k = some b → ¬Ascii b →
      (if b == '\\' then .ok (.next () (jump k))
        else if b == quote then .ok (.done (k + 1)) else .ok (.next () (k + 1)) : Except Fault (Turn Unit Nat)) =
      .ok (.next () (k + 1)) := fun k b _ wide => by
    rw [beq_wide wide (by decide), beq_wide wide ascii]
    rfl
  unfold Text.quotationLength
  fun_induction Text.closingLength? true quote cs generalizing p with
  | case1 =>
    rw [closingLoop, h.loop_nil, ← h.size_of_nil, leads.ended]
    rfl
  | case2 c escape =>
    obtain rfl : c = '\\' := by simpa using escape
    have ended : p + 1 = size text := by rw [h.size_eq]; rfl
    obtain ⟨past, finish⟩ := leads.last ended
    rw [closingLoop, loop_next (h.byte?_ascii (by decide)) rfl (by omega), loop_finish past, finish, ← ended]
    rfl
  | case3 c escape d cs ih =>
    obtain rfl : c = '\\' := by simpa using escape
    have behind : At text (p + 1) (d :: cs) := h.next
    have inside : jump p = p + 1 + 1 := leads.inside behind.lt
    have positive := d.utf8Size_pos
    -- The backslash leads past one byte of `d` only. What is left of `d` is outside ASCII and closes nothing.
    have next : closingLoop text quote jump finish p = closingLoop text quote jump finish (p + 1 + d.utf8Size) := by
      rw [closingLoop, loop_next (h.byte?_ascii (by decide)) rfl (by omega), inside]
      by_cases narrow : Ascii d
      · rw [narrow.utf8Size_eq]
        rfl
      · exact behind.loop_inside narrow pass positive
    rw [next, ih behind.next, List.length_cons, List.length_cons, Option.getD_map (· + 2), ahead_succ, ahead_succ]
    rfl
  | case4 c cs escape close =>
    obtain rfl : c = quote := by simpa using close
    have closes : closingLoop text c jump finish p = .ok (p + 1) :=
      loop_done (h.byte?_ascii ascii) (by simp [other])
    rw [closes, Option.getD_some, ahead_succ, ascii.utf8Size_eq]
    rfl
  | case5 c cs escape close ih =>
    have first : c ≠ '\\' ∧ c ≠ quote := by simpa using And.intro escape close
    rw [closingLoop, h.loop_pass (fun _ => by simp [first]) pass, List.length_cons, Option.getD_map (· + 1), ahead_succ]
    exact ih h.next

/-- The quotation that opens at a position ends where the scan by characters says. -/
theorem At.skipQuoted_eq (h : At text p (c :: cs)) (quote : Text.isQuote c = true) :
    skipQuoted text p = .ok (Bytewise.ahead p (c :: cs) (Text.quotationLength c cs + 1)) := by
  have facts : Ascii c ∧ c ≠ '\\' := by rcases Text.isQuote_cases quote with rfl | rfl | rfl <;> decide
  have next : At text (p + 1) cs := facts.1.utf8Size_eq ▸ h.next
  have leads : Leads text (· + 2) (fun _ => size text) := {
    inside := fun _ => rfl
    last := fun last => ⟨last ▸ Nat.le_succ _, rfl⟩
    ended := rfl }
  rw [skipQuoted, byteAt_of_byte? (h.byte?_ascii facts.1), ahead_succ, facts.1.utf8Size_eq]
  exact next.closingLoop_eq facts.1 facts.2 leads

/-! ## Comments -/

def atComment (text : List Char) (p : Nat) : Except Fault Bool := do
  let b ← byteAt text p
  return b == '/' && (byte? text (p + 1)).any fun d => d == '/' || d == '*'

/-- Just past the closing of a block comment. The last byte of the text opens no closing. -/
def blockEnd (text : List Char) (p : Nat) : Except Fault Nat :=
  loop text (fun (_ : Unit) k b =>
    if b == '*' && k + 1 < size text then do
      let d ← byteAt text (k + 1)
      if d == '/' then return .done (k + 2) else return .next () (k + 1)
    else .ok (.next () (k + 1))) (fun _ _ => .ok (size text)) () p

def skipComment (text : List Char) (p : Nat) : Except Fault Nat := do
  let b ← byteAt text (p + 1)
  if b == '*' then blockEnd text (p + 2) else skipWhile text (· != '\n') (p + 2)

/-- Spaces, and a comment behind them if there is one. -/
def gapTurn (text : List Char) (_ : Unit) (k : Nat) (_ : Char) : Except Fault (Turn Unit Nat) := do
  let q ← skipWhile text Relaxed.isSpace k
  if q < size text then
    if ← atComment text q then return .next () (← skipComment text q) else return .done q
  else return .done q

def skipGap (text : List Char) (p : Nat) : Except Fault Nat :=
  loop text (gapTurn text) (fun _ k => .ok k) () p

theorem atComment_of_byte? {b : Char} (byte : byte? text p = some b) :
    atComment text p = .ok (b == '/' && (byte? text (p + 1)).any fun d => d == '/' || d == '*') := by
  rw [atComment, byteAt_of_byte? byte]
  rfl

theorem narrow_opens : Narrow fun d => d == '/' || d == '*' := fun wide => by
  simp (disch := decide) only [beq_wide wide, Bool.or_self]

theorem At.atComment_eq (h : At text p (c :: cs)) :
    atComment text p = .ok (c == '/' && Relaxed.opensComment cs) := by
  obtain ⟨b, byte, same⟩ := h.exists_byte
  rw [atComment_of_byte? byte]
  rcases same with rfl | ⟨wide, wide'⟩
  · by_cases slash : b = '/'
    · subst slash
      have opens : cs.head?.any (fun d => d == '/' || d == '*') = Relaxed.opensComment cs := by cases cs <;> rfl
      rw [← opens, ← At.any_byte? h.next (Narrow.uniform narrow_opens)]
      rfl
    · rw [beq_eq_false_iff_ne.2 slash, Bool.false_and, Bool.false_and]
  · rw [beq_wide wide (by decide), beq_wide wide' (by decide), Bool.false_and, Bool.false_and]

theorem At.blockEnd_eq (h : At text p cs) :
    blockEnd text p = .ok (Bytewise.ahead p cs (Relaxed.blockLength cs)) := by
  fun_induction Relaxed.blockLength cs generalizing p with
  | case1 =>
    rw [blockEnd, h.loop_nil, h.size_of_nil]
    rfl
  | case2 c cs closes =>
    obtain ⟨rfl, slash⟩ : c = '*' ∧ cs.head? = some '/' := by simpa using closes
    obtain ⟨cs, rfl⟩ : ∃ ds, cs = '/' :: ds := by
      cases cs with
      | nil => cases slash
      | cons d ds => exact ⟨ds, by cases slash; rfl⟩
    have next : At text (p + 1) ('/' :: cs) := h.next
    have closed : blockEnd text p = .ok (p + 2) := loop_done (h.byte?_ascii (by decide)) (by
      simp [next.lt, byteAt_of_byte? (next.byte?_ascii (by decide))])
    rw [closed]
    rfl
  | case3 c cs goesOn ih =>
    rw [blockEnd, h.loop_pass (fun _ => ?_) (fun k b _ wide => ?_), ahead_succ]
    · exact ih h.next
    · by_cases star : c = '*'
      · subst star
        have next : At text (p + 1) cs := h.next
        have unclosed : (byte? text (p + 1)).any (· == '/') = false := by
          rw [next.any_byte? (Narrow.uniform (narrow_beq (by decide)))]
          cases cs <;> simp_all
        cases byte : byte? text (p + 1) with
        | none =>
          have ended : ¬p + 1 < size text := Nat.not_lt.2 (List.getElem?_eq_none_iff.1 byte)
          simp [ended]
        | some d =>
          have other : d ≠ '/' := by simpa [byte] using unclosed
          simp [lt_size_of_byte? byte, byteAt_of_byte? byte, other]
      · simp [star]
    · rw [beq_wide wide (by decide)]
      rfl

theorem At.skipComment_eq (h : At text p ('/' :: cs)) (opens : Relaxed.opensComment cs = true) :
    skipComment text p = .ok (Bytewise.ahead p ('/' :: cs) (Relaxed.commentLength cs + 1)) := by
  have next : At text (p + 1) cs := h.next
  cases cs with
  | nil => cases opens
  | cons c cs =>
    have kind : c = '/' ∨ c = '*' := by simpa [Relaxed.opensComment] using opens
    rcases kind with rfl | rfl
    · have behind : At text (p + 2) cs := next.next
      have uniform : Uniform (· != '\n') := fun wide wide' => by
        simp only [bne, beq_wide wide (a := '\n') (by decide), beq_wide wide' (a := '\n') (by decide)]
      rw [skipComment, byteAt_of_byte? (next.byte?_ascii (by decide)), ok_bind, if_neg (by decide),
        behind.skipWhile_eq uniform]
      have length : Relaxed.commentLength ('/' :: cs) = (cs.takeWhile (· != '\n')).length + 1 := rfl
      rw [length, ahead_succ, ahead_succ]
      rfl
    · have behind : At text (p + 2) cs := next.next
      rw [skipComment, byteAt_of_byte? (next.byte?_ascii (by decide)), ok_bind, if_pos (by decide), behind.blockEnd_eq,
        Relaxed.commentLength, ahead_succ, ahead_succ]
      rfl

section Gaps

variable {spaces rest : List Char} (blank : ∀ d ∈ spaces, Relaxed.isSpace d = true)
include blank

theorem At.skipSpaces_eq (h : At text p (spaces ++ rest)) (ends : rest.head?.any Relaxed.isSpace = false) :
    skipWhile text Relaxed.isSpace p = .ok (p + size spaces) := by
  have taken : rest.takeWhile Relaxed.isSpace = [] := by
    cases rest with
    | nil => rfl
    | cons d ds => exact List.takeWhile_cons_of_neg (Bool.eq_false_iff.1 ends)
  rw [h.skipWhile_eq narrow_isSpace.uniform, List.takeWhile_append_of_pos blank, taken, List.append_nil, ahead_append]

theorem At.gapTurn_comment (h : At text p (spaces ++ '/' :: cs)) (opens : Relaxed.opensComment cs = true) (b : Char) :
    gapTurn text () p b =
      .ok (.next () (Bytewise.ahead (p + size spaces) ('/' :: cs) (Relaxed.commentLength cs + 1))) := by
  have behind := h.append
  rw [gapTurn, h.skipSpaces_eq blank rfl, ok_bind, if_pos behind.lt, behind.atComment_eq, opens, Bool.and_true,
    ok_bind, if_pos (beq_self_eq_true _), behind.skipComment_eq opens]
  rfl

theorem At.gapTurn_done (h : At text p (spaces ++ rest))
    (ends : ∀ c cs, rest = c :: cs → Relaxed.isSpace c = false ∧ (c == '/' && Relaxed.opensComment cs) = false)
    (b : Char) : gapTurn text () p b = .ok (.done (p + size spaces)) := by
  have behind := h.append
  cases rest with
  | nil =>
    rw [gapTurn, h.skipSpaces_eq blank rfl, ok_bind, if_neg (Nat.not_lt.2 (Nat.le_of_eq behind.size_of_nil))]
    rfl
  | cons c cs =>
    obtain ⟨space, comment⟩ := ends c cs rfl
    rw [gapTurn, h.skipSpaces_eq blank space, ok_bind, if_pos behind.lt, behind.atComment_eq, comment]
    rfl

end Gaps

theorem At.skipGap_eq {p : Nat} {cs : List Char} (h : At text p cs) :
    skipGap text p = .ok (Bytewise.ahead p cs (Relaxed.gapLength 0 cs)) := by
  match cs, h with
  | [], h => exact h.loop_nil
  | c :: cs, h =>
    obtain ⟨b, byte, -⟩ := h.exists_byte
    have split := List.takeWhile_append_dropWhile (p := Relaxed.isSpace) (l := c :: cs)
    have blank : ∀ d ∈ (c :: cs).takeWhile Relaxed.isSpace, Relaxed.isSpace d = true := fun d => List.mem_takeWhile_imp
    have ends := List.head?_dropWhile_not Relaxed.isSpace (c :: cs)
    generalize (c :: cs).takeWhile Relaxed.isSpace = spaces at split blank
    generalize (c :: cs).dropWhile Relaxed.isSpace = rest at split ends
    have long := congrArg List.length split
    rw [← split] at h ⊢
    rw [Relaxed.gapLength_spaces blank, ahead_add, ahead_append, List.drop_left]
    cases rest with
    | nil => exact loop_done byte (h.gapTurn_done blank (fun _ _ same => by cases same) b)
    | cons d ds =>
      have space : Relaxed.isSpace d = false := by simpa using ends
      cases comment : d == '/' && Relaxed.opensComment ds with
      | true =>
        obtain ⟨slash, opens⟩ := Bool.and_eq_true_iff.1 comment
        obtain rfl : d = '/' := beq_iff_eq.1 slash
        have next := h.append.ahead (Relaxed.commentLength ds + 1)
        have onward := Nat.lt_of_le_of_lt (Nat.le_add_right p (size spaces))
          (lt_ahead _ '/' ds (Relaxed.commentLength ds))
        refine (loop_next byte (h.gapTurn_comment blank opens b) onward).trans (next.skipGap_eq.trans ?_)
        rw [Relaxed.gapLength, space, if_neg Bool.false_ne_true, if_pos comment, List.drop_succ_cons, ahead_succ,
          ahead_succ]
        exact congrArg Except.ok (ahead_skip (fun _ => rfl) (fun _ _ _ => rfl) ..).symm
      | false =>
        rw [Relaxed.gapLength, space, if_neg Bool.false_ne_true, comment]
        exact loop_done byte (h.gapTurn_done blank (fun _ _ same => by cases same; exact ⟨space, comment⟩) b)
termination_by cs.length
decreasing_by
  rw [List.length_append, List.length_cons] at long
  rw [List.drop_succ_cons, List.length_drop]
  omega

end ExactFormula.Bytewise
