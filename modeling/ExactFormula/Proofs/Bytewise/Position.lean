import Mathlib.Data.List.Basic

/-!
Scans of a text by the bytes of its UTF-8. A position is a count of bytes, so it may lie past the end or inside a
character; what a scan must not do there is a fault.
-/

namespace ExactFormula.Bytewise

/-! ## Bytes -/

/-- The bytes of a text, each seen as the character of its code. -/
def bytes (cs : List Char) : List Char := cs.flatMap fun c => (String.utf8EncodeChar c).map Char.ofUInt8

def size (cs : List Char) : Nat := (bytes cs).length

def Ascii (c : Char) : Prop := c.toNat < 0x80

instance (c : Char) : Decidable (Ascii c) := inferInstanceAs (Decidable (_ < _))

theorem toNat_ofUInt8 (b : UInt8) : (Char.ofUInt8 b).toNat = b.toNat := UInt8.toNat_toUInt32 b

theorem utf8EncodeChar_ascii {c : Char} (ascii : Ascii c) :
    (String.utf8EncodeChar c).map Char.ofUInt8 = [c] := by
  have small : c.val.toNat ≤ 127 := Nat.le_of_lt_succ ascii
  have same : (Char.ofUInt8 (UInt8.ofNat c.val.toNat)).toNat = c.toNat := by
    rw [toNat_ofUInt8, UInt8.toNat_ofNat']
    exact Nat.mod_eq_of_lt (by omega)
  rw [String.utf8EncodeChar, if_pos small, List.map_singleton, Char.toNat_inj.1 same]

/-- Every byte of a character that takes several is outside ASCII. -/
theorem utf8EncodeChar_wide {c b : Char} (wide : ¬Ascii c)
    (mem : b ∈ (String.utf8EncodeChar c).map Char.ofUInt8) : ¬Ascii b := by
  have large : ¬c.val.toNat ≤ 127 := fun small => wide (Nat.lt_succ_of_le small)
  have high : ∀ u ∈ String.utf8EncodeChar c, 0x80 ≤ u.toNat := by
    rw [String.utf8EncodeChar, if_neg large]
    split_ifs <;> simp only [List.forall_mem_cons, UInt8.toNat_ofNat'] <;> refine ⟨by omega, ?_⟩
    · exact ⟨by omega, List.forall_mem_nil _⟩
    · exact ⟨by omega, by omega, List.forall_mem_nil _⟩
    · exact ⟨by omega, by omega, by omega, List.forall_mem_nil _⟩
  obtain ⟨u, held, rfl⟩ := List.mem_map.1 mem
  rw [Ascii, toNat_ofUInt8]
  exact Nat.not_lt.2 (high u held)

theorem bytes_append (xs ys : List Char) : bytes (xs ++ ys) = bytes xs ++ bytes ys := List.flatMap_append

@[simp] theorem size_nil : size [] = 0 := rfl

@[simp] theorem size_append (xs ys : List Char) : size (xs ++ ys) = size xs + size ys := by
  rw [size, bytes_append, List.length_append, size, size]

@[simp] theorem size_cons (c : Char) (cs : List Char) : size (c :: cs) = c.utf8Size + size cs := by
  rw [← List.singleton_append, size_append, size, bytes, List.flatMap_singleton, List.length_map,
    String.length_utf8EncodeChar]

theorem Ascii.utf8Size_eq {c : Char} (ascii : Ascii c) : c.utf8Size = 1 := by
  have encoded := congrArg List.length (utf8EncodeChar_ascii ascii)
  rwa [List.length_map, String.length_utf8EncodeChar] at encoded

theorem size_ascii {cs : List Char} (ascii : ∀ c ∈ cs, Ascii c) : size cs = cs.length := by
  induction cs with
  | nil => rfl
  | cons c cs ih =>
    obtain ⟨first, ascii⟩ := List.forall_mem_cons.1 ascii
    rw [size_cons, first.utf8Size_eq, ih ascii, List.length_cons, Nat.add_comm]

theorem bytes_cons_ascii {c : Char} (ascii : Ascii c) (cs : List Char) : bytes (c :: cs) = c :: bytes cs := by
  rw [bytes, List.flatMap_cons, utf8EncodeChar_ascii ascii, List.singleton_append, bytes]

theorem bytes_cons_wide {c : Char} (wide : ¬Ascii c) (cs : List Char) :
    ∃ b rest, bytes (c :: cs) = b :: rest ∧ ¬Ascii b := by
  have nonempty : (String.utf8EncodeChar c).map Char.ofUInt8 ≠ [] := List.ne_nil_of_length_pos (by
    rw [List.length_map, String.length_utf8EncodeChar]
    exact c.utf8Size_pos)
  obtain ⟨b, tail, first⟩ := List.exists_cons_of_ne_nil nonempty
  refine ⟨b, tail ++ bytes cs, ?_, utf8EncodeChar_wide wide (first ▸ List.mem_cons_self)⟩
  rw [bytes, List.flatMap_cons, first, List.cons_append, bytes]

theorem bytes_ascii {cs : List Char} (ascii : ∀ c ∈ cs, Ascii c) : bytes cs = cs := by
  induction cs with
  | nil => rfl
  | cons c cs ih =>
    obtain ⟨first, ascii⟩ := List.forall_mem_cons.1 ascii
    rw [bytes_cons_ascii first, ih ascii]

/-! ## Faults -/

/-- Why a scan breaks off: a byte or a piece of the text is asked for that the text does not have, a piece would begin
or end inside a character, or a loop comes round without having moved on. -/
inductive Fault
  | pastEnd
  | insideCharacter
  | stalled
  deriving DecidableEq, Repr

@[simp] theorem ok_bind {α β : Type} (a : α) (f : α → Except Fault β) : (Except.ok a >>= f) = f a := rfl

@[simp] theorem pure_eq_ok {α : Type} (a : α) : (pure a : Except Fault α) = .ok a := rfl

section Access

variable (text : List Char)

def byte? (p : Nat) : Option Char := (bytes text)[p]?

def byteAt (p : Nat) : Except Fault Char :=
  match byte? text p with
  | some b => .ok b
  | none => .error .pastEnd

def bytesBetween (p q : Nat) : Except Fault (List Char) :=
  if p ≤ q ∧ q ≤ size text then .ok (((bytes text).drop p).take (q - p)) else .error .pastEnd

end Access

/-- The characters behind the first bytes of a text. -/
def dropBytes : Nat → List Char → Except Fault (List Char)
  | 0, cs => .ok cs
  | _ + 1, [] => .error .pastEnd
  | n + 1, c :: cs => if n + 1 < c.utf8Size then .error .insideCharacter else dropBytes (n + 1 - c.utf8Size) cs

/-- The characters that the first bytes of a text make up. -/
def takeBytes : Nat → List Char → Except Fault (List Char)
  | 0, _ => .ok []
  | _ + 1, [] => .error .pastEnd
  | n + 1, c :: cs =>
    if n + 1 < c.utf8Size then .error .insideCharacter else (takeBytes (n + 1 - c.utf8Size) cs).map (c :: ·)

/-- The text between two positions. -/
def slice (text : List Char) (p q : Nat) : Except Fault (List Char) :=
  if p ≤ q then (dropBytes p text).bind (takeBytes (q - p)) else .error .pastEnd

theorem dropBytes_cons (c : Char) (n : Nat) (cs : List Char) :
    dropBytes (c.utf8Size + n) (c :: cs) = dropBytes n cs := by
  obtain ⟨k, positive⟩ : ∃ k, c.utf8Size + n = k + 1 := Nat.exists_eq_add_of_le' (Nat.le_add_right_of_le c.utf8Size_pos)
  have fits : ¬k + 1 < c.utf8Size := by omega
  rw [positive, dropBytes, if_neg fits, ← positive, Nat.add_sub_cancel_left]

theorem takeBytes_cons (c : Char) (n : Nat) (cs : List Char) :
    takeBytes (c.utf8Size + n) (c :: cs) = (takeBytes n cs).map (c :: ·) := by
  obtain ⟨k, positive⟩ : ∃ k, c.utf8Size + n = k + 1 := Nat.exists_eq_add_of_le' (Nat.le_add_right_of_le c.utf8Size_pos)
  have fits : ¬k + 1 < c.utf8Size := by omega
  rw [positive, takeBytes, if_neg fits, ← positive, Nat.add_sub_cancel_left]

/-! ## Loops -/

/-- What one turn of a loop does: it goes on with a state and a position, or it leaves the loop. -/
inductive Turn (σ β : Type)
  | next (state : σ) (position : Nat)
  | done (result : β)

section Loop

variable {σ β : Type}

/-- A loop over the bytes of a text, for as long as the position is before the end. Each turn is given the byte at its
position, and has to move on. -/
def loop (text : List Char) (turn : σ → Nat → Char → Except Fault (Turn σ β)) (finish : σ → Nat → Except Fault β)
    (s : σ) (p : Nat) : Except Fault β :=
  if p < size text then do
    let b ← byteAt text p
    match ← turn s p b with
    | .done result => return result
    | .next t q => if p < q then loop text turn finish t q else .error .stalled
  else finish s p
termination_by size text - p

end Loop

/-! ## Positions between characters -/

/-- The text goes on with these characters at a position, which is between two characters of it. -/
def At (text : List Char) (p : Nat) (rest : List Char) : Prop := ∃ front, text = front ++ rest ∧ size front = p

/-- The position so many characters ahead. -/
def ahead (p : Nat) (cs : List Char) (n : Nat) : Nat := p + size (cs.take n)

theorem ahead_zero (p : Nat) (cs : List Char) : ahead p cs 0 = p := rfl

theorem ahead_succ (p : Nat) (c : Char) (cs : List Char) (n : Nat) :
    ahead p (c :: cs) (n + 1) = ahead (p + c.utf8Size) cs n := by
  rw [ahead, List.take_succ_cons, size_cons, ← Nat.add_assoc, ahead]

theorem ahead_add (p : Nat) (cs : List Char) (m n : Nat) :
    ahead p cs (m + n) = ahead (ahead p cs m) (cs.drop m) n := by
  rw [ahead, ahead, ahead, List.take_add, size_append, Nat.add_assoc]

theorem ahead_append (p : Nat) (xs ys : List Char) : ahead p (xs ++ ys) xs.length = p + size xs := by
  rw [ahead, List.take_left]

/-- A count of characters of which so many are already counted. -/
theorem ahead_skip {count : Nat → List Char → Nat} (ended : ∀ n, count n [] = 0)
    (skip : ∀ n c cs, count (n + 1) (c :: cs) = count n cs + 1) (p n : Nat) (cs : List Char) :
    ahead p cs (count n cs) = ahead (ahead p cs n) (cs.drop n) (count 0 (cs.drop n)) := by
  induction cs generalizing p n with
  | nil => rw [List.drop_nil, ended, ended, ahead_zero, ahead_zero, ahead, List.take_nil, size_nil, Nat.add_zero]
  | cons c cs ih =>
    cases n with
    | zero => rfl
    | succ n => rw [skip, ahead_succ, ahead_succ, ih, List.drop_succ_cons]

theorem le_ahead (p : Nat) (cs : List Char) (n : Nat) : p ≤ ahead p cs n := Nat.le_add_right _ _

theorem lt_ahead (p : Nat) (c : Char) (cs : List Char) (n : Nat) : p < ahead p (c :: cs) (n + 1) := by
  rw [ahead_succ]
  exact Nat.lt_of_lt_of_le (Nat.lt_add_of_pos_right c.utf8Size_pos) (le_ahead _ _ _)

variable {text rest cs xs ys : List Char} {c : Char} {p : Nat}

theorem At.start (text : List Char) : At text 0 text := ⟨[], rfl, rfl⟩

theorem At.append (h : At text p (xs ++ ys)) : At text (p + size xs) ys := by
  obtain ⟨front, rfl, rfl⟩ := h
  exact ⟨front ++ xs, (List.append_assoc ..).symm, size_append ..⟩

theorem At.next (h : At text p (c :: cs)) : At text (p + c.utf8Size) cs := by
  have next : At text (p + size [c]) cs := At.append h
  rwa [size_cons, size_nil, Nat.add_zero] at next

theorem At.ahead (h : At text p cs) (n : Nat) : At text (ahead p cs n) (cs.drop n) := by
  rw [← List.take_append_drop n cs] at h
  exact h.append

theorem At.size_eq (h : At text p rest) : size text = p + size rest := by
  obtain ⟨front, rfl, rfl⟩ := h
  exact size_append ..

theorem At.size_of_nil (h : At text p []) : size text = p := h.size_eq

theorem At.lt (h : At text p (c :: cs)) : p < size text := by
  have positive := c.utf8Size_pos
  rw [h.size_eq, size_cons]
  omega

theorem At.bytes_drop (h : At text p rest) : (bytes text).drop p = bytes rest := by
  obtain ⟨front, rfl, rfl⟩ := h
  rw [bytes_append, size, List.drop_left]

theorem At.byte?_eq (h : At text p rest) (k : Nat) : byte? text (p + k) = (bytes rest)[k]? := by
  rw [byte?, ← h.bytes_drop, List.getElem?_drop]

theorem At.byte?_ascii (h : At text p (c :: cs)) (ascii : Ascii c) : byte? text p = some c := by
  rw [← Nat.add_zero p, h.byte?_eq, bytes_cons_ascii ascii]
  rfl

theorem At.byte?_wide (h : At text p (c :: cs)) (wide : ¬Ascii c) {k : Nat} (inside : k < c.utf8Size) :
    ∃ b, byte? text (p + k) = some b ∧ ¬Ascii b := by
  have held : k < ((String.utf8EncodeChar c).map Char.ofUInt8).length := by
    rwa [List.length_map, String.length_utf8EncodeChar]
  refine ⟨_, ?_, utf8EncodeChar_wide wide (List.getElem_mem held)⟩
  rw [h.byte?_eq, bytes, List.flatMap_cons, List.getElem?_append_left held, List.getElem?_eq_getElem held]

/-- Where a character starts, its first byte stands. -/
theorem At.exists_byte (h : At text p (c :: cs)) : ∃ b, byte? text p = some b ∧ (b = c ∨ ¬Ascii b ∧ ¬Ascii c) := by
  by_cases ascii : Ascii c
  · exact ⟨c, h.byte?_ascii ascii, .inl rfl⟩
  · obtain ⟨b, byte, wide⟩ := h.byte?_wide ascii c.utf8Size_pos
    exact ⟨b, byte, .inr ⟨wide, ascii⟩⟩

theorem dropBytes_eq_ok_iff {n : Nat} {cs rest : List Char} : dropBytes n cs = .ok rest ↔ At cs n rest := by
  constructor
  · intro dropped
    fun_induction dropBytes n cs with
    | case1 cs =>
      obtain rfl : cs = rest := Except.ok.inj dropped
      exact .start cs
    | case2 => cases dropped
    | case3 => cases dropped
    | case4 n c cs fits ih =>
      obtain ⟨front, rfl, sized⟩ := ih dropped
      exact ⟨c :: front, rfl, by rw [size_cons, sized]; omega⟩
  · rintro ⟨front, rfl, rfl⟩
    induction front with
    | nil => rw [size_nil, List.nil_append, dropBytes]
    | cons c front ih => rw [size_cons, List.cons_append, dropBytes_cons, ih]

theorem takeBytes_eq_ok_iff {n : Nat} {cs piece : List Char} :
    takeBytes n cs = .ok piece ↔ ∃ back, cs = piece ++ back ∧ size piece = n := by
  constructor
  · intro taken
    fun_induction takeBytes n cs generalizing piece with
    | case1 cs =>
      obtain rfl : [] = piece := Except.ok.inj taken
      exact ⟨cs, rfl, rfl⟩
    | case2 => cases taken
    | case3 => cases taken
    | case4 n c cs fits ih =>
      cases behind : takeBytes (n + 1 - c.utf8Size) cs with
      | error => rw [behind] at taken; cases taken
      | ok front =>
        rw [behind] at taken
        obtain rfl : c :: front = piece := Except.ok.inj taken
        obtain ⟨back, rfl, sized⟩ := ih behind
        exact ⟨back, rfl, by rw [size_cons, sized]; omega⟩
  · rintro ⟨back, rfl, rfl⟩
    induction piece with
    | nil => rw [size_nil, takeBytes]
    | cons c piece ih => rw [size_cons, List.cons_append, takeBytes_cons, ih, Except.map]

/-- A slice is without fault just where both its ends are between characters of the text, in their order. -/
theorem slice_eq_ok_iff {p q : Nat} {piece : List Char} :
    slice text p q = .ok piece ↔ p + size piece = q ∧ ∃ back, At text p (piece ++ back) := by
  constructor
  · intro sliced
    rw [slice] at sliced
    split_ifs at sliced with order
    cases dropped : dropBytes p text with
    | error => rw [dropped] at sliced; cases sliced
    | ok rest =>
      rw [dropped] at sliced
      obtain ⟨back, rfl, sized⟩ := takeBytes_eq_ok_iff.1 sliced
      exact ⟨by omega, back, dropBytes_eq_ok_iff.1 dropped⟩
  · rintro ⟨rfl, back, h⟩
    rw [slice, if_pos (Nat.le_add_right ..), dropBytes_eq_ok_iff.2 h, Except.bind, Nat.add_sub_cancel_left]
    exact takeBytes_eq_ok_iff.2 ⟨back, rfl, rfl⟩

example : slice ['é'] 1 2 = .error .insideCharacter := by decide

theorem At.slice_append (h : At text p (xs ++ ys)) : slice text p (p + size xs) = .ok xs :=
  slice_eq_ok_iff.2 ⟨rfl, ys, h⟩

theorem At.slice_ahead (h : At text p cs) (n : Nat) : slice text p (Bytewise.ahead p cs n) = .ok (cs.take n) := by
  rw [← List.take_append_drop n cs] at h
  exact h.slice_append

theorem At.slice_head (h : At text p (c :: cs)) : slice text p (p + c.utf8Size) = .ok [c] := by
  have first := h.slice_ahead 1
  rwa [ahead_succ, ahead_zero] at first

theorem At.slice_rest (h : At text p rest) : slice text p (size text) = .ok rest := by
  have whole : At text p (rest ++ []) := by rwa [List.append_nil]
  rw [h.size_eq, whole.slice_append]

theorem byteAt_of_byte? {b : Char} (byte : byte? text p = some b) : byteAt text p = .ok b := by rw [byteAt, byte]

theorem lt_size_of_byte? {b : Char} (byte : byte? text p = some b) : p < size text :=
  (List.getElem?_eq_some_iff.1 byte).1

section Turns

variable {σ β : Type} {turn : σ → Nat → Char → Except Fault (Turn σ β)} {finish : σ → Nat → Except Fault β} {s t : σ}

theorem loop_finish (ended : size text ≤ p) : loop text turn finish s p = finish s p := by
  rw [loop, if_neg (Nat.not_lt.2 ended)]

theorem At.loop_nil (h : At text p []) : loop text turn finish s p = finish s p :=
  loop_finish (Nat.le_of_eq h.size_of_nil)

theorem loop_next {b : Char} {q : Nat} (byte : byte? text p = some b) (turns : turn s p b = .ok (.next t q))
    (onward : p < q) : loop text turn finish s p = loop text turn finish t q := by
  rw [loop, if_pos (lt_size_of_byte? byte), byteAt_of_byte? byte]
  simp only [bind, Except.bind, turns, if_pos onward]

theorem loop_done {b : Char} {result : β} (byte : byte? text p = some b) (turns : turn s p b = .ok (.done result)) :
    loop text turn finish s p = .ok result := by
  rw [loop, if_pos (lt_size_of_byte? byte), byteAt_of_byte? byte]
  simp only [bind, Except.bind, turns]
  rfl

/-- A loop that takes the bytes outside ASCII one by one comes to the end of a character that it is inside of. -/
theorem At.loop_inside (h : At text p (c :: cs)) (wide : ¬Ascii c)
    (pass : ∀ k b, byte? text k = some b → ¬Ascii b → turn s k b = .ok (.next s (k + 1))) {k : Nat}
    (inside : k ≤ c.utf8Size) :
    loop text turn finish s (p + k) = loop text turn finish s (p + c.utf8Size) := by
  rcases Nat.eq_or_lt_of_le inside with rfl | inside
  · rfl
  · obtain ⟨b, byte, wideByte⟩ := h.byte?_wide wide inside
    rw [loop_next byte (pass _ b byte wideByte) (Nat.lt_succ_self _)]
    exact h.loop_inside wide pass inside
termination_by c.utf8Size - k

/-- A loop that takes every byte of a character one by one comes to the next character. -/
theorem At.loop_pass (h : At text p (c :: cs)) (first : Ascii c → turn s p c = .ok (.next s (p + 1)))
    (pass : ∀ k b, byte? text k = some b → ¬Ascii b → turn s k b = .ok (.next s (k + 1))) :
    loop text turn finish s p = loop text turn finish s (p + c.utf8Size) := by
  by_cases ascii : Ascii c
  · rw [ascii.utf8Size_eq]
    exact loop_next (h.byte?_ascii ascii) (first ascii) (Nat.lt_succ_self p)
  · exact h.loop_inside ascii pass (Nat.zero_le _)

end Turns

end ExactFormula.Bytewise
