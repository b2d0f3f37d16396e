import ExactFormula.Proofs.Bytewise.Skipping
import ExactFormula.Proofs.Json.Reading

/-!
The quotations and keys of relaxed documents by bytes. Each reader gives what it writes and the position behind what it
has read.
-/

namespace ExactFormula.Bytewise

variable {text cs kept : List Char} {c quote : Char} {p run : Nat}

/-! ## Single characters -/

def copyByte (text : List Char) (p : Nat) : Except Fault (List Char × Nat) := do
  return (← slice text p (p + 1), p + 1)

def copyChar (text : List Char) (p : Nat) : Except Fault (List Char × Nat) := do
  let rest ← slice text p (size text)
  let width := rest.head?.elim 1 Char.utf8Size
  return (← slice text p (p + width), p + width)

theorem At.copyChar_eq (h : At text p (c :: cs)) : copyChar text p = .ok ([c], p + c.utf8Size) := by
  rw [copyChar, h.slice_rest, ok_bind]
  dsimp only [List.head?_cons, Option.elim_some]
  rw [h.slice_head]
  rfl

theorem At.copyByte_eq (h : At text p (c :: cs)) (ascii : Ascii c) : copyByte text p = .ok ([c], p + c.utf8Size) := by
  have first := h.slice_head
  rw [ascii.utf8Size_eq] at first ⊢
  rw [copyByte, first]
  rfl

/-! ## Quotations -/

def readDoubleQuoted (text : List Char) (p : Nat) : Except Fault (List Char × Nat) := do
  let q ← closingLoop text '"' (fun k => min (k + 1 + 1) (size text)) id (p + 1)
  return (← slice text p q, q)

theorem At.readDoubleQuoted_eq (h : At text p ('"' :: cs)) : readDoubleQuoted text p =
    .ok ('"' :: cs.take (Text.quotationLength '"' cs),
      Bytewise.ahead p ('"' :: cs) (Text.quotationLength '"' cs + 1)) := by
  have leads : Leads text (fun k => min (k + 1 + 1) (size text)) id := {
    inside := fun inside => Nat.min_eq_left inside
    last := fun last => by simp [← last]
    ended := rfl }
  have next : At text (p + 1) cs := h.next
  have whole := h.slice_ahead (Text.quotationLength '"' cs + 1)
  rw [ahead_succ] at whole ⊢
  rw [readDoubleQuoted, next.closingLoop_eq (by decide) (by decide) leads, ok_bind]
  exact congrArg (· >>= fun piece => Except.ok (piece, _)) whole

/-- The position behind the closing quote of a quotation that is written with escapes. -/
theorem ahead_written {raw chars : List Char} (written : Json.Written quote raw chars)
    (isQuote : Text.isQuote quote = true) (p : Nat) (rest : List Char) :
    ahead p (quote :: (raw ++ quote :: rest)) (Text.quotationLength quote (raw ++ quote :: rest) + 1) =
      p + size (quote :: (raw ++ [quote])) := by
  have extent := ahead_append p (quote :: (raw ++ [quote])) rest
  rw [List.length_cons, List.length_append, List.length_singleton, List.cons_append, ← List.append_cons] at extent
  rw [written.quotationLength_eq isQuote, extent]

/-- Where a quotation is written with escapes, the scan by bytes stops behind its closing quote. -/
theorem At.skipQuoted_written {raw chars rest : List Char} (written : Json.Written quote raw chars)
    (isQuote : Text.isQuote quote = true) (h : At text p (quote :: (raw ++ quote :: rest))) :
    skipQuoted text p = .ok (p + size (quote :: (raw ++ [quote]))) := by
  rw [h.skipQuoted_eq isQuote, ahead_written written isQuote]

theorem At.readDoubleQuoted_written {raw chars rest : List Char} (written : Json.Written '"' raw chars)
    (h : At text p ('"' :: (raw ++ '"' :: rest))) :
    readDoubleQuoted text p = .ok ('"' :: (raw ++ ['"']), p + size ('"' :: (raw ++ ['"']))) := by
  have content : (raw ++ '"' :: rest).take (raw.length + 1) = raw ++ ['"'] := by
    rw [List.append_cons]
    exact List.take_left' List.length_append
  rw [h.readDoubleQuoted_eq, ahead_written written rfl, written.quotationLength_eq rfl, content]

/-- A string between double quotes, with its escapes, is written as JSON writes it and read back as the string. Whatever
stands around it, each of the scans for the closing quote that starts at the opening one stops just behind it: the two
by bytes and the one by characters, as it is where escapes count. -/
theorem quoted_extent (s : String) : ∃ raw, (Text.quoted s).toList = '"' :: (raw ++ ['"']) ∧
    Json.Written '"' raw s.toList ∧ Json.parse (Text.quoted s) = .ok (.string s) ∧
    ∀ before after : List Char,
      readDoubleQuoted (before ++ ((Text.quoted s).toList ++ after)) (size before) =
        .ok ((Text.quoted s).toList, size (before ++ (Text.quoted s).toList)) ∧
      skipQuoted (before ++ ((Text.quoted s).toList ++ after)) (size before) =
        .ok (size (before ++ (Text.quoted s).toList)) ∧
      Text.closingLength? true '"' (raw ++ '"' :: after) = some (raw ++ ['"']).length := by
  have written : Json.Written '"' (s.toList.flatMap Text.escape) s.toList := Json.Written.flatMap_escape s.toList
  have chars : (Text.quoted s).toList = '"' :: (s.toList.flatMap Text.escape ++ ['"']) := String.toList_ofList
  refine ⟨s.toList.flatMap Text.escape, chars, written, ?_, fun before after => ?_⟩
  · have blank : Json.Blank [] := nofun
    have reads : Json.Reads Json.nestingLimit 0 _ _ := Json.Reads.string written
    have read := reads.ofChars_eq (by decide) blank blank
    rw [List.nil_append, List.append_nil, String.ofList_toList] at read
    rw [Json.parse, chars, read]
  · rw [chars]
    generalize s.toList.flatMap Text.escape = raw at written
    have place : At (before ++ ('"' :: (raw ++ ['"']) ++ after)) (size before) ('"' :: (raw ++ '"' :: after)) :=
      ⟨before, by rw [List.cons_append, ← List.append_cons], rfl⟩
    rw [size_append, List.length_append]
    exact ⟨place.readDoubleQuoted_written written, place.skipQuoted_written written rfl,
      written.closingLength?_eq rfl after⟩

/-- What is written so far, and from where on the text is still to be copied. -/
def relaxedTurn (text : List Char) (quote : Char) : List Char × Nat → Nat → Char →
    Except Fault (Turn (List Char × Nat) (List Char × Nat × Nat))
  | (out, run), k, b =>
    if b == '\\' then do
      let before ← slice text run k
      match byte? text (k + 1) with
      | some next =>
        if next == quote then return .next (out ++ before ++ [quote], k + 2) (k + 2)
        else do
          let (piece, q) ← copyChar text (k + 1)
          return .next (out ++ before ++ '\\' :: piece, q) q
      | none => return .next (out ++ before, k + 1) (k + 1)
    else if b == quote then return .done (out, run, k)
    else if b == '"' then do
      let before ← slice text run k
      return .next (out ++ before ++ ['\\', '"'], k + 1) (k + 1)
    else return .next (out, run) (k + 1)

def relaxedFinish (text : List Char) : List Char × Nat × Nat → Except Fault (List Char × Nat)
  | (out, run, q) => do
    let last ← slice text run (min q (size text))
    return (out ++ last ++ ['"'], if q < size text then q + 1 else q)

def relaxedLoop (text : List Char) (quote : Char) (out : List Char) (run p : Nat) : Except Fault (List Char × Nat) := do
  let ended ← loop text (relaxedTurn text quote) (fun (out, run) k => .ok (out, run, k)) (out, run) p
  relaxedFinish text ended

def readRelaxedQuoted (text : List Char) (quote : Char) (p : Nat) : Except Fault (List Char × Nat) :=
  relaxedLoop text quote ['"'] (p + 1) (p + 1)

theorem relaxedLoop_next {b : Char} {out out' : List Char} {run' q : Nat} (byte : byte? text p = some b)
    (turn : relaxedTurn text quote (out, run) p b = .ok (.next (out', run') q)) (onward : p < q) :
    relaxedLoop text quote out run p = relaxedLoop text quote out' run' q := by
  rw [relaxedLoop, loop_next byte turn onward]
  rfl

theorem relaxedLoop_nil (h : At text run (kept ++ [])) (out : List Char) :
    relaxedLoop text quote out run (run + size kept) = .ok (out ++ kept ++ ['"'], run + size kept) := by
  have ended := h.append.size_of_nil
  have last := h.slice_append
  rw [relaxedLoop, h.append.loop_nil, ok_bind, relaxedFinish, ended, Nat.min_self, last, ok_bind,
    if_neg (Nat.lt_irrefl _)]
  rfl

/-- A backslash with nothing behind it is dropped. -/
theorem relaxedLoop_last (h : At text run (kept ++ ['\\'])) (out : List Char) :
    relaxedLoop text quote out run (run + size kept) = .ok (out ++ kept ++ ['"'], run + size kept + 1) := by
  have here := h.append
  have next : At text (run + size kept + 1) ([] ++ []) := here.next
  have ended : byte? text (run + size kept + 1) = none := List.getElem?_eq_none (Nat.le_of_eq here.next.size_of_nil)
  have turn : relaxedTurn text quote (out, run) (run + size kept) '\\' =
      .ok (.next (out ++ kept, run + size kept + 1) (run + size kept + 1)) := by
    rw [relaxedTurn, if_pos (beq_self_eq_true _), h.slice_append, ok_bind, ended]
    rfl
  rw [relaxedLoop_next (here.byte?_ascii (by decide)) turn (Nat.lt_succ_self _)]
  refine (relaxedLoop_nil next _).trans ?_
  rw [List.append_nil]
  rfl

theorem relaxedLoop_quote (ascii : Ascii quote) (h : At text run (kept ++ '\\' :: quote :: cs)) (out : List Char) :
    relaxedLoop text quote out run (run + size kept) =
      relaxedLoop text quote (out ++ kept ++ [quote]) (run + size kept + 2) (run + size kept + 2) := by
  have here := h.append
  have next : At text (run + size kept + 1) (quote :: cs) := here.next
  refine relaxedLoop_next (here.byte?_ascii (by decide)) ?_ (by omega)
  rw [relaxedTurn, if_pos (beq_self_eq_true _), h.slice_append, ok_bind, next.byte?_ascii ascii]
  dsimp only
  rw [if_pos (beq_self_eq_true _)]
  rfl

/-- An escape is kept as it is written, with all of the character behind the backslash. -/
theorem relaxedLoop_escape (ascii : Ascii quote) (h : At text run (kept ++ '\\' :: c :: cs))
    (other : (c == quote) = false) (out : List Char) :
    relaxedLoop text quote out run (run + size kept) = relaxedLoop text quote (out ++ kept ++ ['\\', c])
      (run + size kept + 1 + c.utf8Size) (run + size kept + 1 + c.utf8Size) := by
  have here := h.append
  have next : At text (run + size kept + 1) (c :: cs) := here.next
  obtain ⟨b, byte, first⟩ := next.exists_byte
  have other : (b == quote) = false := (Narrow.same (narrow_beq ascii) first).trans other
  refine relaxedLoop_next (here.byte?_ascii (by decide)) ?_ (by omega)
  rw [relaxedTurn, if_pos (beq_self_eq_true _), h.slice_append, ok_bind, byte]
  dsimp only
  rw [other, if_neg Bool.false_ne_true, next.copyChar_eq]
  rfl

theorem relaxedLoop_close (ascii : Ascii quote) (escape : ¬(quote == '\\') = true)
    (h : At text run (kept ++ quote :: cs)) (out : List Char) :
    relaxedLoop text quote out run (run + size kept) = .ok (out ++ kept ++ ['"'], run + size kept + 1) := by
  have here := h.append
  have turn : relaxedTurn text quote (out, run) (run + size kept) quote = .ok (.done (out, run, run + size kept)) := by
    rw [relaxedTurn, if_neg escape, if_pos (beq_self_eq_true _)]
    rfl
  rw [relaxedLoop, loop_done (here.byte?_ascii ascii) turn, ok_bind, relaxedFinish,
    Nat.min_eq_left (Nat.le_of_lt here.lt), h.slice_append, ok_bind, if_pos here.lt]
  rfl

theorem relaxedLoop_double (other : ¬('"' == quote) = true) (h : At text run (kept ++ '"' :: cs)) (out : List Char) :
    relaxedLoop text quote out run (run + size kept) =
      relaxedLoop text quote (out ++ kept ++ ['\\', '"']) (run + size kept + 1) (run + size kept + 1) := by
  refine relaxedLoop_next (h.append.byte?_ascii (by decide)) ?_ (Nat.lt_succ_self _)
  rw [relaxedTurn, if_neg (by decide), if_neg other, if_pos (beq_self_eq_true _), h.slice_append]
  rfl

theorem relaxedLoop_plain (ascii : Ascii quote) (h : At text run (kept ++ c :: cs)) (escape : (c == '\\') = false)
    (close : (c == quote) = false) (double : (c == '"') = false) (out : List Char) :
    relaxedLoop text quote out run (run + size kept) = relaxedLoop text quote out run (run + size (kept ++ [c])) := by
  have pass : ∀ k b, (b == '\\') = false → (b == quote) = false → (b == '"') = false →
      relaxedTurn text quote (out, run) k b = .ok (.next (out, run) (k + 1)) := fun k b escape close double => by
    rw [relaxedTurn, escape, close, double]
    rfl
  have behind : run + size (kept ++ [c]) = run + size kept + c.utf8Size := by
    rw [size_append, size_cons, size_nil, Nat.add_zero, Nat.add_assoc]
  rw [behind, relaxedLoop, h.append.loop_pass (fun _ => pass _ c escape close double)
    (fun k b _ wide => pass k b (beq_wide wide (by decide)) (beq_wide wide ascii) (beq_wide wide (by decide)))]
  rfl

/-- The loop writes what is still to be copied up to a place, and then what the scan by characters writes from there. -/
theorem relaxedLoop_eq (ascii : Ascii quote) {run : Nat} {kept cs : List Char} (h : At text run (kept ++ cs))
    (out : List Char) :
    relaxedLoop text quote out run (run + size kept) = .ok (out ++ kept ++ (Relaxed.requote quote cs).1 ++ ['"'],
      ahead (run + size kept) cs (Relaxed.requote quote cs).2) := by
  fun_induction Relaxed.requote quote cs generalizing run kept out with
  | case1 =>
    rw [relaxedLoop_nil h, List.append_nil]
    rfl
  | case2 c escape =>
    obtain rfl : c = '\\' := by simpa using escape
    rw [relaxedLoop_last h, List.append_nil]
    rfl
  | case3 c escape d cs content n rest ih =>
    obtain rfl : c = '\\' := by simpa using escape
    have next : At text (run + size kept + 1 + d.utf8Size) ([] ++ cs) := h.append.next.next
    have position : ahead (run + size kept) ('\\' :: d :: cs) (n + 2) =
        ahead (run + size kept + 1 + d.utf8Size) cs n := by
      rw [ahead_succ, ahead_succ]
      rfl
    rw [rest] at ih
    dsimp only at ih ⊢
    rw [position]
    cases same : d == quote with
    | true =>
      obtain rfl : d = quote := beq_iff_eq.1 same
      rw [relaxedLoop_quote ascii h]
      rw [ascii.utf8Size_eq] at next ⊢
      refine (ih next (out ++ kept ++ [d])).trans ?_
      simp
    | false =>
      rw [relaxedLoop_escape ascii h same]
      refine (ih next (out ++ kept ++ ['\\', d])).trans ?_
      simp
  | case4 c cs escape close =>
    obtain rfl : c = quote := by simpa using close
    rw [relaxedLoop_close ascii escape h, List.append_nil, ahead_succ, ahead_zero, ascii.utf8Size_eq]
  | case5 c cs escape close content n rest ih =>
    rw [rest] at ih
    dsimp only at ih ⊢
    cases double : c == '"' with
    | true =>
      obtain rfl : c = '"' := beq_iff_eq.1 double
      have next : At text (run + size kept + 1) ([] ++ cs) := h.append.next
      have narrow : ('"' : Char).utf8Size = 1 := rfl
      rw [relaxedLoop_double close h, ahead_succ, narrow]
      refine (ih next (out ++ kept ++ ['\\', '"'])).trans ?_
      simp
    | false =>
      have onward : At text run ((kept ++ [c]) ++ cs) := by rwa [List.append_assoc]
      have position : run + size kept + c.utf8Size = run + size (kept ++ [c]) := by
        rw [size_append, size_cons, size_nil, Nat.add_zero, Nat.add_assoc]
      rw [relaxedLoop_plain ascii h (Bool.eq_false_iff.2 escape) (Bool.eq_false_iff.2 close) double,
        ih onward out, ahead_succ, position]
      simp

theorem At.readRelaxedQuoted_eq (h : At text p (quote :: cs)) (isQuote : Text.isQuote quote = true) :
    readRelaxedQuoted text quote p = .ok ('"' :: ((Relaxed.requote quote cs).1 ++ ['"']),
      Bytewise.ahead p (quote :: cs) ((Relaxed.requote quote cs).2 + 1)) := by
  have ascii : Ascii quote := narrow_isQuote.ascii isQuote
  have next := h.next
  rw [ascii.utf8Size_eq] at next
  have inside : At text (p + 1) ([] ++ cs) := next
  rw [ahead_succ, ascii.utf8Size_eq]
  exact relaxedLoop_eq ascii inside ['"']

/-! ## Keys -/

def keyTurn (text : List Char) (_ : Unit) (k : Nat) (b : Char) : Except Fault (Turn Unit Nat) := do
  let comment ← atComment text k
  if Relaxed.isSpace b || Relaxed.isStructural b || Text.isQuote b || comment then return .done k
  else return .next () (k + 1)

def readKey (text : List Char) (p : Nat) : Except Fault (List Char × Nat) := do
  let q ← loop text (keyTurn text) (fun _ k => .ok k) () p
  if q = p then copyChar text p else return (Text.quote (← slice text p q), q)

theorem At.keyLoop_eq (h : At text p cs) :
    loop text (keyTurn text) (fun _ k => .ok k) () p = .ok (Bytewise.ahead p cs (Relaxed.bareKey cs).length) := by
  induction cs generalizing p with
  | nil => exact h.loop_nil
  | cons c cs ih =>
    obtain ⟨b, byte, first⟩ := h.exists_byte
    have turn : keyTurn text () p b = if Relaxed.isSpace c || Relaxed.isStructural c || Text.isQuote c ||
        (c == '/' && Relaxed.opensComment cs) then .ok (.done p) else .ok (.next () (p + 1)) := by
      rw [keyTurn, h.atComment_eq, narrow_isSpace.same first, narrow_isStructural.same first,
        narrow_isQuote.same first]
      rfl
    rw [Relaxed.bareKey]
    split
    case isTrue ends =>
      rw [if_pos ends] at turn
      exact loop_done byte turn
    case isFalse goesOn =>
      rw [if_neg goesOn] at turn
      rw [List.length_cons, ahead_succ, ← ih h.next]
      refine h.loop_pass (fun ascii => ?_) (fun k b byte wide => ?_)
      · rcases first with rfl | ⟨-, wide⟩
        · exact turn
        · exact absurd ascii wide
      · rw [keyTurn, atComment_of_byte? byte, narrow_isSpace wide, narrow_isStructural wide, narrow_isQuote wide,
          beq_wide wide (by decide)]
        rfl

theorem bareKey_take (cs : List Char) : cs.take (Relaxed.bareKey cs).length = Relaxed.bareKey cs := by
  induction cs with
  | nil => rfl
  | cons c cs ih =>
    rw [Relaxed.bareKey]
    split
    · rfl
    · rw [List.length_cons, List.take_succ_cons, ih]

theorem At.readKey_eq (h : At text p (c :: cs)) : readKey text p =
    if (Relaxed.bareKey (c :: cs)).isEmpty then .ok ([c], p + c.utf8Size)
    else .ok (Text.quote (Relaxed.bareKey (c :: cs)),
      Bytewise.ahead p (c :: cs) (Relaxed.bareKey (c :: cs)).length) := by
  have taken := h.slice_ahead (Relaxed.bareKey (c :: cs)).length
  rw [bareKey_take] at taken
  rw [readKey, h.keyLoop_eq, ok_bind]
  cases key : Relaxed.bareKey (c :: cs) with
  | nil =>
    rw [List.length_nil, ahead_zero, if_pos rfl]
    exact h.copyChar_eq
  | cons d ds =>
    rw [key] at taken
    rw [List.length_cons] at taken ⊢
    rw [if_neg (Nat.ne_of_gt (lt_ahead ..)), taken]
    rfl

end ExactFormula.Bytewise
