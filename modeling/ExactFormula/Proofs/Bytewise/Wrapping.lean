import ExactFormula.Proofs.Bytewise.Skipping
import ExactFormula.Proofs.Relaxed.Calls

/-!
The wrapping of values with calls, by bytes: where it looks for the end of a value and for a call, and what it copies.
-/

namespace ExactFormula.Bytewise

open Relaxed (WrapState)

variable {text cs : List Char} {c : Char} {p : Nat}

/-! ## The end of a value -/

/-- How many brackets of a kind are open behind a byte. -/
def counted (opener closer : Char) (n : Nat) (b : Char) : Nat :=
  if b == opener then n + 1 else if b == closer then n - 1 else n

def endsValue (parens braces brackets : Nat) (b : Char) : Bool :=
  parens == 0 && braces == 0 && brackets == 0 && (b == ',' || b == '}' || b == ']')

def valueTurn (text : List Char) : Nat × Nat × Nat → Nat → Char → Except Fault (Turn (Nat × Nat × Nat) Nat)
  | (parens, braces, brackets), k, b =>
    if Text.isQuote b then do return .next (parens, braces, brackets) (← skipQuoted text k)
    else
      let parens := counted '(' ')' parens b
      let braces := counted '{' '}' braces b
      let brackets := counted '[' ']' brackets b
      if endsValue parens braces brackets b then return .done k else return .next (parens, braces, brackets) (k + 1)

def valueEnd (text : List Char) (p : Nat) : Except Fault Nat :=
  loop text (valueTurn text) (fun _ _ => .ok (size text)) (0, 0, 0) p

theorem ahead_valueLength (parens braces brackets p n : Nat) (cs : List Char) :
    ahead p cs (Relaxed.valueLength n parens braces brackets cs) =
      ahead (ahead p cs n) (cs.drop n) (Relaxed.valueLength 0 parens braces brackets (cs.drop n)) :=
  @ahead_skip (fun n => Relaxed.valueLength n parens braces brackets) (fun n => by cases n <;> rfl)
    (fun _ _ _ => rfl) p n cs

theorem valueLength_char (quote : Text.isQuote c = false) (parens braces brackets : Nat) (cs : List Char) :
    Relaxed.valueLength 0 parens braces brackets (c :: cs) =
      if endsValue (counted '(' ')' parens c) (counted '{' '}' braces c) (counted '[' ']' brackets c) c then 0
      else Relaxed.valueLength 0 (counted '(' ')' parens c) (counted '{' '}' braces c) (counted '[' ']' brackets c) cs +
        1 := by
  rw [Relaxed.valueLength, quote]
  rfl

theorem valueTurn_char (quote : Text.isQuote c = false) (parens braces brackets k : Nat) :
    valueTurn text (parens, braces, brackets) k c =
      if endsValue (counted '(' ')' parens c) (counted '{' '}' braces c) (counted '[' ']' brackets c) c then
        .ok (.done k)
      else .ok (.next (counted '(' ')' parens c, counted '{' '}' braces c, counted '[' ']' brackets c) (k + 1)) := by
  rw [valueTurn, quote]
  rfl

theorem counted_wide {b : Char} (wide : ¬Ascii b) {opener closer : Char} (first : Ascii opener) (last : Ascii closer)
    (n : Nat) : counted opener closer n b = n := by
  rw [counted, beq_wide wide first, beq_wide wide last]
  rfl

theorem endsValue_wide {b : Char} (wide : ¬Ascii b) (parens braces brackets : Nat) :
    endsValue parens braces brackets b = false := by
  rw [endsValue, beq_wide wide (by decide), beq_wide wide (by decide), beq_wide wide (by decide)]
  exact Bool.and_false _

theorem At.valueLoop_eq {p : Nat} {cs : List Char} (h : At text p cs) (parens braces brackets : Nat) :
    loop text (valueTurn text) (fun _ _ => .ok (size text)) (parens, braces, brackets) p =
      .ok (Bytewise.ahead p cs (Relaxed.valueLength 0 parens braces brackets cs)) := by
  match cs, h with
  | [], h =>
    rw [h.loop_nil, h.size_of_nil]
    rfl
  | c :: cs, h =>
    cases quote : Text.isQuote c with
    | true =>
      have ascii : Ascii c := narrow_isQuote.ascii quote
      have behind := h.ahead (Text.quotationLength c cs + 1)
      have turn : valueTurn text (parens, braces, brackets) p c =
          .ok (.next (parens, braces, brackets) (Bytewise.ahead p (c :: cs) (Text.quotationLength c cs + 1))) := by
        rw [valueTurn, if_pos quote, h.skipQuoted_eq quote]
        rfl
      rw [loop_next (h.byte?_ascii ascii) turn (lt_ahead ..), behind.valueLoop_eq, Relaxed.valueLength, if_pos quote,
        ahead_succ, ahead_succ, List.drop_succ_cons, ← ahead_valueLength]
    | false =>
      by_cases ascii : Ascii c
      · have next := h.next
        rw [valueLength_char quote]
        cases ends : endsValue (counted '(' ')' parens c) (counted '{' '}' braces c) (counted '[' ']' brackets c) c with
        | true =>
          refine loop_done (h.byte?_ascii ascii) ?_
          rw [valueTurn_char quote, ends]
          rfl
        | false =>
          rw [if_neg Bool.false_ne_true, ahead_succ, ← next.valueLoop_eq, ascii.utf8Size_eq]
          refine loop_next (h.byte?_ascii ascii) ?_ (Nat.lt_succ_self p)
          rw [valueTurn_char quote, ends]
          rfl
      · have same : ∀ b, ¬Ascii b → endsValue parens braces brackets b = false ∧ counted '(' ')' parens b = parens ∧
            counted '{' '}' braces b = braces ∧ counted '[' ']' brackets b = brackets := fun b wide =>
          ⟨endsValue_wide wide .., counted_wide wide (by decide) (by decide) _,
            counted_wide wide (by decide) (by decide) _, counted_wide wide (by decide) (by decide) _⟩
        have pass : ∀ k b, byte? text k = some b → ¬Ascii b → valueTurn text (parens, braces, brackets) k b =
            .ok (.next (parens, braces, brackets) (k + 1)) := fun k b _ wide => by
          simp only [valueTurn_char (narrow_isQuote wide), same b wide, if_neg Bool.false_ne_true]
        rw [h.loop_pass (absurd · ascii) pass, h.next.valueLoop_eq]
        simp only [valueLength_char quote, same c ascii, if_neg Bool.false_ne_true, ahead_succ]
termination_by cs.length

theorem At.valueEnd_eq (h : At text p cs) :
    valueEnd text p = .ok (Bytewise.ahead p cs (Relaxed.valueLength 0 0 0 0 cs)) := h.valueLoop_eq 0 0 0

/-! ## Calls -/

def callTurn (text : List Char) (_ : Unit) (j : Nat) (b : Char) : Except Fault (Turn Unit Bool) :=
  if Text.isQuote b then do return .next () (← skipQuoted text j)
  else if !Relaxed.isNameStart b then return .next () (j + 1)
  else do
    let k ← skipWhile text Relaxed.isNamePart (j + 1)
    let look ← skipWhile text Relaxed.isSpace k
    if (byte? text look).any (· == '(') then return .done true else return .next () k

def hasFunctionCall (text : List Char) : Except Fault Bool :=
  loop text (callTurn text) (fun _ _ => .ok false) () 0

theorem hasCall_nameStart (quote : Text.isQuote c = false) (start : Relaxed.isNameStart c = true) (cs : List Char) :
    Relaxed.hasCall 0 (c :: cs) = (((cs.dropWhile Relaxed.isNamePart).dropWhile Relaxed.isSpace).head?.any (· == '(') ||
      Relaxed.hasCall 0 (cs.dropWhile Relaxed.isNamePart)) := by
  rw [Relaxed.hasCall, quote, start, if_neg Bool.false_ne_true, if_pos rfl]
  dsimp only
  rw [Relaxed.hasCall_drop, drop_takeWhile]
  cases ((cs.dropWhile Relaxed.isNamePart).dropWhile Relaxed.isSpace).head? <;> rfl

theorem callTurn_nameStart (quote : Text.isQuote c = false) (start : Relaxed.isNameStart c = true)
    (h : At text (p + 1) cs) :
    callTurn text () p c =
      if ((cs.dropWhile Relaxed.isNamePart).dropWhile Relaxed.isSpace).head?.any (· == '(') then .ok (.done true)
      else .ok (.next () (ahead (p + 1) cs (cs.takeWhile Relaxed.isNamePart).length)) := by
  have name := h.behind_takeWhile Relaxed.isNamePart
  have look := name.behind_takeWhile Relaxed.isSpace
  rw [callTurn, quote, start, h.skipWhile_eq narrow_isNamePart.uniform, ok_bind,
    name.skipWhile_eq narrow_isSpace.uniform, ok_bind, look.any_byte? (Narrow.uniform (narrow_beq (by decide)))]
  rfl

theorem At.callLoop_eq {p : Nat} {cs : List Char} (h : At text p cs) :
    loop text (callTurn text) (fun _ _ => .ok false) () p = .ok (Relaxed.hasCall 0 cs) := by
  match cs, h with
  | [], h => exact h.loop_nil
  | c :: cs, h =>
    cases quote : Text.isQuote c with
    | true =>
      have ascii : Ascii c := narrow_isQuote.ascii quote
      have behind := h.ahead (Text.quotationLength c cs + 1)
      have turn : callTurn text () p c =
          .ok (.next () (Bytewise.ahead p (c :: cs) (Text.quotationLength c cs + 1))) := by
        rw [callTurn, if_pos quote, h.skipQuoted_eq quote]
        rfl
      rw [loop_next (h.byte?_ascii ascii) turn (lt_ahead ..), behind.callLoop_eq, Relaxed.hasCall, if_pos quote,
        List.drop_succ_cons, ← Relaxed.hasCall_drop]
    | false =>
      cases start : Relaxed.isNameStart c with
      | false =>
        have pass : ∀ k b, Text.isQuote b = false → Relaxed.isNameStart b = false →
            callTurn text () k b = .ok (.next () (k + 1)) := fun k b quote start => by
          rw [callTurn, quote, start]
          rfl
        rw [h.loop_pass (fun _ => pass p c quote start)
          (fun k b _ wide => pass k b (narrow_isQuote wide) (narrow_isNameStart wide)), h.next.callLoop_eq,
          Relaxed.hasCall, quote, start]
        rfl
      | true =>
        have ascii : Ascii c := narrow_isNameStart.ascii start
        have next := h.next
        rw [ascii.utf8Size_eq] at next
        have turn := callTurn_nameStart quote start next
        rw [hasCall_nameStart quote start]
        cases call : ((cs.dropWhile Relaxed.isNamePart).dropWhile Relaxed.isSpace).head?.any (· == '(') with
        | true =>
          rw [call] at turn
          exact loop_done (h.byte?_ascii ascii) turn
        | false =>
          have shorter := (List.dropWhile_sublist Relaxed.isNamePart (l := cs)).length_le
          rw [call] at turn
          rw [loop_next (h.byte?_ascii ascii) turn (Nat.lt_of_lt_of_le (Nat.lt_succ_self p) (le_ahead ..)),
            (next.behind_takeWhile Relaxed.isNamePart).callLoop_eq, Bool.false_or]
termination_by cs.length

theorem hasFunctionCall_eq (text : List Char) : hasFunctionCall text = .ok (Relaxed.hasCall 0 text) :=
  (At.start text).callLoop_eq

/-! ## Wrapping -/

/-- What is written so far, and up to where the text is copied into it. -/
structure Wrapping where
  state : WrapState
  out : List Char
  copied : Nat

def wrapTurn (text marker : List Char) (w : Wrapping) (i : Nat) (b : Char) :
    Except Fault (Turn Wrapping (List Char)) :=
  let s := w.state
  if Text.isQuote b && (s.atKey || !s.atValue) then do return .next w (← skipQuoted text i)
  else if b == '{' then return .next { w with state := ⟨true :: s.structures, true, false⟩ } (i + 1)
  else if b == '[' then return .next { w with state := ⟨false :: s.structures, false, true⟩ } (i + 1)
  else if b == '}' || b == ']' then return .next { w with state := ⟨s.structures.tail, false, false⟩ } (i + 1)
  else if b == ':' then return .next { w with state := { s with atKey := false, atValue := true } } (i + 1)
  else if b == ',' then return .next { w with state := s.afterComma } (i + 1)
  else if Relaxed.isSpace b || s.atKey || !s.atValue then return .next w (i + 1)
  else do
    let stop ← valueEnd text i
    let segment := Text.trim (← slice text i stop)
    let t := { s with atKey := s.inObject, atValue := false }
    if ← hasFunctionCall segment then
      let before ← slice text w.copied i
      return .next ⟨t, w.out ++ before ++ Relaxed.wrapValue marker segment, stop⟩ stop
    else return .next { w with state := t } stop

def wrapFinish (text : List Char) (w : Wrapping) (_ : Nat) : Except Fault (List Char) := do
  return w.out ++ (← slice text w.copied (size text))

def wrapLoop (text marker : List Char) (w : Wrapping) (p : Nat) : Except Fault (List Char) :=
  loop text (wrapTurn text marker) (wrapFinish text) w p

def wrapCalls (marker text : List Char) : Except Fault (List Char) :=
  wrapLoop text marker ⟨⟨[], false, false⟩, [], 0⟩ 0

variable {marker : List Char} {s : WrapState}

theorem isStructural_cases (h : Relaxed.isStructural c = true) :
    c = '{' ∨ c = '}' ∨ c = '[' ∨ c = ']' ∨ c = ':' ∨ c = ',' := by
  simpa only [Relaxed.isStructural, Bool.or_eq_true, beq_iff_eq, or_assoc] using h

/-- A place where neither a quotation is skipped nor a structure begins, ends or goes on. -/
structure Inside (s : WrapState) (c : Char) : Prop where
  unquoted : (Text.isQuote c && (s.atKey || !s.atValue)) = false
  within : Relaxed.isStructural c = false

theorem Inside.wrapStep_eq (h : Inside s c) (cs : List Char) : Relaxed.wrapStep marker s c cs =
    if Relaxed.isSpace c || s.atKey || !s.atValue then .emit [c] s
    else
      let text := (c :: cs).take (Relaxed.valueLength 0 0 0 0 (c :: cs))
      let value := Text.trim text
      .swallow (if Relaxed.hasCall 0 value then Relaxed.wrapValue marker value else text) (text.length - 1)
        { s with atKey := s.inObject, atValue := false } := by
  have within := h.within
  simp only [Relaxed.isStructural, Bool.or_eq_false_iff] at within
  simp only [Relaxed.wrapStep, h.unquoted, within, Bool.or_self, if_neg Bool.false_ne_true]

theorem Inside.wrapTurn_eq (h : Inside s c) (out : List Char) (k i : Nat) : wrapTurn text marker ⟨s, out, k⟩ i c =
    if Relaxed.isSpace c || s.atKey || !s.atValue then .ok (.next ⟨s, out, k⟩ (i + 1))
    else do
      let stop ← valueEnd text i
      let segment := Text.trim (← slice text i stop)
      let t := { s with atKey := s.inObject, atValue := false }
      if ← hasFunctionCall segment then
        let before ← slice text k i
        return .next ⟨t, out ++ before ++ Relaxed.wrapValue marker segment, stop⟩ stop
      else return .next ⟨t, out, k⟩ stop := by
  have within := h.within
  simp only [Relaxed.isStructural, Bool.or_eq_false_iff] at within
  simp only [wrapTurn, h.unquoted, within, Bool.or_self, if_neg Bool.false_ne_true]
  rfl

theorem Inside.first {b : Char} (h : Inside s c) (first : b = c ∨ ¬Ascii b ∧ ¬Ascii c) : Inside s b where
  unquoted := by rw [narrow_isQuote.same first, h.unquoted]
  within := by rw [narrow_isStructural.same first, h.within]

/-- The loop goes on as a step by characters does: it leaves what the step takes to be copied later, or it writes a
value instead. -/
inductive WrapsAlike (text marker : List Char) (s : WrapState) (p : Nat) (c : Char) (cs : List Char) :
    Text.Step WrapState Char → Prop
  | copies (n : Nat) (t : WrapState)
    (next : ∀ out k, wrapLoop text marker ⟨s, out, k⟩ p =
      wrapLoop text marker ⟨t, out, k⟩ (ahead p (c :: cs) (n + 1))) :
    WrapsAlike text marker s p c cs (.swallow ((c :: cs).take (n + 1)) n t)
  | writes (output : List Char) (n : Nat) (t : WrapState)
    (next : ∀ out k kept, slice text k p = .ok kept → wrapLoop text marker ⟨s, out, k⟩ p =
      wrapLoop text marker ⟨t, out ++ kept ++ output, ahead p (c :: cs) (n + 1)⟩ (ahead p (c :: cs) (n + 1))) :
    WrapsAlike text marker s p c cs (.swallow output n t)

theorem At.wraps_quotation (h : At text p (c :: cs)) (quoted : (Text.isQuote c && (s.atKey || !s.atValue)) = true) :
    WrapsAlike text marker s p c cs (Relaxed.wrapStep marker s c cs) := by
  have quote := (Bool.and_eq_true_iff.1 quoted).1
  have step : Relaxed.wrapStep marker s c cs =
      .swallow ((c :: cs).take (Text.quotationLength c cs + 1)) (Text.quotationLength c cs) s := by
    rw [Relaxed.wrapStep, quoted]
    rfl
  rw [step]
  refine .copies _ s fun out k => loop_next (h.byte?_ascii (narrow_isQuote.ascii quote)) ?_ (lt_ahead ..)
  rw [wrapTurn, quoted, if_pos rfl, h.skipQuoted_eq quote]
  rfl

theorem At.wraps_plain (h : At text p (c :: cs)) (inside : Inside s c)
    (plain : (Relaxed.isSpace c || s.atKey || !s.atValue) = true) :
    WrapsAlike text marker s p c cs (Relaxed.wrapStep marker s c cs) := by
  rw [inside.wrapStep_eq, if_pos plain]
  refine .copies 0 s fun out k => ?_
  rw [ahead_succ, ahead_zero]
  by_cases ascii : Ascii c
  · rw [ascii.utf8Size_eq]
    exact loop_next (h.byte?_ascii ascii) (by rw [inside.wrapTurn_eq, if_pos plain]) (Nat.lt_succ_self p)
  · refine h.loop_inside ascii (fun i b _ wide => ?_) (Nat.zero_le _)
    -- The bytes of `c` are no spaces, nor is `c`: it is the state that lets all of them pass.
    have here : Inside s b := inside.first (.inr ⟨wide, ascii⟩)
    rw [here.wrapTurn_eq, narrow_isSpace wide, ← narrow_isSpace ascii, if_pos plain]

theorem At.wraps_value (h : At text p (c :: cs)) (inside : Inside s c)
    (value : (Relaxed.isSpace c || s.atKey || !s.atValue) = false) :
    WrapsAlike text marker s p c cs (Relaxed.wrapStep marker s c cs) := by
  obtain ⟨b, byte, first⟩ := h.exists_byte
  obtain ⟨n, length⟩ : ∃ n, Relaxed.valueLength 0 0 0 0 (c :: cs) = n + 1 :=
    Nat.exists_eq_add_of_le' (Relaxed.valueLength_pos inside.within cs)
  have short : ((c :: cs).take (n + 1)).length - 1 = n := by
    have within := Relaxed.valueLength_le 0 0 0 0 (c :: cs)
    rw [length] at within
    rw [List.length_take_of_le within]
    rfl
  have step : Relaxed.wrapStep marker s c cs = _ := inside.wrapStep_eq cs
  have turn : ∀ out k, wrapTurn text marker ⟨s, out, k⟩ p b = _ := fun out k =>
    (inside.first first).wrapTurn_eq out k p
  simp only [value, narrow_isSpace.same first, length, short, h.valueEnd_eq, h.slice_ahead, hasFunctionCall_eq,
    ok_bind, if_neg Bool.false_ne_true] at step turn
  rw [step]
  cases call : Relaxed.hasCall 0 (Text.trim ((c :: cs).take (n + 1))) with
  | true =>
    refine .writes _ n _ fun out k kept held => loop_next byte ?_ (lt_ahead ..)
    rw [turn, call, if_pos rfl, held]
    rfl
  | false =>
    refine .copies n _ fun out k => loop_next byte ?_ (lt_ahead ..)
    rw [turn, call, if_neg Bool.false_ne_true]
    rfl

theorem At.wrapStep (h : At text p (c :: cs)) (marker : List Char) (s : WrapState) :
    WrapsAlike text marker s p c cs (Relaxed.wrapStep marker s c cs) := by
  cases quoted : Text.isQuote c && (s.atKey || !s.atValue) with
  | true => exact h.wraps_quotation quoted
  | false =>
    cases structural : Relaxed.isStructural c with
    | true =>
      rcases isStructural_cases structural with rfl | rfl | rfl | rfl | rfl | rfl <;>
        exact .copies 0 _ fun out k => loop_next (h.byte?_ascii (by decide)) rfl (Nat.lt_succ_self p)
    | false =>
      cases plain : Relaxed.isSpace c || s.atKey || !s.atValue with
      | true => exact h.wraps_plain ⟨quoted, structural⟩ plain
      | false => exact h.wraps_value ⟨quoted, structural⟩ plain

/-- The loop writes what is copied up to a place, and then what the scan by characters writes from there. -/
theorem wrapLoop_eq {k : Nat} {kept cs : List Char} (h : At text k (kept ++ cs)) (s : WrapState) (out : List Char) :
    wrapLoop text marker ⟨s, out, k⟩ (k + size kept) =
      .ok (out ++ kept ++ Text.scan (Relaxed.wrapStep marker) (fun _ => []) s cs) := by
  have here : At text (k + size kept) cs := h.append
  match cs, h, here with
  | [], h, here =>
    rw [wrapLoop, here.loop_nil, wrapFinish, here.size_of_nil, h.slice_append, Text.scan_nil, List.append_nil]
    rfl
  | c :: cs, h, here =>
    have alike := here.wrapStep marker s
    rw [Text.scan_cons]
    generalize Relaxed.wrapStep marker s c cs = step at alike ⊢
    cases alike with
    | copies n t next =>
      have onward : At text k ((kept ++ (c :: cs).take (n + 1)) ++ cs.drop n) := by
        rwa [List.append_assoc, List.take_succ_cons, List.cons_append, List.take_append_drop]
      have position : ahead (k + size kept) (c :: cs) (n + 1) = k + size (kept ++ (c :: cs).take (n + 1)) := by
        rw [ahead, size_append, Nat.add_assoc]
      rw [next, position, wrapLoop_eq onward]
      simp [Text.Step.swallow]
    | writes output n t next =>
      have onward : At text (ahead (k + size kept) (c :: cs) (n + 1)) ([] ++ cs.drop n) := here.ahead (n + 1)
      rw [next out k kept h.slice_append]
      refine (wrapLoop_eq onward t (out ++ kept ++ output)).trans ?_
      simp [Text.Step.swallow]
termination_by cs.length

theorem wrapCalls_eq (marker text : List Char) : wrapCalls marker text = .ok (Relaxed.wrapCalls marker text) := by
  have whole : At text 0 ([] ++ text) := At.start text
  exact wrapLoop_eq whole ⟨[], false, false⟩ []

end ExactFormula.Bytewise
