import ExactFormula.Proofs.Bytewise.Values
import ExactFormula.Proofs.Bytewise.Wrapping

/-!
The normalizing of relaxed documents by bytes. It finds no fault in any text, and gives what the scan by characters
gives.
-/

namespace ExactFormula.Bytewise

open Relaxed (NormalState inObject)

/-! ## Turns -/

/-- Where the loop is among the structures, and what it has written. -/
structure Normalizer where
  state : NormalState
  out : List Char

def Normalizer.write (n : Normalizer) (state : NormalState) (piece : List Char × Nat) : Turn Normalizer (List Char) :=
  .next ⟨state, n.out ++ piece.1⟩ piece.2

section Turns

variable (text marker : List Char)

/-- Whether a comma stands before a closing bracket, and where reading goes on behind it. -/
def skipTrailingComma (p : Nat) : Except Fault (Bool × Nat) := do
  let q ← skipGap text (p + 1)
  if (byte? text q).any fun b => b == '}' || b == ']' then return (true, q) else return (false, p + 1)

def bareTurn (n : Normalizer) (p : Nat) (b : Char) : Except Fault (Turn Normalizer (List Char)) := do
  match ← (if b.isDigit then tryReadDate text n.state.atKey p else pure none) with
  | some date => return n.write n.state date
  | none =>
    if n.state.atKey then return n.write n.state (← readKey text p)
    else return n.write n.state (← readValue text marker (!n.state.structures.isEmpty) p)

def tokenTurn (n : Normalizer) (p : Nat) (b : Char) : Except Fault (Turn Normalizer (List Char)) :=
  let s := n.state
  if b == '{' then do return n.write ⟨true :: s.structures, true⟩ (← copyByte text p)
  else if b == '[' then do return n.write ⟨false :: s.structures, false⟩ (← copyByte text p)
  else if b == ':' then do return n.write { s with atKey := false } (← copyByte text p)
  else if b == ',' then do
    let (dropped, q) ← skipTrailingComma text p
    if dropped then return .next n q else return n.write { s with atKey := inObject s.structures } ([','], q)
  else if b == '}' || b == ']' then do
    return n.write ⟨s.structures.tail, inObject s.structures.tail⟩ (← copyByte text p)
  else if b == '"' then do return n.write s (← readDoubleQuoted text p)
  else if Text.isQuote b then do return n.write s (← readRelaxedQuoted text b p)
  else bareTurn text marker n p b

def normalTurn (n : Normalizer) (p : Nat) (b : Char) : Except Fault (Turn Normalizer (List Char)) :=
  if Relaxed.isSpace b then do return n.write n.state (← copyByte text p)
  else do
    if ← atComment text p then return .next n (← skipComment text p)
    else tokenTurn text marker n p b

def normalLoop (n : Normalizer) (p : Nat) : Except Fault (List Char) :=
  loop text (normalTurn text marker) (fun n _ => .ok (Text.trim n.out)) n p

end Turns

def normalize (marker : List Char) (wrap : Bool) (text : List Char) : Except Fault (List Char) :=
  if text.isEmpty then .ok []
  else if wrap then do
    let wrapped ← wrapCalls marker text
    normalLoop wrapped marker ⟨⟨[], false⟩, []⟩ 0
  else normalLoop text marker ⟨⟨[], false⟩, []⟩ 0

/-! ## Steps -/

/-- A turn goes on as a step by characters does: it writes the same, and goes as far. -/
inductive MovesAlike (out : List Char) (p : Nat) (cs : List Char) :
    Text.Step NormalState Char → Except Fault (Turn Normalizer (List Char)) → Prop
  | step (output : List Char) (n : Nat) (t : NormalState) :
    MovesAlike out p cs (.swallow output n t) (.ok (.next ⟨t, out ++ output⟩ (ahead p cs (n + 1))))

variable {text marker cs out : List Char} {c : Char} {p : Nat} {s : NormalState}

theorem MovesAlike.skip (n : Nat) (t : NormalState) :
    MovesAlike out p cs (.swallow [] n t) (.ok (.next ⟨t, out⟩ (ahead p cs (n + 1)))) := by
  have moves : MovesAlike out p cs (.swallow [] n t) (.ok (.next ⟨t, out ++ []⟩ (ahead p cs (n + 1)))) := .step [] n t
  rwa [List.append_nil] at moves

theorem MovesAlike.char (t : NormalState) :
    MovesAlike out p (c :: cs) (.emit [c] t) (.ok (.next ⟨t, out ++ [c]⟩ (p + c.utf8Size))) := by
  have moves : MovesAlike out p (c :: cs) (.swallow [c] 0 t)
      (.ok (.next ⟨t, out ++ [c]⟩ (ahead p (c :: cs) (0 + 1)))) := .step [c] 0 t
  rwa [ahead_succ, ahead_zero] at moves

theorem narrow_closer : Narrow fun b => b == '}' || b == ']' := fun wide => by
  simp (disch := decide) only [beq_wide wide, Bool.or_self]

theorem At.skipTrailingComma_eq (h : At text p (',' :: cs)) : skipTrailingComma text p =
    .ok (if (cs.drop (Relaxed.gapLength 0 cs)).head?.any fun b => b == '}' || b == ']' then
      (true, Bytewise.ahead p (',' :: cs) (Relaxed.gapLength 0 cs + 1)) else (false, p + 1)) := by
  have next : At text (p + 1) cs := h.next
  have behind := next.ahead (Relaxed.gapLength 0 cs)
  rw [skipTrailingComma, next.skipGap_eq, ok_bind, behind.any_byte? narrow_closer.uniform, apply_ite Except.ok,
    ahead_succ]
  rfl

theorem At.comma (h : At text p (',' :: cs)) (s : NormalState) (out : List Char) :
    MovesAlike out p (',' :: cs) (Relaxed.commaStep s cs) (tokenTurn text marker ⟨s, out⟩ p ',') := by
  change MovesAlike out p _ _ (skipTrailingComma text p >>= fun (dropped, q) =>
    if dropped then .ok (.next ⟨s, out⟩ q)
    else .ok (Normalizer.write ⟨s, out⟩ { s with atKey := inObject s.structures } ([','], q)))
  rw [h.skipTrailingComma_eq, ok_bind, Relaxed.commaStep]
  split
  case h_1 rest closer =>
    rw [closer]
    exact .skip _ s
  case h_2 rest closer =>
    rw [closer]
    exact .skip _ s
  case h_3 brace bracket =>
    have kept : ((cs.drop (Relaxed.gapLength 0 cs)).head?.any fun b => b == '}' || b == ']') = false := by
      cases left : cs.drop (Relaxed.gapLength 0 cs) with
      | nil => rfl
      | cons d rest =>
        have other : d ≠ '}' ∧ d ≠ ']' := ⟨fun same => brace rest (same ▸ left), fun same => bracket rest (same ▸ left)⟩
        simp [other]
    rw [kept]
    exact .char _

theorem At.bare (h : At text p (c :: cs)) {b : Char} (first : b = c ∨ ¬Ascii b ∧ ¬Ascii c) (s : NormalState)
    (out : List Char) :
    MovesAlike out p (c :: cs) (Relaxed.bareStep marker s c cs) (bareTurn text marker ⟨s, out⟩ p b) := by
  have date : (if b.isDigit then tryReadDate text s.atKey p else pure none) =
      .ok ((if c.isDigit && !s.atKey then Relaxed.bareDate? (c :: cs) else none).map
        fun date => ('"' :: (date ++ ['"']), Bytewise.ahead p (c :: cs) date.length)) := by
    rw [narrow_isDigit.same first]
    cases c.isDigit with
    | false => rfl
    | true =>
      cases s.atKey with
      | true => rfl
      | false => exact h.tryReadDate_eq
  rw [bareTurn, Relaxed.bareStep, date, ok_bind]
  cases found : if c.isDigit && !s.atKey then Relaxed.bareDate? (c :: cs) else none with
  | some date =>
    have nonempty : date ≠ [] := by
      split at found
      · exact (Relaxed.isDate_of_bareDate? found).2.1
      · cases found
    obtain ⟨d, rest, rfl⟩ := List.exists_cons_of_ne_nil nonempty
    exact .step _ rest.length s
  | none =>
    dsimp only [Option.map_none]
    cases s.atKey with
    | true =>
      rw [if_pos rfl, if_pos rfl, h.readKey_eq]
      cases Relaxed.bareKey (c :: cs) with
      | nil => exact .char s
      | cons d key => exact .step _ key.length s
    | false =>
      rw [if_neg Bool.false_ne_true, if_neg Bool.false_ne_true, h.readValue_eq]
      cases Relaxed.bareValue (!s.structures.isEmpty) 0 0 0 (c :: cs) with
      | nil => exact .char s
      | cons d raw => exact .step _ raw.length s

theorem At.token (h : At text p (c :: cs)) {b : Char} (first : b = c ∨ ¬Ascii b ∧ ¬Ascii c)
    (space : Relaxed.isSpace c = false) (comment : (c == '/' && Relaxed.opensComment cs) = false) (s : NormalState)
    (out : List Char) :
    MovesAlike out p (c :: cs) (Relaxed.normalStep marker s c cs) (tokenTurn text marker ⟨s, out⟩ p b) := by
  cases structural : Relaxed.isStructural c with
  | true =>
    have ascii := narrow_isStructural.ascii structural
    have same : b = c := first.resolve_right fun wide => wide.2 ascii
    subst same
    have piece := h.copyByte_eq ascii
    rcases isStructural_cases structural with rfl | rfl | rfl | rfl | rfl | rfl
    case inr.inr.inr.inr.inr => exact h.comma s out
    all_goals
      change MovesAlike out p _ _ (copyByte text p >>= fun piece => .ok (Normalizer.write ⟨s, out⟩ _ piece))
      rw [piece]
      exact .char _
  | false =>
    have within := structural
    simp only [Relaxed.isStructural, Bool.or_eq_false_iff] at within
    have step : Relaxed.normalStep marker s c cs = if c == '"' then
        .swallow (c :: cs.take (Text.quotationLength c cs)) (Text.quotationLength c cs) s
        else if Text.isQuote c then
          .swallow ('"' :: ((Relaxed.requote c cs).1 ++ ['"'])) (Relaxed.requote c cs).2 s
        else Relaxed.bareStep marker s c cs := by
      simp only [Relaxed.normalStep, space, comment, within, Bool.or_self, if_neg Bool.false_ne_true]
    have turn : tokenTurn text marker ⟨s, out⟩ p b = if c == '"' then do
          return Normalizer.write ⟨s, out⟩ s (← readDoubleQuoted text p)
        else if Text.isQuote c then do return Normalizer.write ⟨s, out⟩ s (← readRelaxedQuoted text b p)
        else bareTurn text marker ⟨s, out⟩ p b := by
      have same : ∀ a, Ascii a → (b == a) = (c == a) := fun a ascii => Narrow.same (narrow_beq ascii) first
      simp (disch := decide) only [tokenTurn, same, within, narrow_isQuote.same first, Bool.or_self,
        if_neg Bool.false_ne_true]
    rw [step, turn]
    cases double : c == '"' with
    | true =>
      obtain rfl : c = '"' := beq_iff_eq.1 double
      rw [if_pos rfl, if_pos rfl, h.readDoubleQuoted_eq]
      exact .step _ _ _
    | false =>
      cases quote : Text.isQuote c with
      | true =>
        obtain rfl : b = c := first.resolve_right fun wide => wide.2 (narrow_isQuote.ascii quote)
        rw [if_neg Bool.false_ne_true, if_pos rfl, if_neg Bool.false_ne_true, if_pos rfl, h.readRelaxedQuoted_eq quote]
        exact .step _ _ _
      | false => exact h.bare first s out

theorem At.normalTurn (h : At text p (c :: cs)) (s : NormalState) (out : List Char) :
    ∃ b, byte? text p = some b ∧
      MovesAlike out p (c :: cs) (Relaxed.normalStep marker s c cs) (normalTurn text marker ⟨s, out⟩ p b) := by
  obtain ⟨b, byte, first⟩ := h.exists_byte
  refine ⟨b, byte, ?_⟩
  rw [Bytewise.normalTurn, narrow_isSpace.same first, h.atComment_eq]
  cases space : Relaxed.isSpace c with
  | true =>
    have ascii := narrow_isSpace.ascii space
    rw [if_pos rfl, h.copyByte_eq ascii, Relaxed.normalStep, if_pos space]
    exact .char s
  | false =>
    rw [if_neg Bool.false_ne_true, ok_bind]
    cases comment : c == '/' && Relaxed.opensComment cs with
    | true =>
      obtain ⟨slash, opens⟩ := Bool.and_eq_true_iff.1 comment
      obtain rfl : c = '/' := beq_iff_eq.1 slash
      rw [if_pos rfl, h.skipComment_eq opens, Relaxed.normalStep, space, if_neg Bool.false_ne_true, if_pos comment]
      exact .skip (Relaxed.commentLength cs) s
    | false =>
      rw [if_neg Bool.false_ne_true]
      exact h.token first space comment s out

theorem At.normalLoop_eq {p : Nat} {cs : List Char} (h : At text p cs) (s : NormalState) (out : List Char) :
    normalLoop text marker ⟨s, out⟩ p =
      .ok (Text.trim (out ++ Text.scan (Relaxed.normalStep marker) (fun _ => []) s cs)) := by
  match cs, h with
  | [], h =>
    rw [normalLoop, h.loop_nil, Text.scan_nil, List.append_nil]
  | c :: cs, h =>
    obtain ⟨b, byte, moves⟩ : ∃ b, byte? text p = some b ∧ MovesAlike out p (c :: cs)
        (Relaxed.normalStep marker s c cs) (Bytewise.normalTurn text marker ⟨s, out⟩ p b) := h.normalTurn s out
    rw [Text.scan_cons]
    generalize Relaxed.normalStep marker s c cs = step at moves ⊢
    generalize turn : Bytewise.normalTurn text marker ⟨s, out⟩ p b = outcome at moves
    cases moves with
    | step output n t =>
      have behind := h.ahead (n + 1)
      rw [normalLoop, loop_next byte turn (lt_ahead ..)]
      refine (behind.normalLoop_eq t (out ++ output)).trans ?_
      rw [List.append_assoc, List.drop_succ_cons]
      rfl
termination_by cs.length

/-- The scans find no fault, whatever the text and the marker, with wrapping or without: their loops move on at every
turn, stay within the text, and cut it between characters only. -/
theorem scans_faultless (marker text : List Char) (wrap : Bool) :
    normalize marker wrap text = .ok (Relaxed.normalizeChars marker wrap text) ∧
      wrapCalls marker text = .ok (Relaxed.wrapCalls marker text) := by
  refine ⟨?_, wrapCalls_eq marker text⟩
  cases text with
  | nil => cases wrap <;> rfl
  | cons c cs =>
    have nonempty : (c :: cs).isEmpty = false := rfl
    rw [normalize, nonempty, if_neg Bool.false_ne_true]
    cases wrap with
    | true =>
      rw [if_pos rfl, wrapCalls_eq, ok_bind]
      exact (At.start _).normalLoop_eq ⟨[], false⟩ []
    | false =>
      rw [if_neg Bool.false_ne_true]
      exact (At.start _).normalLoop_eq ⟨[], false⟩ []

end ExactFormula.Bytewise
