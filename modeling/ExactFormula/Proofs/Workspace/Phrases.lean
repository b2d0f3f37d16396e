import ExactFormula.Proofs.Reading.Complete
import ExactFormula.Proofs.Workspace.Isolation

/-!
Every engine reads the phrases that fit its settings, to their parts and no others, unless they nest too deep.
-/

namespace ExactFormula

/-! ## A call with three arguments -/

/-- One space. -/
def Space.one : Space := ⟨[' '], List.cons_ne_nil _ _, List.all_eq_true.1 rfl⟩

def maxDef : FunctionDef := ⟨"max", 1, none, Builtin.max⟩

/-- `1.5e-3` -/
def smallNumeral : Numeral where
  shape :=
    { sign := .none
      whole := ['1']
      fraction := some ['5']
      power := some ⟨'e', .minus, ['3'], Decimal.isExponentMark_e, List.all_eq_true.1 rfl, List.any_eq_true.1 rfl⟩
      gapped := List.all_eq_true.1 rfl
      shown := List.any_eq_true.1 rfl
      starts := by decide }
  unsigned := rfl
  inRange := by decide
  short := by decide
  counted := by decide

/-- The arguments `1.5e-3`, `- '2'` and `( x ?? 'a' )`. -/
def maxArguments : Arguments :=
  .more (.operand (.number smallNumeral)) .one .comma .one
    (.more (.sign .negate .one (.operand (.quoted ⟨'\'', ['2'], rfl, by decide⟩))) .one .semicolon .one
      (.last (.operand (.group .one (.binary (.name (.identifier 'x' [] rfl nofun)) .one .coalesce .one
        (.operand (.quoted ⟨'\'', ['a'], rfl, by decide⟩))) .one))))

def maxPhrase : Phrase :=
  .operand (.call (.identifier 'm' ['a', 'x'] rfl (List.all_eq_true.1 rfl)) maxDef .one .one maxArguments .one)

theorem text_maxPhrase : String.ofList maxPhrase.text = "max ( 1.5e-3 , - '2' ; ( x ?? 'a' ) )" := by decide

theorem maxPhrase_fits : maxPhrase.Fits {} :=
  ⟨⟨rfl, rfl, by decide, nofun⟩, trivial, trivial, rfl, trivial⟩

namespace Phrase

/-- The phrase in a number of groups. -/
def grouped (e : Phrase) : Nat → Phrase
  | 0 => e
  | n + 1 => .operand (.group .one (e.grouped n) .one)

theorem depth_grouped (e : Phrase) (n : Nat) : (e.grouped n).depth = e.depth + n := by
  induction n with
  | zero => rfl
  | succ n ih => exact congrArg (· + 1) ih

theorem grouped_fits {s : Settings} {e : Phrase} (fits : e.Fits s) (n : Nat) : (e.grouped n).Fits s := by
  induction n with
  | zero => exact fits
  | succ n ih => exact ih

end Phrase

/-! ## Readings -/

namespace Session

/-- Where names are looked up in the context and no pattern is asked of them, a phrase that fits the settings is read
to the row of its own parts, down to the arguments and groups, when it nests no deeper than formulas may, and refused
for its depth otherwise. -/
theorem read_phrase (session : Session) {engine : Engine} (plain : engine.settings.Plain) {e : Phrase}
    (fits : e.Fits engine.settings) :
    (e.depth ≤ maxNesting →
      session.read engine (String.ofList e.text) = .ok (e.formulaIn engine.settings true e.text)) ∧
    (maxNesting < e.depth → session.read engine (String.ofList e.text) = .error (.nestingTooDeep maxNesting)) := by
  rw [read_eq, ReadingEnv.read_eq_within plain fits, Reading.within]
  constructor
  · intro shallow
    rw [if_pos shallow]
    rfl
  · intro deep
    rw [if_neg (Nat.not_le_of_gt deep)]
    rfl

theorem read_phrase_maxPhrase : ({} : Settings).Plain ∧ maxPhrase.Fits {} ∧ (maxPhrase.grouped 127).Fits {} ∧
    (after literalHistory).read ⟨1, {}, 0⟩ "max ( 1.5e-3 , - '2' ; ( x ?? 'a' ) )" =
      .ok (maxPhrase.formulaIn {} true maxPhrase.text) ∧
    (after literalHistory).read ⟨1, {}, 0⟩ (String.ofList (maxPhrase.grouped 127).text) =
      .error (.nestingTooDeep 128) := by
  have plain : ({} : Settings).Plain := ⟨rfl, rfl⟩
  have deep : maxNesting < (maxPhrase.grouped 127).depth := by
    rw [Phrase.depth_grouped]
    decide
  have fits : (maxPhrase.grouped 127).Fits {} := Phrase.grouped_fits maxPhrase_fits 127
  have accepted := (@read_phrase (after literalHistory) ⟨1, {}, 0⟩ plain maxPhrase maxPhrase_fits).1 (by decide)
  have refused := (@read_phrase (after literalHistory) ⟨1, {}, 0⟩ plain (maxPhrase.grouped 127) fits).2 deep
  rw [text_maxPhrase] at accepted
  exact ⟨plain, maxPhrase_fits, fits, accepted, refused⟩

end Session

/-! ## Names that call nothing, and numerals that are not read -/

/-- A numeral without a sign is refused where its units are not read. -/
theorem Settings.read_unread (s : Settings) {n : Decimal.Numeral} (unsigned : n.sign = .none)
    (unread : Decimal.readUnits (Decimal.ungapped n.chars) = none) :
    s.read (String.ofList n.chars) = .error (.invalidToken (String.ofList n.chars)) := by
  have isNumeral := n.isNumeral_chars
  have solid := Decimal.solid_of_isNumeral isNumeral
  have lexed : lexemes n.chars = [.word n.chars] := by
    have pending := Lexeme.lexFrom_numeral isNumeral (n.dropSign_chars unsigned) []
    rw [List.append_nil] at pending
    exact pending.trans (Lexeme.lexFrom_pending solid.shown .nil)
  have word : Piece.ofWord s n.chars = .error (.invalidToken (String.ofList n.chars)) := by
    rw [Piece.ofWord, if_pos isNumeral, Decimal.parseChars_numeral solid.trimmed, unread]
  refine Settings.read_error ?_
  rw [String.toList_ofList, Direct.formula, lexed, Direct.addAll, Direct.add, word]
  rfl

/-- `0.` and so many zeros -/
def zeroPlaces (count : Nat) : Decimal.Numeral where
  sign := .none
  whole := ['0']
  fraction := some (List.replicate count '0')
  power := none
  gapped := List.forall_mem_cons.2 ⟨rfl, fun c mem => by rw [List.eq_of_mem_replicate mem]; rfl⟩
  shown := ⟨'0', List.mem_cons_self, rfl⟩
  starts := by decide

theorem zeroPlaces_unread {count : Nat} (many : 4294967315 < count) :
    Decimal.readUnits (Decimal.ungapped (zeroPlaces count).chars) = none := by
  have places : (zeroPlaces count).places = count := by
    simp [Decimal.Numeral.places, zeroPlaces, Decimal.ungapped]
  have shift : (zeroPlaces count).shift = 20 - count := by
    rw [Decimal.Numeral.shift, places]
    exact add_zero _
  refine Option.eq_none_iff_forall_ne_some.2 fun u read => ?_
  obtain ⟨-, counted, -⟩ := (Decimal.readUnits_eq_some_iff _ u).1 read
  omega

namespace Session

/-- A function is not called where a constant has its name, nor where its name is a number. A numeral is refused where
its exponent is written with ten digits, or where too many of its digits are beyond the last place. -/
theorem registered_not_called :
    (({} : Settings).functions.get? "max" = some maxDef ∧ maxDef.Accepts 1 ∧
      Settings.read { constants := [("max", .number (.ofInt 5))] } "max ( 1 )" = .error .missingOperator) ∧
    ((Builtin.table.register ⟨"1", 1, some 1, Builtin.abs⟩).get? "1" = some ⟨"1", 1, some 1, Builtin.abs⟩ ∧
      Settings.read { functions := Builtin.table.register ⟨"1", 1, some 1, Builtin.abs⟩ } "1 ( 1 )" =
        .error .missingOperator) ∧
    (Decimal.tenthDigit.exponent = 1 ∧ String.ofList Decimal.tenthDigit.chars = "1e0000000001" ∧
      Settings.read {} "1e0000000001" = .error (.invalidToken "1e0000000001")) ∧
    ((zeroPlaces 4294967316).exponent = 0 ∧
      Settings.read {} (String.ofList (zeroPlaces 4294967316).chars) =
        .error (.invalidToken (String.ofList (zeroPlaces 4294967316).chars))) := by
  have written : String.ofList Decimal.tenthDigit.chars = "1e0000000001" := rfl
  have tenth := @Settings.read_unread {} Decimal.tenthDigit rfl rfl
  have uncounted := @Settings.read_unread {} (zeroPlaces 4294967316) rfl (zeroPlaces_unread (by decide))
  rw [written] at tenth
  refine ⟨⟨rfl, ⟨by decide, nofun⟩, SameVerdict.eq_error ?_⟩, ⟨rfl, SameVerdict.eq_error ?_⟩, ⟨rfl, written, tenth⟩,
    rfl, uncounted⟩
  · show _ = Except.error FormulaError.missingOperator
    decide
  · show _ = Except.error FormulaError.missingOperator
    decide

end Session

end ExactFormula
