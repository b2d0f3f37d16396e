import ExactFormula.Proofs.Reading.Direct
import ExactFormula.Proofs.Reading.Running
import ExactFormula.Proofs.Reading.Tokens

/-!
Phrases that fit the settings are read to their parts, whatever is in the cache, where there are as many levels as
they need. With fewer levels they are too deep, and nothing else is wrong with them.
-/

namespace ExactFormula

variable {α β : Type}

/-! ## Levels -/

/-- The reading of what needs so many of the levels that there are. -/
def Reading.within (levels needs : Nat) (a : α) : Reading α := if needs ≤ levels then pure a else throw tooDeep

namespace Reading

variable {levels n m : Nat} {a : α} {b : β} {f : α → Reading β}

theorem within_zero (levels : Nat) (a : α) : within levels 0 a = pure a := if_pos (Nat.zero_le levels)

theorem within_succ (levels n : Nat) (a : α) : within (levels + 1) (n + 1) a = within levels n a := by
  simp only [within, Nat.add_le_add_iff_right]

theorem within_bind (levels n : Nat) (a : α) (f : α → Reading β) :
    within levels n a >>= f = if n ≤ levels then f a else throw tooDeep := by
  rw [within]
  split <;> rfl

theorem within_bind_pure (levels n : Nat) (a : α) (g : α → β) :
    (within levels n a >>= fun a => pure (g a)) = within levels n (g a) := within_bind levels n a _

/-- Two readings in a row need the levels of the one that needs more. -/
theorem within_bind_within (h : f a = within levels m b) : within levels n a >>= f = within levels (max n m) b := by
  rw [within_bind, h, within, within]
  by_cases first : n ≤ levels
  · simp only [first, if_true, Nat.max_le, true_and]
  · rw [if_neg first, if_neg fun both => first (Nat.max_le.1 both).1]

end Reading

/-! ## Pieces -/

def Term.pieceIn (s : Settings) : Term → Piece
  | .name w => .name w.string
  | t => .operand (t.operandIn s)

def Phrase.piecesIn (s : Settings) : Phrase → List Piece
  | .operand t => [t.pieceIn s]
  | .sign op _ rest => .operator op.chars :: rest.piecesIn s
  | .binary t _ op _ rest => t.pieceIn s :: .operator op.chars :: rest.piecesIn s

/-- Parentheses behind these pieces are a group. -/
def Piece.Ready (pieces : List Piece) : Prop := ∀ function ps, pieces ≠ .name function :: ps

theorem Piece.Ready.nil : Ready [] := nofun

theorem Piece.Ready.operator (symbol : List Char) (pieces : List Piece) : Ready (.operator symbol :: pieces) := nofun

variable {env : ReadingEnv} {nested : NestedReader}

namespace Piece

theorem ofWord_numeral (s : Settings) (n : Numeral) :
    ofWord s n.text = .ok (.operand (.constant (.number n.value))) := by
  rw [ofWord, if_pos n.isNumeral, n.parseChars_text]

theorem ofWord_word {s : Settings} {w : Word} (unnamed : s.constants.get? w.string = none) :
    ofWord s w.chars = .ok (.name w.string) := by
  have named : w.chars.all isNameChar = true := List.all_eq_true.2 w.all
  rw [Word.string] at unnamed
  rw [ofWord, if_neg (by rw [w.words]; exact Bool.false_ne_true), unnamed]
  exact if_pos named

theorem add_word {pieces : List Piece} {text : List Char} {p : Piece} (h : ofWord env.settings text = .ok p) :
    add env nested pieces (.word text) = pure (p :: pieces) := by
  rw [add, h]
  rfl

/-! ## Groups and calls -/

variable {levels needs : Nat}

theorem readGroup_eq {inner : List Char} {f : Formula} (shown : (Text.trim inner).isEmpty = false)
    (read : nested false inner = Reading.within levels needs f) :
    readGroup nested inner = Reading.within levels needs (.group f) := by
  rw [readGroup, shown, read]
  exact Reading.within_bind_pure levels needs f Operand.group

theorem readArgs_cons {function : String} {index : Nat} {text : List Char} {texts : List (List Char)}
    (shown : (Text.trim text).isEmpty = false) : readArgs nested function index (text :: texts) = do
      return (← nested false text) :: (← readArgs nested function (index + 1) texts) := by
  rw [readArgs, shown]
  rfl

theorem readCall_eq {w : Word} {definition : FunctionDef} {inner : List Char} {texts : List (List Char)}
    {fs : List Formula}
    (split : (if (Text.trim inner).isEmpty then [] else Lexeme.splitArgs inner) = texts)
    (calls : w.Calls env.settings definition texts.length)
    (read : readArgs nested w.string 1 texts = Reading.within levels needs fs) :
    readCall env nested w.string inner = Reading.within levels needs (.call w.string definition.run fs) := by
  rw [readCall, calls.known]
  dsimp only
  rw [split, FunctionDef.arityFault?_eq_none_iff.2 calls.accepted]
  dsimp only
  rw [read]
  exact Reading.within_bind_pure levels needs fs _

end Piece

/-! ## Parts -/

/-- Names stand for themselves: there is no pattern for them, and the context is where they are looked up. -/
structure Settings.Plain (s : Settings) : Prop where
  reference : s.reference = none
  tokenPattern : s.tokenPattern = none

variable {levels : Nat}

theorem arrange_term (plain : env.settings.Plain) (first : Bool) (t : Term) (pieces : List Piece) :
    Piece.arrange env first true (t.pieceIn env.settings :: pieces) = do
      return .operand (t.operandIn env.settings) :: (← Piece.arrange env false false pieces) := by
  cases t with
  | name w =>
    have named : Piece.readReference env w.string = pure ⟨w.string, .lookup env.settings.default⟩ := by
      rw [Piece.readReference, plain.tokenPattern, plain.reference]
      rfl
    rw [Term.pieceIn, Piece.arrange, named]
    rfl
  | number | quoted | group | call | callEmpty => rfl

theorem arrange_phrase (plain : env.settings.Plain) : (first : Bool) → (e : Phrase) →
    Piece.arrange env first true (e.piecesIn env.settings) = pure (e.partsIn env.settings)
  | first, .operand t => by
      rw [Phrase.piecesIn, arrange_term plain]
      rfl
  | first, .sign op _ rest => by
      have part : Piece.operatorPart (α := Operand) true op.chars = .ok (.unary op) := by cases op <;> rfl
      rw [Phrase.piecesIn, Piece.arrange, part, arrange_phrase plain false rest]
      rfl
  | first, .binary t _ op _ rest => by
      have part : Piece.operatorPart (α := Operand) false op.chars = .ok (.binary op) := by cases op <;> rfl
      rw [Phrase.piecesIn, arrange_term plain, Piece.arrange, part, arrange_phrase plain false rest]
      rfl

/-! ## Phrases -/

/-- The formula that a phrase is, with the plan that there is to be. -/
def Phrase.formulaIn (s : Settings) (planned : Bool) (text : List Char) (e : Phrase) : Formula :=
  let parts := e.partsIn s
  ⟨String.ofList text, parts, s.numeric,
    if planned && s.compile && (Single.ofParts parts).isNone then Plan.ofParts? s.numeric parts else none⟩

def Phrase.Added (env : ReadingEnv) (e : Phrase) : Prop :=
  ∀ levels pieces, Piece.Ready pieces → Piece.addAll env (readFormula env levels) pieces e.lexemes =
    Reading.within levels e.depth (pieces.reverse ++ e.piecesIn env.settings)

theorem Phrase.Added.read {e : Phrase} (added : e.Added env) (plain : env.settings.Plain) {before after : List Char}
    (opening : ∀ c ∈ before, Text.isBlank c = true) (closing : ∀ c ∈ after, Text.isBlank c = true) (levels : Nat)
    (planned : Bool) : readFormula env levels planned (before ++ (e.text ++ after)) =
      Reading.within levels (e.depth + 1) (e.formulaIn env.settings planned (before ++ (e.text ++ after))) := by
  cases levels with
  | zero => exact (if_neg (Nat.not_succ_le_zero _)).symm
  | succ levels =>
    rw [readFormula, e.lexemes_eq opening closing, added levels [] .nil, Reading.within_succ, List.reverse_nil,
      List.nil_append, Reading.within_bind, arrange_phrase plain]
    rfl

theorem addAll_cons {pieces pieces' : List Piece} {l : Lexeme} (h : Piece.add env nested pieces l = pure pieces')
    (ls : List Lexeme) : Piece.addAll env nested pieces (l :: ls) = Piece.addAll env nested pieces' ls := by
  rw [Piece.addAll, h]
  rfl

/-- A word and parentheses behind it are a call. -/
theorem addAll_call {w : Word} {inner : List Char} {needs : Nat} {a : Operand}
    (unnamed : env.settings.constants.get? w.string = none)
    (read : Piece.readCall env nested w.string inner = Reading.within levels needs a) (ls : List Lexeme)
    (pieces : List Piece) : Piece.addAll env nested pieces (.word w.chars :: .parens inner :: ls) =
      Reading.within levels needs (.operand a :: pieces) >>= fun pieces => Piece.addAll env nested pieces ls := by
  rw [addAll_cons (Piece.add_word (Piece.ofWord_word unnamed)), Piece.addAll, Piece.add, read,
    Reading.within_bind_pure levels _ _ fun a => Piece.operand a :: pieces]

-- By induction on the phrase, with any number of levels: a group or an argument is read with one level less.
mutual
theorem Term.added (plain : env.settings.Plain) (levels : Nat) {pieces : List Piece} (ready : Piece.Ready pieces)
    (ls : List Lexeme) : (t : Term) → t.Fits env.settings →
    Piece.addAll env (readFormula env levels) pieces (t.lexemes ++ ls) =
      Reading.within levels t.depth (t.pieceIn env.settings :: pieces) >>= fun pieces =>
        Piece.addAll env (readFormula env levels) pieces ls
  | .number n, _ => by
      rw [Term.depth, Reading.within_zero]
      exact addAll_cons (Piece.add_word (Piece.ofWord_numeral _ n)) ls
  | .name w, unnamed => by
      rw [Term.depth, Reading.within_zero]
      exact addAll_cons (Piece.add_word (Piece.ofWord_word unnamed)) ls
  | .quoted q, _ => by
      rw [Term.depth, Reading.within_zero]
      rfl
  | .group before inner after, fits => by
      have read := (Phrase.added plain inner fits).read plain before.blank after.blank levels false
      have grouped := Piece.readGroup_eq (Text.trim_isEmpty_around inner.exists_shown) read
      rw [Term.lexemes, List.singleton_append, Piece.addAll, Piece.add_parens_of_no_name ready, grouped,
        Reading.within_bind_pure levels _ _ fun a => Piece.operand a :: pieces]
      rfl
  | .call w f gap before args after, ⟨calls, fits⟩ => by
      have read := Arguments.read plain levels w.string 1 before.blank after.blank args fits
      have split : (if (Text.trim (before.chars ++ (args.text ++ after.chars))).isEmpty then [] else
          Lexeme.splitArgs (before.chars ++ (args.text ++ after.chars))) = args.texts before.chars after.chars := by
        rw [Text.trim_isEmpty_around args.exists_shown, args.splitArgs_texts (.space before) (.space after)]
        rfl
      rw [← args.length_texts before.chars after.chars] at calls
      exact addAll_call calls.unnamed (Piece.readCall_eq split calls read) ls pieces
  | .callEmpty w f gap inside, calls => by
      have split : (if (Text.trim inside.chars).isEmpty then [] else Lexeme.splitArgs inside.chars) = [] := by
        rw [Text.trim_blank inside.blank]
        rfl
      have read : Piece.readArgs (readFormula env levels) w.string 1 [] = Reading.within levels 0 [] :=
        (Reading.within_zero levels []).symm
      exact addAll_call calls.unnamed (Piece.readCall_eq split calls read) ls pieces

theorem Phrase.added (plain : env.settings.Plain) : (e : Phrase) → e.Fits env.settings → e.Added env
  | .operand t, fits, levels, pieces, ready => by
      have added := Term.added plain levels ready [] t fits
      rw [List.append_nil] at added
      rw [Phrase.lexemes, added]
      refine (Reading.within_bind_pure levels _ _ List.reverse).trans ?_
      rw [List.reverse_cons]
      rfl
  | .sign op gap rest, fits, levels, pieces, ready => by
      have added := Phrase.added plain rest fits levels (.operator op.chars :: pieces) (.operator op.chars pieces)
      rw [Phrase.lexemes, addAll_cons rfl, added, List.reverse_cons, List.append_assoc]
      rfl
  | .binary t before op after rest, ⟨fits, fits'⟩, levels, pieces, ready => by
      have added := Phrase.added plain rest fits' levels (.operator op.chars :: t.pieceIn env.settings :: pieces)
        (.operator op.chars _)
      rw [Phrase.lexemes, Term.added plain levels ready _ t fits]
      refine Reading.within_bind_within ?_
      rw [addAll_cons rfl, added, List.reverse_cons, List.reverse_cons, List.append_assoc, List.append_assoc]
      rfl

theorem Arguments.read (plain : env.settings.Plain) (levels : Nat) (function : String) (index : Nat)
    {before after : List Char} (opening : ∀ c ∈ before, Text.isBlank c = true)
    (closing : ∀ c ∈ after, Text.isBlank c = true) : (args : Arguments) → args.Fits env.settings →
    Piece.readArgs (readFormula env levels) function index (args.texts before after) =
      Reading.within levels args.depth (args.formulasIn env.settings before after)
  | .last e, fits => by
      have read := (Phrase.added plain e fits).read plain opening closing levels false
      rw [Arguments.texts, Piece.readArgs_cons (Text.trim_isEmpty_around e.exists_shown), read]
      exact Reading.within_bind_pure levels _ _ fun f => [f]
  | .more e gap separator next rest, ⟨fits, fits'⟩ => by
      have read := (Phrase.added plain e fits).read plain opening gap.blank levels false
      have later := Arguments.read plain levels function (index + 1) next.blank closing rest fits'
      rw [Arguments.texts, Piece.readArgs_cons (Text.trim_isEmpty_around e.exists_shown), read, later]
      exact Reading.within_bind_within (Reading.within_bind_pure levels _ _ _)
end

/-- A phrase that fits the settings is read to its parts when it is not too deep. -/
theorem ReadingEnv.read_eq_within (plain : env.settings.Plain) {e : Phrase} (fits : e.Fits env.settings) :
    env.read (String.ofList e.text) =
      Reading.within maxNesting e.depth (e.formulaIn env.settings true e.text) := by
  have read := (e.added plain fits).read plain (List.forall_mem_nil _) (List.forall_mem_nil _) (maxNesting + 1) true
  rw [List.nil_append, List.append_nil, Reading.within_succ] at read
  rw [ReadingEnv.read, String.toList_ofList, read]

end ExactFormula
