import Mathlib.Data.List.Forall2
import ExactFormula.Proofs.Formula.Turns
import ExactFormula.Proofs.Reading.Running

/-!
How pieces are arranged to parts. Where all names have references, pieces are accepted exactly when they read as
operands with signs in front and binary operators between, and what stands where it may not first is reported.
-/

namespace ExactFormula

/-- The settings have a reference for the name. -/
structure Settings.Resolves (s : Settings) (name : String) : Prop where
  found : ∀ pattern, s.tokenPattern = some pattern → pattern.foundIn name = true
  made : ∀ factory, s.reference = some factory → ∃ resolver, factory name = .ok resolver

/-- A reference to the name, with a resolver where the settings make such. -/
inductive Reference.Refers (s : Settings) (name : String) : Reference → Prop
  | lookup (plain : s.reference = none) : Refers s name ⟨name, .lookup s.default⟩
  | custom {factory : ReferenceFactory} (given : s.reference = some factory) (resolver : Resolver) :
    Refers s name ⟨name, .custom resolver⟩

/-- An operand or a sign stands where an operand is expected, a binary operator where none is. -/
def Part.MayStand {α : Type} : (operandExpected : Bool) → Part α → Prop
  | expected, .operand _ => expected = true
  | expected, .unary _ => expected = true
  | expected, .binary _ => expected = false

namespace Piece

variable {s : Settings} {env : ReadingEnv} {first expected : Bool} {p : Piece} {pieces : List Piece}
  {part : Part Operand} {parts : List (Part Operand)} {e : FormulaError} {c : Cache}

/-! ## Where pieces may stand -/

/-- The part that a piece may become: an operator of its symbol, a reference to its name, its operand. -/
inductive Stands (s : Settings) : Piece → Part Operand → Prop
  | unary {symbol : List Char} (op : UnaryOp) (known : symbol = op.chars) : Stands s (operator symbol) (.unary op)
  | binary {symbol : List Char} (op : BinaryOp) (known : symbol = op.chars) : Stands s (operator symbol) (.binary op)
  | name {text : String} {r : Reference} (refers : r.Refers s text) : Stands s (name text) (.operand (.reference r))
  | bracketName {text : String} {r : Reference} (refers : r.Refers s text) :
    Stands s (bracketName text) (.operand (.reference r))
  | operand (a : Operand) : Stands s (operand a) (.operand a)

/-- Whether an operand is expected behind the pieces: behind an operator. -/
def expectsOperand (expected : Bool) : List Piece → Bool
  | [] => expected
  | p :: pieces => expectsOperand p.symbol?.isSome pieces

/-- What a piece is refused for where an operand is expected, or where none is. -/
inductive Offends : (operandExpected : Bool) → Piece → FormulaError → Prop
  | operand {p : Piece} (operand : p.symbol? = none) : Offends false p .missingOperator
  | binary {symbol : List Char} (op : BinaryOp) (known : symbol = op.chars)
    (noSign : ∀ sign : UnaryOp, symbol ≠ sign.chars) :
    Offends true (operator symbol) (.operatorPosition (String.ofList symbol))
  | unary {symbol : List Char} (op : UnaryOp) (known : symbol = op.chars)
    (noBinary : ∀ binary : BinaryOp, symbol ≠ binary.chars) :
    Offends false (operator symbol) (.operatorPosition (String.ofList symbol))
  | unknown (expected : Bool) {symbol : List Char} (noSign : ∀ sign : UnaryOp, symbol ≠ sign.chars)
    (noBinary : ∀ binary : BinaryOp, symbol ≠ binary.chars) :
    Offends expected (operator symbol) (.unknownOperator (String.ofList symbol))

/-- No piece is refused where it stands. -/
def Unoffending (expected : Bool) (pieces : List Piece) : Prop :=
  ∀ before p after, pieces = before ++ p :: after → ∀ e, ¬Offends (expectsOperand expected before) p e

/-- What pieces are refused for: the leftmost one that is, or, if none is, that there are none or that an operand is
missing at their end. -/
inductive Fault : (first operandExpected : Bool) → List Piece → FormulaError → Prop
  | piece {first expected : Bool} {before : List Piece} {p : Piece} {e : FormulaError} (after : List Piece)
    (unoffending : Unoffending expected before) (offends : Offends (expectsOperand expected before) p e) :
    Fault first expected (before ++ p :: after) e
  | empty (expected : Bool) : Fault true expected [] .emptyExpression
  | ending {first expected : Bool} {pieces : List Piece} (shown : pieces = [] → first = false)
    (unoffending : Unoffending expected pieces) (missing : expectsOperand expected pieces = true) :
    Fault first expected pieces .trailingOperator

/-! ### One piece -/

theorem Offends.unique {e' : FormulaError} (h : Offends expected p e) (h' : Offends expected p e') : e = e' := by
  cases h with
  | operand operand =>
    cases h' with
    | operand => rfl
    | unary | unknown => cases operand
  | binary op known noSign =>
    cases h' with
    | binary => rfl
    | unknown _ _ noBinary => exact absurd known (noBinary op)
  | unary op known noBinary =>
    cases h' with
    | operand operand => cases operand
    | unary => rfl
    | unknown _ noSign _ => exact absurd known (noSign op)
  | unknown _ noSign noBinary =>
    cases h' with
    | operand operand => cases operand
    | binary op known => exact absurd known (noBinary op)
    | unary op known => exact absurd known (noSign op)
    | unknown => rfl

/-- A piece that stands for a part which may come next is not refused. -/
theorem Stands.not_offends (h : Stands s p part) (turn : part.MayStand expected) : ¬Offends expected p e := by
  intro offends
  cases h with
  | unary op known =>
    cases turn
    cases offends with
    | binary _ _ noSign | unknown _ noSign _ => exact noSign op known
  | binary op known =>
    cases turn
    cases offends with
    | operand operand => cases operand
    | unary _ _ noBinary | unknown _ _ noBinary => exact noBinary op known
  | name | bracketName | operand =>
    cases turn
    cases offends

/-- Behind the part an operand is expected exactly if the piece is an operator. -/
theorem Stands.alternate_cons (h : Stands s p part) : Part.Alternate expected (part :: parts) ↔
    part.MayStand expected ∧ Part.Alternate p.symbol?.isSome parts := by
  cases h <;> exact Iff.rfl

/-- An operator is the part that it may be where it stands, or is refused there. -/
theorem operatorPart_outcome (s : Settings) (expected : Bool) (symbol : List Char) :
    (∃ part, operatorPart expected symbol = .ok part ∧ Stands s (operator symbol) part ∧ part.MayStand expected) ∨
    ∃ e, operatorPart (α := Operand) expected symbol = .error e ∧ Offends expected (operator symbol) e := by
  unfold operatorPart
  split
  case h_1 _ op sign => exact .inl ⟨_, rfl, .unary op (UnaryOp.ofChars?_eq_some_iff.1 sign), rfl⟩
  case h_2 op binary => exact .inl ⟨_, rfl, .binary op (BinaryOp.ofChars?_eq_some_iff.1 binary), rfl⟩
  case h_3 op noSign binary =>
    exact .inr ⟨_, rfl, .binary op (BinaryOp.ofChars?_eq_some_iff.1 binary) (UnaryOp.ofChars?_eq_none_iff.1 noSign)⟩
  case h_4 op sign noBinary =>
    exact .inr ⟨_, rfl, .unary op (UnaryOp.ofChars?_eq_some_iff.1 sign) (BinaryOp.ofChars?_eq_none_iff.1 noBinary)⟩
  case h_5 noSign noBinary =>
    exact .inr ⟨_, rfl, .unknown _ (UnaryOp.ofChars?_eq_none_iff.1 noSign) (BinaryOp.ofChars?_eq_none_iff.1 noBinary)⟩

/-- A name that the settings have a reference for is read to one on every cache. -/
theorem run_readReference {text : String} (resolves : env.settings.Resolves text) (c : Cache) :
    ∃ r c', (readReference env text).run c = (.ok r, c') ∧ r.Refers env.settings text := by
  have found : env.settings.tokenPattern.any (!·.foundIn text) = false := by
    cases pattern : env.settings.tokenPattern with
    | none => rfl
    | some pattern' => rw [Option.any_some, resolves.found pattern' pattern, Bool.not_true]
  rw [readReference, found]
  cases given : env.settings.reference with
  | none => exact ⟨_, c, rfl, .lookup given⟩
  | some factory =>
    obtain ⟨resolver, made⟩ := resolves.made factory given
    simp only [Bool.false_eq_true, ↓reduceIte, Caching.run_bind, Cache.run_resolver, made]
    rcases c.findResolver (env.id, text) with ⟨_ | known, c'⟩
    · exact ⟨_, _, rfl, .custom given resolver⟩
    · exact ⟨_, _, rfl, .custom given known⟩

theorem run_prepended {x : Reading (List (Part Operand))} (part : Part Operand) (c : Cache) :
    ((do return part :: (← x) : Reading (List (Part Operand))).run c).1 = (x.run c).1.map (part :: ·) := by
  rw [Caching.run_bind]
  rcases x.run c with ⟨e | parts, c'⟩ <;> rfl

/-- The first piece is refused where it stands, or stands for the part that comes first. -/
theorem run_arrange_cons (resolves : ∀ text, p = name text ∨ p = bracketName text → env.settings.Resolves text)
    (first expected : Bool) (pieces : List Piece) (c : Cache) :
    (∃ e, ((arrange env first expected (p :: pieces)).run c).1 = .error e ∧ Offends expected p e) ∨
    ∃ part c', Stands env.settings p part ∧ part.MayStand expected ∧
      ((arrange env first expected (p :: pieces)).run c).1 =
        ((arrange env false p.symbol?.isSome pieces).run c').1.map (part :: ·) := by
  cases p with
  | operator symbol =>
    rcases operatorPart_outcome env.settings expected symbol with ⟨part, known, stands, turn⟩ | ⟨e, refused, offends⟩
    · refine .inr ⟨part, c, stands, turn, ?_⟩
      rw [arrange, Caching.run_bind, Caching.run_lift, known]
      exact run_prepended part c
    · refine .inl ⟨e, ?_, offends⟩
      rw [arrange, Caching.run_bind, Caching.run_lift, refused]
  | name text | bracketName text =>
    obtain ⟨r, c', named, refers⟩ := run_readReference (resolves text (by simp)) c
    cases expected with
    | false =>
      refine .inl ⟨_, ?_, .operand rfl⟩
      rw [arrange, Caching.run_bind, named]
      rfl
    | true =>
      refine .inr ⟨.operand (.reference r), c', ?_, rfl, ?_⟩
      · first | exact .name refers | exact .bracketName refers
      · rw [arrange, Caching.run_bind, named]
        exact run_prepended _ c'
  | operand a =>
    cases expected with
    | false => exact .inl ⟨_, rfl, .operand rfl⟩
    | true => exact .inr ⟨.operand a, c, .operand a, rfl, run_prepended _ c⟩

/-! ### The leftmost piece that is refused -/

theorem unoffending_nil (expected : Bool) : Unoffending expected [] := by
  intro before p after split
  cases before <;> cases split

theorem unoffending_cons : Unoffending expected (p :: pieces) ↔
    (∀ e, ¬Offends expected p e) ∧ Unoffending p.symbol?.isSome pieces := by
  constructor
  · intro unoffending
    refine ⟨unoffending [] p pieces rfl, fun before q after split => ?_⟩
    exact unoffending (p :: before) q after (by rw [split, List.cons_append])
  · rintro ⟨here, later⟩ before q after split
    cases before with
    | nil =>
      cases split
      exact here
    | cons b before =>
      cases split
      exact later before q after rfl

theorem fault_nil_iff : Fault first expected [] e ↔
    (first = true ∧ e = .emptyExpression) ∨ (first = false ∧ expected = true ∧ e = .trailingOperator) := by
  constructor
  · intro fault
    generalize none : [] = pieces at fault
    cases fault with
    | @piece _ _ before => cases before <;> cases none
    | empty => exact .inl ⟨rfl, rfl⟩
    | ending shown _ missing =>
      subst none
      exact .inr ⟨shown rfl, missing, rfl⟩
  · rintro (⟨rfl, rfl⟩ | ⟨rfl, rfl, rfl⟩)
    · exact .empty expected
    · exact .ending (fun _ => rfl) (unoffending_nil true) rfl

theorem fault_cons_iff : Fault first expected (p :: pieces) e ↔
    Offends expected p e ∨ (∀ e', ¬Offends expected p e') ∧ Fault false p.symbol?.isSome pieces e := by
  constructor
  · intro fault
    generalize split : p :: pieces = row at fault
    cases fault with
    | @piece _ _ before q e after unoffending offends =>
      cases before with
      | nil =>
        cases split
        exact .inl offends
      | cons b before =>
        cases split
        obtain ⟨here, later⟩ := unoffending_cons.1 unoffending
        exact .inr ⟨here, .piece after later offends⟩
    | empty => cases split
    | ending _ unoffending missing =>
      subst split
      obtain ⟨here, later⟩ := unoffending_cons.1 unoffending
      exact .inr ⟨here, .ending (fun _ => rfl) later missing⟩
  · rintro (offends | ⟨here, fault⟩)
    · exact @Fault.piece first expected [] p e pieces (unoffending_nil expected) offends
    · generalize begun : false = begun at fault
      cases fault with
      | @piece _ _ before q e after unoffending offends =>
        exact @Fault.piece first expected (p :: before) q e after (unoffending_cons.2 ⟨here, unoffending⟩) offends
      | empty => cases begun
      | ending _ unoffending missing => exact .ending nofun (unoffending_cons.2 ⟨here, unoffending⟩) missing

theorem Fault.unique {e' : FormulaError} (h : Fault first expected pieces e) (h' : Fault first expected pieces e') :
    e = e' := by
  induction pieces generalizing first expected with
  | nil =>
    rcases fault_nil_iff.1 h with ⟨rfl, rfl⟩ | ⟨rfl, -, rfl⟩ <;>
      rcases fault_nil_iff.1 h' with ⟨⟨⟩, rfl⟩ | ⟨⟨⟩, -, rfl⟩ <;> rfl
  | cons p pieces ih =>
    rcases fault_cons_iff.1 h with offends | ⟨here, later⟩ <;>
      rcases fault_cons_iff.1 h' with offends' | ⟨here', later'⟩
    · exact offends.unique offends'
    · exact absurd offends (here' _)
    · exact absurd offends' (here _)
    · exact ih later later'

/-- What stands for a row of parts is not refused. -/
theorem Fault.not_alternate (fault : Fault first expected pieces e) (begun : first = true → expected = true)
    (stands : List.Forall₂ (Stands s) pieces parts) : ¬Part.Alternate expected parts := by
  intro turns
  induction stands generalizing first expected with
  | nil =>
    rcases fault_nil_iff.1 fault with ⟨rfl, -⟩ | ⟨-, rfl, -⟩
    · cases (begun rfl).symm.trans turns
    · cases turns
  | cons here _ ih =>
    obtain ⟨turn, later⟩ := here.alternate_cons.1 turns
    rcases fault_cons_iff.1 fault with offends | ⟨-, fault⟩
    · exact here.not_offends turn offends
    · exact ih fault nofun later

/-! ## The whole row -/

/-- Pieces become parts that they stand for and that take turns, or fail with the fault that they have. -/
theorem run_arrange (resolves : ∀ text, name text ∈ pieces ∨ bracketName text ∈ pieces → env.settings.Resolves text)
    (first expected : Bool) (c : Cache) :
    (∃ parts, ((arrange env first expected pieces).run c).1 = .ok parts ∧
      List.Forall₂ (Stands env.settings) pieces parts ∧ Part.Alternate expected parts) ∨
    ∃ e, ((arrange env first expected pieces).run c).1 = .error e ∧ Fault first expected pieces e := by
  induction pieces generalizing first expected c with
  | nil =>
    cases first with
    | true => exact .inr ⟨_, rfl, .empty expected⟩
    | false =>
      cases expected with
      | true => exact .inr ⟨_, rfl, .ending (fun _ => rfl) (unoffending_nil true) rfl⟩
      | false => exact .inl ⟨[], rfl, .nil, rfl⟩
  | cons p pieces ih =>
    obtain ⟨here, behind⟩ : (∀ text, p = name text ∨ p = bracketName text → env.settings.Resolves text) ∧
        ∀ text, name text ∈ pieces ∨ bracketName text ∈ pieces → env.settings.Resolves text :=
      ⟨fun text named => resolves text (by rcases named with rfl | rfl <;> simp),
        fun text mem => resolves text (mem.imp (List.mem_cons_of_mem _) (List.mem_cons_of_mem _))⟩
    rcases run_arrange_cons here first expected pieces c with ⟨e, refused, offends⟩ | ⟨part, c', stands, turn, ran⟩
    · exact .inr ⟨e, refused, fault_cons_iff.2 (.inl offends)⟩
    · rw [ran]
      rcases ih behind false p.symbol?.isSome c' with ⟨parts, arranged, all, turns⟩ | ⟨e, refused, fault⟩
      · rw [arranged]
        exact .inl ⟨part :: parts, rfl, .cons stands all, stands.alternate_cons.2 ⟨turn, turns⟩⟩
      · rw [refused]
        exact .inr ⟨e, rfl, fault_cons_iff.2 (.inr ⟨fun _ => stands.not_offends turn, fault⟩)⟩

/-- Where all names have references, pieces are accepted exactly when they read as operands with signs in front and
binary operators between them, to the parts that they stand for, and refused otherwise for their leftmost piece that
may not stand where it does, or for what is missing at their end. -/
theorem arrange_exact (env : ReadingEnv) (c : Cache) {pieces : List Piece}
    (resolves : ∀ text, name text ∈ pieces ∨ bracketName text ∈ pieces → env.settings.Resolves text) :
    ((∃ parts, ((arrange env true true pieces).run c).1 = .ok parts) ↔
      ∃ row : Row Operand, List.Forall₂ (Stands env.settings) pieces row.parts) ∧
    (∀ parts, ((arrange env true true pieces).run c).1 = .ok parts →
      List.Forall₂ (Stands env.settings) pieces parts ∧ ∃ row : Row Operand, parts = row.parts) ∧
    ∀ e, ((arrange env true true pieces).run c).1 = .error e ↔ Fault true true pieces e := by
  rcases run_arrange resolves true true c with ⟨parts, arranged, stands, turns⟩ | ⟨e, refused, fault⟩
  · obtain ⟨row, rfl⟩ := Part.exists_row_of_alternate.1 turns
    rw [arranged]
    refine ⟨⟨fun _ => ⟨row, stands⟩, fun _ => ⟨row.parts, rfl⟩⟩, ?_, fun e => ⟨nofun, fun fault => ?_⟩⟩
    · rintro _ ⟨⟩
      exact ⟨stands, row, rfl⟩
    · exact absurd turns (fault.not_alternate (fun _ => rfl) stands)
  · rw [refused]
    refine ⟨⟨nofun, fun ⟨row, stands⟩ => ?_⟩, nofun, fun e' => ⟨?_, fun fault' => ?_⟩⟩
    · exact absurd row.alternate_parts (fault.not_alternate (fun _ => rfl) stands)
    · rintro ⟨⟩
      exact fault
    · rw [fault.unique fault']

/-- Names begin with a small letter and resolve to themselves. -/
def lettered : Settings where
  tokenPattern := some ⟨"^[a-z]", .seq .atStart (.one (.range 'a' 'z'))⟩
  reference := some fun name => .ok fun _ => .ok (.string name)

theorem lettered_resolves : lettered.Resolves "x" ∧ lettered.Resolves "y z" :=
  ⟨⟨by rintro _ ⟨⟩; rfl, by rintro _ ⟨⟩; exact ⟨_, rfl⟩⟩, ⟨by rintro _ ⟨⟩; rfl, by rintro _ ⟨⟩; exact ⟨_, rfl⟩⟩⟩

/-- In `-x + ![y z] ?? 't'` the first sign is one and the second is none. In `x ! y z = ` the operator that is no binary
one is reported, the unknown one behind it is not, and in `x + -` an operand is missing. -/
theorem arrange_exact_lettered :
    (∃ parts, ((arrange ⟨lettered, 0⟩ true true [operator ['-'], name "x", operator ['+'], operator ['!'],
        bracketName "y z", operator ['?', '?'], operand (.text "t")]).run (.empty 0 0)).1 = .ok parts ∧
      ∃ row : Row Operand, parts = row.parts) ∧
    ((arrange ⟨lettered, 0⟩ true true [name "x", operator ['!'], bracketName "y z", operator ['=']]).run
      (.empty 0 0)).1 = .error (.operatorPosition "!") ∧
    ((arrange ⟨lettered, 0⟩ true true [name "x", operator ['+'], operator ['-']]).run (.empty 0 0)).1 =
      .error .trailingOperator := by
  obtain ⟨x, yz⟩ := lettered_resolves
  have x' : (⟨"x", .custom fun _ => .ok (.string "x")⟩ : Reference).Refers lettered "x" := .custom rfl _
  have yz' : (⟨"y z", .custom fun _ => .ok (.string "y z")⟩ : Reference).Refers lettered "y z" := .custom rfl _
  refine ⟨?_, ?_, ?_⟩
  · obtain ⟨accepted, same, -⟩ := @arrange_exact ⟨lettered, 0⟩ (.empty 0 0) [operator ['-'], name "x", operator ['+'],
      operator ['!'], bracketName "y z", operator ['?', '?'], operand (.text "t")] (by simp [x, yz])
    obtain ⟨parts, arranged⟩ := accepted.2 ⟨⟨⟨[.negate], .reference _⟩,
      [(.add, ⟨[.not], .reference _⟩), (.coalesce, ⟨[], .text "t"⟩)]⟩,
      .cons (.unary .negate rfl) (.cons (.name x') (.cons (.binary .add rfl) (.cons (.unary .not rfl)
        (.cons (.bracketName yz') (.cons (.binary .coalesce rfl) (.cons (.operand _) .nil))))))⟩
    exact ⟨parts, arranged, (same parts arranged).2⟩
  · obtain ⟨-, -, refused⟩ := @arrange_exact ⟨lettered, 0⟩ (.empty 0 0) [name "x", operator ['!'], bracketName "y z",
      operator ['=']] (by simp [x, yz])
    have clear : Unoffending true [name "x"] :=
      unoffending_cons.2 ⟨fun _ => Stands.not_offends (.name x') rfl, unoffending_nil false⟩
    have noBinary (op : BinaryOp) : ['!'] ≠ op.chars := by
      cases op <;> decide
    exact (refused _).2 (@Fault.piece true true [name "x"] _ _ _ clear (.unary .not rfl noBinary))
  · obtain ⟨-, -, refused⟩ := @arrange_exact ⟨lettered, 0⟩ (.empty 0 0) [name "x", operator ['+'], operator ['-']]
      (by simp [x])
    have sum : Stands lettered (operator ['+']) (.binary .add) := .binary .add rfl
    have sign : Stands lettered (operator ['-']) (.unary .negate) := .unary .negate rfl
    have clear : Unoffending true [name "x", operator ['+'], operator ['-']] :=
      unoffending_cons.2 ⟨fun _ => Stands.not_offends (.name x') rfl,
        unoffending_cons.2 ⟨fun _ => sum.not_offends rfl,
          unoffending_cons.2 ⟨fun _ => sign.not_offends rfl, unoffending_nil true⟩⟩⟩
    exact (refused _).2 (.ending nofun clear rfl)

end Piece

end ExactFormula
