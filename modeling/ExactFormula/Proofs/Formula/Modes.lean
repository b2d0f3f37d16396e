import ExactFormula.Proofs.Formula.Dependence
import ExactFormula.Proofs.Formula.Turns

/-!
Where the two modes agree. Arithmetic, signs and the deciding operators give numbers for numbers, and never look
at truth or text then. A formula of numbers, references and groups of such computes the same in both modes, as long
as its references are numbers.
-/

namespace ExactFormula

/-! ## Operators on numbers -/

/-- A number, or a failure. -/
inductive Outcome.OfNumbers : Outcome → Prop
  | number (d : Decimal) : OfNumbers (.ok (.number d))
  | failed (e : FormulaError) : OfNumbers (.error e)

def UnaryOp.keepsNumbers : UnaryOp → Bool
  | not => false
  | negate | plus => true

theorem UnaryOp.ofOutcome_numbers {op : UnaryOp} (keeps : op.keepsNumbers = true) {r : Outcome} (h : r.OfNumbers) :
    (op.ofOutcome r).OfNumbers := by
  cases h with
  | failed e => exact .failed e
  | number d =>
    cases op with
    | not => cases keeps
    | negate => exact .number (-d)
    | plus => exact .number d

namespace BinaryOp

/-- Comparisons give truth for numbers, the others give numbers. -/
def keepsNumbers : BinaryOp → Bool
  | less | lessEqual | greater | greaterEqual | equal | notEqual => false
  | power | multiply | divide | modulo | add | subtract | and | or | coalesce => true

variable {op : BinaryOp} {numeric : Bool} {l r : Outcome}

/-- A number that decides is itself the result, in both modes. -/
theorem decided?_number (numeric : Bool) (op : BinaryOp) (d : Decimal) : op.decided? numeric (.number d) =
    if (op = and → d.isZero = true) ∧ (op = or → d.isZero = false) then some (.number d) else none := by
  cases numeric <;> cases op <;> cases zero : d.isZero <;>
    simp [decided?, Value.isTruthy, Value.isNull, Value.toNumber, Value.number?, zero]

theorem settle_number (numeric : Bool) (op : BinaryOp) (d : Decimal) : op.settle numeric (.number d) = .number d := by
  rw [settle]
  split <;> rfl

/-- Without a deciding operand both modes do arithmetic on numbers. -/
theorem apply_number (keeps : op.keepsNumbers = true) (short : op.isShortCircuit = false) (numeric : Bool)
    (l r : Decimal) : op.apply numeric (.number l) (.number r) = op.arithmetic l r := by
  rw [apply, short]
  cases numeric with
  | true => rfl
  | false => cases op <;> first | rfl | cases keeps

theorem arithmetic_numbers (keeps : op.keepsNumbers = true) (short : op.isShortCircuit = false) (l r : Decimal) :
    (op.arithmetic l r).OfNumbers := by
  have ofDecimal (r : Except DecimalError Decimal) : Outcome.OfNumbers ((FormulaError.ofDecimal r).map .number) := by
    cases r with
    | error e => exact .failed _
    | ok d => exact .number d
  cases op with
  | power => exact ofDecimal (l.pow r)
  | multiply => exact .number _
  | divide => exact ofDecimal (l.div r)
  | modulo => exact ofDecimal (l.rem r)
  | add => exact .number _
  | subtract => exact .number _
  | less | lessEqual | greater | greaterEqual | equal | notEqual => cases keeps
  | and | or | coalesce => cases short

theorem ofOutcomes_deciding (short : op.isShortCircuit = true) (numeric : Bool) (d : Decimal) (hr : r.OfNumbers) :
    op.ofOutcomes numeric (.ok (.number d)) r =
      if (op = and → d.isZero = true) ∧ (op = or → d.isZero = false) then .ok (.number d) else r := by
  rw [ofOutcomes, Outcome.ok_bind, if_pos short, decided?_number]
  by_cases decides : (op = and → d.isZero = true) ∧ (op = or → d.isZero = false)
  · rw [if_pos decides, if_pos decides]
    rfl
  · rw [if_neg decides, if_neg decides]
    cases hr with
    | number e => exact congrArg Except.ok (settle_number numeric op e)
    | failed e => rfl

theorem ofOutcomes_arithmetic (keeps : op.keepsNumbers = true) (short : op.isShortCircuit = false) (numeric : Bool)
    (d : Decimal) (hr : r.OfNumbers) :
    op.ofOutcomes numeric (.ok (.number d)) r = r >>= fun right => op.arithmetic d right.toNumber := by
  rw [ofOutcomes, Outcome.ok_bind, if_neg (by simp [short])]
  cases hr with
  | number e => exact apply_number keeps short numeric d e
  | failed e => rfl

/-- On outcomes that are numbers the operator gives such an outcome, the same in both modes. -/
theorem ofOutcomes_numbers (keeps : op.keepsNumbers = true) (hl : l.OfNumbers) (hr : r.OfNumbers) (numeric : Bool) :
    (op.ofOutcomes numeric l r).OfNumbers ∧ op.ofOutcomes numeric l r = op.ofOutcomes true l r := by
  cases hl with
  | failed e => exact ⟨.failed e, rfl⟩
  | number d =>
    cases short : op.isShortCircuit with
    | true =>
      rw [ofOutcomes_deciding short numeric d hr, ofOutcomes_deciding short true d hr]
      refine ⟨?_, rfl⟩
      split
      · exact .number d
      · exact hr
    | false =>
      rw [ofOutcomes_arithmetic keeps short numeric d hr, ofOutcomes_arithmetic keeps short true d hr]
      refine ⟨?_, rfl⟩
      cases hr with
      | number e => exact arithmetic_numbers keeps short d e
      | failed e => exact .failed e

end BinaryOp

/-! ## Formulas of numbers -/

mutual
/-- The formula is made of numbers, known references and groups, with operators that give numbers for numbers. -/
def Formula.keepsNumbers (known : Reference → Bool) : Formula → Bool
  | ⟨_, parts, _, _⟩ => Part.allKeepNumbers known parts

def Part.allKeepNumbers (known : Reference → Bool) : List (Part Operand) → Bool
  | [] => true
  | p :: ps => p.keepsNumbers known && Part.allKeepNumbers known ps

def Part.keepsNumbers (known : Reference → Bool) : Part Operand → Bool
  | .operand a => a.keepsNumbers known
  | .unary op => op.keepsNumbers
  | .binary op => op.keepsNumbers

def Operand.keepsNumbers (known : Reference → Bool) : Operand → Bool
  | .constant (.number _) => true
  | .reference r => known r
  | .group f => f.keepsNumbers known
  | .constant _ | .text _ | .call _ _ _ | .literal _ _ => false
end

/-- The reference gives a number in the context. -/
def Reference.isNumber (ctx : Context) (r : Reference) : Bool :=
  match r.resolve ctx with
  | .ok (.number _) => true
  | _ => false

mutual
/-- The formula with its groups in a mode, without plans. Calls and literals, of which formulas of numbers have none,
stay as they are. -/
def Formula.inMode (numeric : Bool) : Formula → Formula
  | ⟨source, parts, _, _⟩ => ⟨source, Part.allInMode numeric parts, numeric, none⟩

def Part.allInMode (numeric : Bool) : List (Part Operand) → List (Part Operand)
  | [] => []
  | p :: ps => p.inMode numeric :: Part.allInMode numeric ps

def Part.inMode (numeric : Bool) : Part Operand → Part Operand
  | .operand a => .operand (a.inMode numeric)
  | .unary op => .unary op
  | .binary op => .binary op

def Operand.inMode (numeric : Bool) : Operand → Operand
  | .group f => .group (f.inMode numeric)
  | .text s => .text s
  | .constant v => .constant v
  | .reference r => .reference r
  | .call name function args => .call name function args
  | .literal serial tree => .literal serial tree
end

section

variable {known : Reference → Bool}

theorem Part.allKeepNumbers_iff {ps : List (Part Operand)} :
    Part.allKeepNumbers known ps = true ↔ ∀ p ∈ ps, Part.keepsNumbers known p = true := by
  induction ps with
  | nil => simp [Part.allKeepNumbers]
  | cons p ps ih => rw [Part.allKeepNumbers, Bool.and_eq_true, List.forall_mem_cons, ih]

theorem Part.allInMode_eq_map (numeric : Bool) (ps : List (Part Operand)) :
    Part.allInMode numeric ps = ps.map (Part.map (Operand.inMode numeric)) := by
  induction ps with
  | nil => rw [Part.allInMode, List.map_nil]
  | cons p ps ih => cases p <;> rw [Part.allInMode, ih, List.map_cons, Part.inMode, Part.map]

mutual
theorem Formula.keepsNumbers_bare : (f : Formula) → f.bare.keepsNumbers known = f.keepsNumbers known
  | ⟨source, parts, numeric, plan⟩ => by
      rw [Formula.bare, Formula.keepsNumbers, Formula.keepsNumbers, Part.allKeepNumbers_bareAll parts]

theorem Part.allKeepNumbers_bareAll :
    (ps : List (Part Operand)) → Part.allKeepNumbers known (Part.bareAll ps) = Part.allKeepNumbers known ps
  | [] => by rw [Part.bareAll]
  | p :: ps => by
      rw [Part.bareAll, Part.allKeepNumbers, Part.allKeepNumbers, Part.keepsNumbers_bare p,
        Part.allKeepNumbers_bareAll ps]

theorem Part.keepsNumbers_bare : (p : Part Operand) → (Part.bare p).keepsNumbers known = p.keepsNumbers known
  | .operand a => by rw [Part.bare, Part.keepsNumbers, Part.keepsNumbers, Operand.keepsNumbers_bare a]
  | .unary _ => by rw [Part.bare]
  | .binary _ => by rw [Part.bare]

theorem Operand.keepsNumbers_bare : (a : Operand) → a.bare.keepsNumbers known = a.keepsNumbers known
  | .text _ => by rw [Operand.bare]
  | .constant _ => by rw [Operand.bare]
  | .reference _ => by rw [Operand.bare]
  | .call _ _ _ => by rw [Operand.bare, Operand.keepsNumbers, Operand.keepsNumbers]
  | .group f => by rw [Operand.bare, Operand.keepsNumbers, Operand.keepsNumbers, Formula.keepsNumbers_bare f]
  | .literal _ _ => by rw [Operand.bare, Operand.keepsNumbers, Operand.keepsNumbers]
end

end

/-! ## Outcomes by mode -/

/-- Both modes have one outcome, a number or a failure. -/
structure Agrees (outcome : Bool → Outcome) : Prop where
  ofNumbers : (outcome true).OfNumbers
  same : ∀ numeric, outcome numeric = outcome true

namespace Agrees

variable {l r : Bool → Outcome}

theorem const {r : Outcome} (h : r.OfNumbers) : Agrees fun _ => r := ⟨h, fun _ => rfl⟩

theorem unary {op : UnaryOp} (keeps : op.keepsNumbers = true) (h : Agrees r) :
    Agrees fun numeric => op.ofOutcome (r numeric) where
  ofNumbers := UnaryOp.ofOutcome_numbers keeps h.ofNumbers
  same numeric := by rw [h.same numeric]

theorem binary {op : BinaryOp} (keeps : op.keepsNumbers = true) (hl : Agrees l) (hr : Agrees r) :
    Agrees fun numeric => op.ofOutcomes numeric (l numeric) (r numeric) where
  ofNumbers := (BinaryOp.ofOutcomes_numbers keeps hl.ofNumbers hr.ofNumbers true).1
  same numeric := by
    rw [hl.same numeric, hr.same numeric]
    exact (BinaryOp.ofOutcomes_numbers keeps hl.ofNumbers hr.ofNumbers numeric).2

theorem tree {known : Reference → Bool} {outcome : Bool → Operand → Outcome} (t : Tree Operand)
    (keeps : ∀ p ∈ t.parts, Part.keepsNumbers known p = true)
    (h : ∀ a, .operand a ∈ t.parts → Agrees fun numeric => outcome numeric a) :
    Agrees fun numeric => (Tree.evaluator numeric).ofTree (t.map (outcome numeric)) := by
  induction t with
  | leaf a => exact h a (List.mem_singleton_self _)
  | unary op t ih =>
    obtain ⟨here, inside⟩ := List.forall_mem_cons.1 keeps
    rw [Part.keepsNumbers] at here
    exact .unary here (ih inside fun a mem => h a (List.mem_cons_of_mem _ mem))
  | binary op l r ihl ihr =>
    obtain ⟨left, keeps⟩ := List.forall_mem_append.1 keeps
    obtain ⟨here, right⟩ := List.forall_mem_cons.1 keeps
    rw [Part.keepsNumbers] at here
    exact .binary here (ihl left fun a mem => h a (List.mem_append_left _ mem))
      (ihr right fun a mem => h a (List.mem_append_right _ (List.mem_cons_of_mem _ mem)))

/-- A row in which operands and operators take turns has an outcome of its operands. -/
theorem row {known : Reference → Bool} {outcome : Bool → Operand → Outcome} {ps : List (Part Operand)}
    (turns : Part.Alternate true ps) (keeps : Part.allKeepNumbers known ps = true)
    (h : ∀ a, .operand a ∈ ps → Agrees fun numeric => outcome numeric a) :
    Agrees fun numeric => interpret numeric (ps.map (Part.map (outcome numeric))) := by
  obtain ⟨t, made, rfl⟩ := Tree.exists_of_alternate turns
  simp only [interpret_eq_evaluate, Folder.fold_map_part, made, Option.map_some, Option.getD_some]
  exact tree t (Part.allKeepNumbers_iff.1 keeps) h

end Agrees

/-! ## What is read -/

theorem Part.operand_keepsNumbers {known : Reference → Bool} {ps : List (Part Operand)}
    (keeps : Part.allKeepNumbers known ps = true) {a : Operand} (mem : .operand a ∈ ps) :
    a.keepsNumbers known = true := by
  have here := Part.allKeepNumbers_iff.1 keeps _ mem
  rwa [Part.keepsNumbers] at here

section

variable {s : Settings} {ctx : Context} {n : Nat} {text : List Char} {f : Formula}

/-- The rule of induction over readings for formulas of numbers. -/
theorem Direct.of_numbers (known : Reference → Bool) (ofFormula : Formula → Prop) (ofOperand : Operand → Prop)
    (number : ∀ d, ofOperand (.constant (.number d)))
    (reference : ∀ name r, Direct.reference s name = .ok r → known r = true → ofOperand (.reference r))
    (group : ∀ g, ofFormula g → ofOperand (.group g))
    (row : ∀ source parts, Part.Alternate true parts → Part.allKeepNumbers known parts = true →
      (∀ a, .operand a ∈ parts → ofOperand a) → ofFormula ⟨source, parts, s.numeric, none⟩)
    (h : Direct.formula s n text = .ok f) (keeps : f.keepsNumbers known = true) : ofFormula f := by
  have inherited : Direct.Inherited s (fun g => g.keepsNumbers known = true → ofFormula g)
      (fun a => a.keepsNumbers known = true → ofOperand a) (fun _ => True) := {
    text := fun _ keeps => by simp [Operand.keepsNumbers] at keeps
    constant := fun v keeps => by
      cases v with
      | number d => exact number d
      | _ => simp [Operand.keepsNumbers] at keeps
    reference := fun name r named keeps => by
      rw [Operand.keepsNumbers] at keeps
      exact reference name r named keeps
    call := fun _ _ _ _ _ keeps => by simp [Operand.keepsNumbers] at keeps
    group := fun g inside keeps => by
      rw [Operand.keepsNumbers] at keeps
      exact group g (inside keeps)
    literal := fun _ _ keeps => by simp [Operand.keepsNumbers] at keeps
    value := fun _ => trivial
    array := fun _ _ => trivial
    object := fun _ _ => trivial
    formula := fun _ _ _ => trivial
    row := fun source parts turns operands keeps => by
      rw [Formula.keepsNumbers] at keeps
      exact row source parts turns keeps fun a mem => operands a mem (Part.operand_keepsNumbers keeps mem) }
  exact inherited.of_formula h keeps

theorem Reference.resolve_ofNumbers {r : Reference} (h : r.isNumber ctx = true) : (r.resolve ctx).OfNumbers := by
  rw [Reference.isNumber] at h
  split at h
  case h_1 d resolved =>
    rw [resolved]
    exact .number d
  case h_2 => cases h

/-- Both modes agree on a formula of numbers whose references are numbers in the context. -/
theorem Direct.agrees_of_formula (h : Direct.formula s n text = .ok f)
    (keeps : f.keepsNumbers (·.isNumber ctx) = true) : Agrees fun numeric => (f.inMode numeric).evaluate ctx := by
  refine Direct.of_numbers (·.isNumber ctx) (fun g => Agrees fun numeric => (g.inMode numeric).evaluate ctx)
    (fun a => Agrees fun numeric => (a.inMode numeric).evaluate ctx) (fun d => ?number)
    (fun name r _ known => ?reference) (fun g inside => ?group) (fun source parts turns keeps operands => ?row) h keeps
  case number =>
    simp only [Operand.inMode, Operand.evaluate]
    exact .const (.number d)
  case reference =>
    simp only [Operand.inMode, Operand.evaluate]
    exact .const (Reference.resolve_ofNumbers known)
  case group => simpa only [Operand.inMode, Operand.evaluate] using inside
  case row =>
    simp only [Formula.inMode, Formula.evaluate, Part.evaluateAll_eq_map, Part.allInMode_eq_map, Part.map_map]
    exact .row turns keeps operands

/-- Where names are looked up, references are numbers if the context has numbers for all names. -/
theorem Direct.isNumber_of_formula (plain : s.reference = none) (h : Direct.formula s n text = .ok f)
    (keeps : f.keepsNumbers (fun _ => true) = true) (numbers : ∀ n ∈ f.mentions, ∃ d, ctx.get? n = some (.number d)) :
    f.keepsNumbers (·.isNumber ctx) = true := by
  refine Direct.of_numbers (fun _ => true)
    (fun g => (∀ n ∈ g.mentions, ∃ d, ctx.get? n = some (.number d)) → g.keepsNumbers (·.isNumber ctx) = true)
    (fun a => (∀ n ∈ a.mentions, ∃ d, ctx.get? n = some (.number d)) → a.keepsNumbers (·.isNumber ctx) = true)
    (fun d _ => ?number) (fun name r named _ numbers => ?reference) (fun g inside numbers => ?group)
    (fun source parts _ keeps operands numbers => ?row) h keeps numbers
  case number => rw [Operand.keepsNumbers]
  case reference =>
    rw [Direct.reference, plain] at named
    split at named
    case isTrue => cases named
    case isFalse =>
      cases named
      rw [Operand.mentions] at numbers
      obtain ⟨d, found⟩ := numbers name (List.mem_singleton_self _)
      rw [Operand.keepsNumbers, Reference.isNumber, Reference.resolve, found]
  case group =>
    rw [Operand.mentions] at numbers
    rw [Operand.keepsNumbers, inside numbers]
  case row =>
    rw [Formula.mentions] at numbers
    rw [Formula.keepsNumbers]
    refine Part.allKeepNumbers_iff.2 fun p mem => ?_
    cases p with
    | operand a =>
      rw [Part.keepsNumbers]
      exact operands a mem fun n named => numbers n (Part.mentions_subset mem named)
    | unary op | binary op =>
      have here := Part.allKeepNumbers_iff.1 keeps _ mem
      rwa [Part.keepsNumbers] at here ⊢

end

end ExactFormula
