import ExactFormula.Formula.Piece
import ExactFormula.Proofs.Plan.Planning

/-!
A formula without its plans and without the serials of its literals refers to the same names, and, if it
was read with some settings, evaluates to the same outcome in every context.
-/

namespace ExactFormula

mutual
def Formula.bare : Formula → Formula
  | ⟨source, parts, numeric, _⟩ => ⟨source, Part.bareAll parts, numeric, none⟩

def Part.bareAll : List (Part Operand) → List (Part Operand)
  | [] => []
  | p :: ps => Part.bare p :: Part.bareAll ps

def Part.bare : Part Operand → Part Operand
  | .operand a => .operand a.bare
  | .unary op => .unary op
  | .binary op => .binary op

def Operand.bare : Operand → Operand
  | .text s => .text s
  | .constant v => .constant v
  | .reference r => .reference r
  | .call name function args => .call name function (Formula.bareAll args)
  | .group f => .group f.bare
  | .literal _ tree => .literal (0, 0) tree.bare

def Formula.bareAll : List Formula → List Formula
  | [] => []
  | f :: fs => f.bare :: Formula.bareAll fs

def Literal.bare : Literal → Literal
  | .value v => .value v
  | .array items => .array (Literal.bareAll items)
  | .object members => .object (Literal.bareMembers members)
  | .formula f source => .formula f.bare source

def Literal.bareAll : List Literal → List Literal
  | [] => []
  | l :: ls => l.bare :: Literal.bareAll ls

def Literal.bareMembers : List (String × Literal) → List (String × Literal)
  | [] => []
  | (k, l) :: ms => (k, l.bare) :: Literal.bareMembers ms
end

def Piece.bare : Piece → Piece
  | .operator symbol => .operator symbol
  | .name text => .name text
  | .bracketName text => .bracketName text
  | .operand a => .operand a.bare

/-! ## Names -/

mutual
theorem Formula.mentions_bare : (f : Formula) → f.bare.mentions = f.mentions
  | ⟨source, parts, numeric, plan⟩ => by
      rw [Formula.bare, Formula.mentions, Formula.mentions, Part.mentionsAll_bareAll parts]

theorem Part.mentionsAll_bareAll :
    (ps : List (Part Operand)) → Part.mentionsAll (Part.bareAll ps) = Part.mentionsAll ps
  | [] => by rw [Part.bareAll]
  | p :: ps => by
      rw [Part.bareAll, Part.mentionsAll, Part.mentionsAll, Part.mentions_bare p,
        Part.mentionsAll_bareAll ps]

theorem Part.mentions_bare : (p : Part Operand) → (Part.bare p).mentions = p.mentions
  | .operand a => by rw [Part.bare, Part.mentions, Part.mentions, Operand.mentions_bare a]
  | .unary _ => by rw [Part.bare]
  | .binary _ => by rw [Part.bare]

theorem Operand.mentions_bare : (a : Operand) → a.bare.mentions = a.mentions
  | .text _ => by rw [Operand.bare]
  | .constant _ => by rw [Operand.bare]
  | .reference _ => by rw [Operand.bare]
  | .call _ _ args => by
      rw [Operand.bare, Operand.mentions, Operand.mentions, Formula.mentionsAll_bareAll args]
  | .group f => by rw [Operand.bare, Operand.mentions, Operand.mentions, Formula.mentions_bare f]
  | .literal _ tree => by
      rw [Operand.bare, Operand.mentions, Operand.mentions, Literal.mentions_bare tree]

theorem Formula.mentionsAll_bareAll :
    (fs : List Formula) → Formula.mentionsAll (Formula.bareAll fs) = Formula.mentionsAll fs
  | [] => by rw [Formula.bareAll]
  | f :: fs => by
      rw [Formula.bareAll, Formula.mentionsAll, Formula.mentionsAll, Formula.mentions_bare f,
        Formula.mentionsAll_bareAll fs]

theorem Literal.mentions_bare : (l : Literal) → l.bare.mentions = l.mentions
  | .value _ => by rw [Literal.bare]
  | .array items => by
      rw [Literal.bare, Literal.mentions, Literal.mentions, Literal.mentionsAll_bareAll items]
  | .object members => by
      rw [Literal.bare, Literal.mentions, Literal.mentions, Literal.mentionsMembers_bareMembers members]
  | .formula f _ => by rw [Literal.bare, Literal.mentions, Literal.mentions, Formula.mentions_bare f]

theorem Literal.mentionsAll_bareAll :
    (ls : List Literal) → Literal.mentionsAll (Literal.bareAll ls) = Literal.mentionsAll ls
  | [] => by rw [Literal.bareAll]
  | l :: ls => by
      rw [Literal.bareAll, Literal.mentionsAll, Literal.mentionsAll, Literal.mentions_bare l,
        Literal.mentionsAll_bareAll ls]

theorem Literal.mentionsMembers_bareMembers : (ms : List (String × Literal)) →
    Literal.mentionsMembers (Literal.bareMembers ms) = Literal.mentionsMembers ms
  | [] => by rw [Literal.bareMembers]
  | (_, l) :: ms => by
      rw [Literal.bareMembers, Literal.mentionsMembers, Literal.mentionsMembers, Literal.mentions_bare l,
        Literal.mentionsMembers_bareMembers ms]
end

theorem Formula.references_bare (f : Formula) : f.bare.references = f.references := by
  rw [Formula.references, Formula.references, Formula.mentions_bare]

/-! ## Outcomes -/

/-- A formula that was read evaluates as its parts are interpreted, by whichever way it is evaluated. -/
theorem Formula.ReadBy.evaluate_eq {s : Settings} {f : Formula} (h : f.ReadBy s) (ctx : Context) :
    f.evaluate ctx = f.interpret ctx := by
  rcases h.plan_eq with none | made
  · exact Formula.evaluate_eq_interpret none
  · cases plan : f.plan with
    | none => exact Formula.evaluate_eq_interpret plan
    | some p =>
      rw [Formula.evaluate_eq_run plan, Formula.interpret, h.numeric_eq]
      exact Plan.run_eq_interpret h.parts (made.symm.trans plan) ctx

mutual
theorem Formula.evaluate_bare (s : Settings) (ctx : Context) :
    (f : Formula) → f.ReadBy s → f.bare.evaluate ctx = f.evaluate ctx
  | ⟨source, parts, numeric, plan⟩, h => by
      rw [h.evaluate_eq ctx, Formula.bare, Formula.evaluate, Formula.interpret,
        Part.evaluateAll_bareAll s ctx parts h.parts]

theorem Part.evaluateAll_bareAll (s : Settings) (ctx : Context) : (ps : List (Part Operand)) →
    Part.AllReadBy s ps → Part.evaluateAll ctx (Part.bareAll ps) = Part.evaluateAll ctx ps
  | [], _ => by rw [Part.bareAll]
  | p :: ps, h => by
      rw [Part.AllReadBy] at h
      rw [Part.bareAll, Part.evaluateAll, Part.evaluateAll, Part.evaluate_bare s ctx p h.1,
        Part.evaluateAll_bareAll s ctx ps h.2]

theorem Part.evaluate_bare (s : Settings) (ctx : Context) :
    (p : Part Operand) → Part.ReadBy s p → Part.evaluate ctx (Part.bare p) = Part.evaluate ctx p
  | .operand a, h => by
      rw [Part.ReadBy] at h
      rw [Part.bare, Part.evaluate, Part.evaluate, Operand.evaluate_bare s ctx a h]
  | .unary _, _ => by rw [Part.bare]
  | .binary _, _ => by rw [Part.bare]

theorem Operand.evaluate_bare (s : Settings) (ctx : Context) :
    (a : Operand) → a.ReadBy s → a.bare.evaluate ctx = a.evaluate ctx
  | .text _, _ => by rw [Operand.bare]
  | .constant _, _ => by rw [Operand.bare]
  | .reference _, _ => by rw [Operand.bare]
  | .call _ function args, h => by
      rw [Operand.ReadBy] at h
      rw [Operand.bare, Operand.evaluate, Operand.evaluate, Formula.evaluateAll_bareAll s ctx args h]
  | .group f, h => by
      rw [Operand.ReadBy] at h
      rw [Operand.bare, Operand.evaluate, Operand.evaluate, Formula.evaluate_bare s ctx f h.1]
  | .literal _ tree, h => by
      rw [Operand.ReadBy] at h
      rw [Operand.bare, Operand.evaluate, Operand.evaluate, Literal.evaluate_bare s ctx tree h]

theorem Formula.evaluateAll_bareAll (s : Settings) (ctx : Context) : (fs : List Formula) →
    Formula.AllReadBy s fs → Formula.evaluateAll ctx (Formula.bareAll fs) = Formula.evaluateAll ctx fs
  | [], _ => by rw [Formula.bareAll]
  | f :: fs, h => by
      rw [Formula.AllReadBy] at h
      rw [Formula.bareAll, Formula.evaluateAll, Formula.evaluateAll, Formula.evaluate_bare s ctx f h.1.1,
        Formula.evaluateAll_bareAll s ctx fs h.2]

theorem Literal.evaluate_bare (s : Settings) (ctx : Context) :
    (l : Literal) → l.ReadBy s → l.bare.evaluate ctx = l.evaluate ctx
  | .value _, _ => by rw [Literal.bare]
  | .array items, h => by
      rw [Literal.ReadBy] at h
      rw [Literal.bare, Literal.evaluate, Literal.evaluate, Literal.evaluateAll_bareAll s ctx items h]
  | .object members, h => by
      rw [Literal.ReadBy] at h
      rw [Literal.bare, Literal.evaluate, Literal.evaluate,
        Literal.evaluateMembers_bareMembers s ctx members h]
  | .formula f _, h => by
      rw [Literal.ReadBy] at h
      rw [Literal.bare, Literal.evaluate, Literal.evaluate, Formula.evaluate_bare s ctx f h]

theorem Literal.evaluateAll_bareAll (s : Settings) (ctx : Context) : (ls : List Literal) →
    Literal.AllReadBy s ls → Literal.evaluateAll ctx (Literal.bareAll ls) = Literal.evaluateAll ctx ls
  | [], _ => by rw [Literal.bareAll]
  | l :: ls, h => by
      rw [Literal.AllReadBy] at h
      rw [Literal.bareAll, Literal.evaluateAll, Literal.evaluateAll, Literal.evaluate_bare s ctx l h.1,
        Literal.evaluateAll_bareAll s ctx ls h.2]

theorem Literal.evaluateMembers_bareMembers (s : Settings) (ctx : Context) :
    (ms : List (String × Literal)) → Literal.MembersReadBy s ms →
    Literal.evaluateMembers ctx (Literal.bareMembers ms) = Literal.evaluateMembers ctx ms
  | [], _ => by rw [Literal.bareMembers]
  | (_, l) :: ms, h => by
      rw [Literal.MembersReadBy] at h
      rw [Literal.bareMembers, Literal.evaluateMembers, Literal.evaluateMembers,
        Literal.evaluate_bare s ctx l h.1, Literal.evaluateMembers_bareMembers s ctx ms h.2]
end

/-- Formulas that are one when bare are told apart neither by their names nor by any context. -/
theorem Formula.eq_of_bare_eq {s s' : Settings} {f g : Formula} (hf : f.ReadBy s) (hg : g.ReadBy s')
    (same : f.bare = g.bare) : f.references = g.references ∧ ∀ ctx, f.evaluate ctx = g.evaluate ctx := by
  refine ⟨?_, fun ctx => ?_⟩
  · rw [← f.references_bare, same, g.references_bare]
  · rw [← Formula.evaluate_bare s ctx f hf, same, Formula.evaluate_bare s' ctx g hg]

end ExactFormula
