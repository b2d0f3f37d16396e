import ExactFormula.Proofs.Reading.Partnered
import ExactFormula.Proofs.Reading.Tokens
import ExactFormula.Proofs.Relaxed.Insertion
import ExactFormula.Proofs.Workspace.Isolation

/-!
Formulas that are one embedded object, with a block comment inside its braces. The scan for the closing brace knows no
comments, so it takes the quotes and brackets of the comment for what they are anywhere else.
-/

namespace ExactFormula

/-- The literal that is all of a formula. -/
def Formula.literal? (f : Formula) : Option Literal :=
  match f.parts with
  | [.operand (.literal _ tree)] => some tree
  | _ => none

theorem Formula.parts_of_literal? {f : Formula} {tree : Literal} (h : f.literal? = some tree) :
    ∃ serial, f.parts = [.operand (.literal serial tree)] := by
  rw [Formula.literal?] at h
  split at h
  case h_1 serial tree' parts =>
    cases h
    exact ⟨serial, parts⟩
  case h_2 => cases h

theorem Formula.literal?_bare (f : Formula) : f.bare.literal? = f.literal?.map Literal.bare := by
  obtain ⟨source, parts, numeric, plan⟩ := f
  rw [Formula.bare]
  match parts with
  | [] => rfl
  | [.operand a] => cases a <;> rfl
  | [.unary _] => rfl
  | [.binary _] => rfl
  | .operand a :: q :: ps => cases a <;> rfl
  | .unary _ :: q :: ps => rfl
  | .binary _ :: q :: ps => rfl

/-- Text in braces, with other text around it. -/
def braced (before inner after : List Char) : List Char := before ++ '{' :: (inner ++ '}' :: after)

/-- No more of the text comes behind a closing brace than blanks. -/
theorem braced_injective {inner inner' after after' : List Char} (blank : ∀ c ∈ after, Text.isBlank c = true)
    (blank' : ∀ c ∈ after', Text.isBlank c = true) (h : inner ++ '}' :: after = inner' ++ '}' :: after') :
    inner = inner' := by
  have apart {more more' after : List Char} (blank : ∀ c ∈ after, Text.isBlank c = true) (d : Char)
      (h : '}' :: after = d :: (more ++ '}' :: more')) : False := by
    obtain ⟨-, rfl⟩ := List.cons.inj h
    cases blank '}' (List.mem_append_right more List.mem_cons_self)
  rcases List.append_eq_append_iff.1 h with ⟨more, rfl, behind⟩ | ⟨more, rfl, behind⟩
  · cases more with
    | nil => exact (List.append_nil _).symm
    | cons d more => exact (apart blank d behind).elim
  · cases more with
    | nil => exact List.append_nil _
    | cons d more => exact (apart blank' d behind).elim

namespace Lexeme

/-- Without lexemes there are only blanks. -/
theorem Lexed.blank_of_nil {pending cs : List Char} (h : Lexed pending cs []) :
    pending = [] ∧ ∀ c ∈ cs, Text.isBlank c = true := by
  generalize none : ([] : List Lexeme) = ls at h
  induction h with
  | @ended pending =>
    refine ⟨?_, List.forall_mem_nil _⟩
    cases pending with
    | nil => rfl
    | cons => cases none
  | @blank pending cs ls c blank rest ih =>
    obtain ⟨flushed, rfl⟩ := List.append_eq_nil_iff.1 none.symm
    refine ⟨?_, List.forall_mem_cons.2 ⟨blank, (ih rfl).2⟩⟩
    cases pending with
    | nil => rfl
    | cons => cases flushed
  | char steady shown isOperator rest ih =>
    obtain ⟨more, -⟩ := ih none
    cases more
  | quotation | group | sign | twoSigns => exact absurd none.symm (by simp)

variable {w w' inner : List Char}

theorem lexemes_braced (blank : ∀ c ∈ w, Text.isBlank c = true) (blank' : ∀ c ∈ w', Text.isBlank c = true)
    (matched : Matched true inner) : lexemes (braced w inner w') = [.braces inner] := by
  have ended : lexFrom [] w' = [] := by
    have scanned := lexFrom_blanks blank' []
    rwa [List.append_nil] at scanned
  have group := lexFrom_matched (c := '{') rfl matched [] w'
  rw [ended] at group
  exact (lexFrom_blanks blank _).trans group

/-- The first group of a balanced text in braces. -/
theorem exists_group {after : List Char} (blank : ∀ c ∈ w, Text.isBlank c = true)
    (balanced : Balanced (braced w inner after)) : ∃ inner' after', inner ++ '}' :: after = inner' ++ '}' :: after' ∧
      Matched true inner' ∧ lexemes (braced w inner after) = .braces inner' :: lexFrom [] after' := by
  have scanned : lexemes (braced w inner after) = lexFrom [] ('{' :: (inner ++ '}' :: after)) := lexFrom_blanks blank _
  have matched : Matched false ('{' :: (inner ++ '}' :: after)) := by
    have whole := balanced_iff_matched.1 balanced
    rw [braced] at whole
    clear balanced scanned
    induction w with
    | nil => exact whole
    | cons c w ih =>
      obtain ⟨first, blank⟩ := List.forall_mem_cons.1 blank
      exact ih blank (whole.tail (inert_of_isBlank first).toSteady)
  rw [scanned]
  generalize split : '{' :: (inner ++ '}' :: after) = text at matched
  cases matched with
  | nil => cases split
  | plain steady =>
    cases (List.cons.inj split).1
    cases steady.opens
  | quotation isQuote =>
    cases (List.cons.inj split).1
    cases isQuote
  | @group _ c inner' after' opens inside rest =>
    obtain ⟨rfl, same⟩ := List.cons.inj split
    exact ⟨inner', after', same, inside, lexFrom_matched rfl inside [] after'⟩

end Lexeme

namespace Direct

variable {s : Settings} {nested : Nested} {w inner w' : List Char}

theorem arrange_eq_nil {first expected : Bool} {pieces : List Piece} (h : arrange s first expected pieces = .ok []) :
    pieces = [] := by
  cases pieces with
  | nil => rfl
  | cons p pieces =>
    rcases arrange_cons h with ⟨_, _, _, -, -, -, split⟩ | ⟨-, -, _, _, -, -, split⟩ <;> cases split

theorem arrange_single {first expected : Bool} {pieces : List Piece} {a : Operand}
    (h : arrange s first expected pieces = .ok [.operand a]) :
    ∃ p, pieces = [p] ∧ (p = .operand a ∨ ∀ b, p ≠ .operand b) := by
  cases pieces with
  | nil => cases (arrange_nil h).2
  | cons p pieces =>
    rcases arrange_cons h with ⟨_, _, rest, rfl, -, arranged, split⟩ | ⟨-, -, _, rest, origin, arranged, split⟩
    · cases split
      exact ⟨_, by rw [arrange_eq_nil arranged], .inr fun _ same => by cases same⟩
    · cases split
      exact ⟨p, by rw [arrange_eq_nil arranged], origin.imp_right And.left⟩

/-- With more than one lexeme added, an operand in front is not on its own. -/
theorem addAll_single {a : Operand} {ls : List Lexeme} {p : Piece}
    (h : addAll s nested [.operand a] ls = .ok [p]) : ls = [] ∧ p = .operand a := by
  cases ls with
  | nil =>
    cases h
    exact ⟨rfl, rfl⟩
  | cons l ls =>
    obtain ⟨pieces, added, h⟩ := exists_of_bind h
    rcases add_cases added with ⟨q, rfl, -⟩ | ⟨_, _, _, _, -, split, -⟩
    · rcases addAll_extends h with ⟨more, same⟩ | ⟨_, _, ps, more, split, same⟩
      · simp at same
      · cases split
        simp at same
    · cases split

/-- Matched text in braces that is a relaxed document is a formula of its own. -/
theorem formula_braced {n : Nat} {tree : Literal} (blank : ∀ c ∈ w, Text.isBlank c = true)
    (blank' : ∀ c ∈ w', Text.isBlank c = true) (matched : Matched true inner)
    (built : tree? s (formula s n) (braced [] inner []) = some (.ok tree)) :
    ∃ f, formula s (n + 1) (braced w inner w') = .ok f ∧ f.literal? = some tree := by
  have trimmed : Text.trim ('{' :: (inner ++ ['}'])) = braced [] inner [] := (Text.solid_of_ends rfl rfl inner).trimmed
  have operand : literal s (formula s n) ('{' :: (inner ++ ['}'])) = .ok (.literal (0, 0) tree) := by
    rw [literal, trimmed, built]
    rfl
  refine ⟨⟨String.ofList (braced w inner w'), [.operand (.literal (0, 0) tree)], s.numeric, none⟩, ?_, rfl⟩
  rw [formula, Lexeme.lexemes_braced blank blank' matched]
  simp only [addAll, add, operand]
  rfl

/-- If text in braces is a formula that is one literal, then the text is matched, and the literal is the tree of all of
it. -/
theorem matched_of_formula {n : Nat} {f : Formula} {tree : Literal} (blank : ∀ c ∈ w, Text.isBlank c = true)
    (blank' : ∀ c ∈ w', Text.isBlank c = true) (read : formula s (n + 1) (braced w inner w') = .ok f)
    (single : f.literal? = some tree) :
    Matched true inner ∧ tree? s (formula s n) (braced [] inner []) = some (.ok tree) := by
  obtain ⟨inner', after, same, matched, scanned⟩ := Lexeme.exists_group blank (balanced_of_formula read)
  obtain ⟨pieces, added, arranged⟩ := formula_ok read
  rw [scanned] at added
  obtain ⟨first, found, added⟩ := exists_of_bind added
  obtain ⟨a, built, found⟩ := exists_of_bind found
  cases found
  obtain ⟨serial, parts⟩ := Formula.parts_of_literal? single
  rw [parts] at arranged
  obtain ⟨p, rfl, origin⟩ := arrange_single arranged
  obtain ⟨none, rfl⟩ := addAll_single added
  cases origin.resolve_right fun other => other a rfl
  have ended : Lexeme.Lexed [] after [] := by
    have lexed := Lexeme.lexed_lexFrom [] after (by simp [none])
    rwa [none] at lexed
  obtain rfl := braced_injective blank' ended.blank_of_nil.2 same
  have trimmed : Text.trim ('{' :: (inner ++ ['}'])) = braced [] inner [] := (Text.solid_of_ends rfl rfl inner).trimmed
  rw [literal, trimmed] at built
  refine ⟨matched, ?_⟩
  cases found : tree? s (formula s n) (braced [] inner []) with
  | none =>
    rw [found] at built
    cases built
  | some result =>
    rw [found] at built
    obtain ⟨tree', ok, same⟩ := exists_of_bind built
    cases same
    rw [ok]

end Direct

namespace Session

open Relaxed (Between Filler)

/-- What is read after a history, and does not nest too deep on its own, is what reading without a memory gives. -/
theorem direct_of_read (history : List Action) {e : Engine} (mem : e ∈ (after history).engines) {text : String}
    {f : Formula} (read : (after history).read e text = .ok f) (shallow : e.settings.read text ≠ .error tooDeep) :
    Direct.formula e.settings (maxNesting + 1) text.toList = .ok f.bare := by
  obtain ⟨levels, le, -, step⟩ := (after_sound history).read_matches mem text
  rw [read] at step
  obtain ⟨_, ⟨-, rfl⟩, found⟩ := step.of_ok
  rcases Direct.formula_approximates le text.toList with deep | same
  · have alone := e.settings.readTo_matches (maxNesting + 1) text
    rw [deep] at alone
    exact absurd alone.sameVerdict.eq_error shallow
  · rw [same, found]

/-- A formula that is one literal stays that literal with a block comment between two tokens inside its braces exactly
where the text inside the braces, the comment included, is matched. -/
theorem read_commented (history : List Action) {e : Engine} (mem : e ∈ (after history).engines)
    (unwrapped : e.settings.wrapCalls = false) {w front back w' note : List Char}
    (blank : ∀ c ∈ w, Text.isBlank c = true) (blank' : ∀ c ∈ w', Text.isBlank c = true)
    (place : Between ⟨[true], true⟩ front (back ++ ['}'])) (closed : ¬['*', '/'] <:+: note) {f : Formula}
    {tree : Literal} (read : (after history).read e (String.ofList (braced w (front ++ back) w')) = .ok f)
    (single : f.literal? = some tree)
    (shallow : e.settings.read (String.ofList (braced w (front ++ back) w')) ≠ .error tooDeep) :
    (∃ f' tree', (after history).read e
        (String.ofList (braced w (front ++ ((Filler.block note closed).chars ++ back)) w')) = .ok f' ∧
      f'.literal? = some tree' ∧ tree'.bare = tree.bare) ↔
      Matched true (front ++ ((Filler.block note closed).chars ++ back)) := by
  have direct := direct_of_read history mem read shallow
  rw [String.toList_ofList] at direct
  have bare : f.bare.literal? = some tree.bare := by rw [f.literal?_bare, single]; rfl
  obtain ⟨-, built⟩ := Direct.matched_of_formula blank blank' direct bare
  have commented : Direct.tree? e.settings (Direct.formula e.settings maxNesting)
      (braced [] (front ++ ((Filler.block note closed).chars ++ back)) []) = some (.ok tree.bare) := by
    have parsed := place.parseChars_eq closed literalMarker
    rw [Direct.tree?, unwrapped] at built ⊢
    rwa [braced, List.nil_append, parsed]
  obtain ⟨levels, le, -, step⟩ := (after_sound history).read_matches mem
    (String.ofList (braced w (front ++ ((Filler.block note closed).chars ++ back)) w'))
  rw [String.toList_ofList] at step
  constructor
  · rintro ⟨f', tree', read', single', -⟩
    rw [read'] at step
    obtain ⟨_, ⟨-, rfl⟩, found⟩ := step.of_ok
    obtain ⟨n, rfl⟩ : ∃ n, levels = n + 1 := ⟨levels - 1, by omega⟩
    have bare' : f'.bare.literal? = some tree'.bare := by rw [f'.literal?_bare, single']; rfl
    exact (Direct.matched_of_formula blank blank' found bare').1
  · intro matched
    obtain ⟨g, found, literal⟩ := Direct.formula_braced blank blank' matched commented
    rcases Direct.formula_approximates le
        (braced w (front ++ ((Filler.block note closed).chars ++ back)) w') with deep | same
    · rw [found] at deep
      cases deep
    rw [← same, found] at step
    generalize (after history).read e _ = result at step ⊢
    cases step with
    | @ok f' _ related =>
      obtain ⟨-, rfl⟩ := related
      rw [f'.literal?_bare] at literal
      obtain ⟨tree', single', same⟩ := Option.map_eq_some_iff.1 literal
      exact ⟨f', tree', rfl, single', same⟩

/-- Wrapping of calls is disabled. -/
def unwrappedSettings : Settings := { wrapCalls := false }

def unwrappedHistory : List Action := [.addCache 1, .addEngine unwrappedSettings 0, .read 0 "\x7ba: 1\x7d"]

theorem unwrappedHistory_engine : ⟨1, unwrappedSettings, 0⟩ ∈ (after unwrappedHistory).engines := by
  have valid : unwrappedSettings.invalidConstant? = none := by
    simp [unwrappedSettings, Settings.invalidConstant?, Entries.names]
  rw [unwrappedHistory, after_reading valid]
  exact List.mem_singleton_self _

/-- Behind `a: `, a value stands. -/
theorem between_member (after : List Char) : Between ⟨[true], true⟩ ['a', ':', ' '] after :=
  @Between.key [true] ['a'] [':', ' '] after (List.cons_ne_nil _ _) rfl nofun
    (.mark rfl (.filler (.space ' ' rfl) .here))

theorem exists_literal {r : Except FormulaError Formula} (h : r.toOption.bind Formula.literal? |>.isSome) :
    ∃ f tree, r = .ok f ∧ f.literal? = some tree := by
  cases r with
  | error e => cases h
  | ok f =>
    obtain ⟨tree, single⟩ := Option.isSome_iff_exists.1 h
    exact ⟨f, tree, rfl, single⟩

theorem bracketNote_closed : ¬['*', '/'] <:+: " [b] ".toList := Relaxed.closed_of_starless (by decide)

/-- `{a: /* [b] */1}` -/
theorem read_commented_brackets : ∃ f tree f' tree',
    ⟨1, unwrappedSettings, 0⟩ ∈ (after unwrappedHistory).engines ∧ unwrappedSettings.wrapCalls = false ∧
    Between ⟨[true], true⟩ "a: ".toList ("1".toList ++ ['}']) ∧
    (after unwrappedHistory).read ⟨1, unwrappedSettings, 0⟩ "\x7ba: 1\x7d" = .ok f ∧ f.literal? = some tree ∧
    unwrappedSettings.read "\x7ba: 1\x7d" ≠ .error tooDeep ∧
    Matched true "a: /* [b] */1".toList ∧
    (after unwrappedHistory).read ⟨1, unwrappedSettings, 0⟩ "\x7ba: /* [b] */1\x7d" = .ok f' ∧
    f'.literal? = some tree' ∧ tree'.bare = tree.bare := by
  have blank : ∀ c ∈ ([] : List Char), Text.isBlank c = true := List.forall_mem_nil _
  obtain ⟨f, tree, read, single⟩ :=
    @exists_literal ((after unwrappedHistory).read ⟨1, unwrappedSettings, 0⟩ "\x7ba: 1\x7d") (by decide +kernel)
  have shallow : unwrappedSettings.read "\x7ba: 1\x7d" ≠ .error tooDeep := by
    have accepted : (unwrappedSettings.read "\x7ba: 1\x7d").toOption.isSome = true := by decide +kernel
    intro deep
    rw [deep] at accepted
    cases accepted
  have matched : Matched true ("a: /* ".toList ++ '[' :: (['b'] ++ ']' :: (" */1".toList ++ []))) :=
    .word rfl (.group (c := '[') rfl (.plain ⟨rfl, rfl, rfl⟩ .nil) (.word rfl .nil))
  have text : String.ofList (braced [] ("a: ".toList ++ "1".toList) []) = "\x7ba: 1\x7d" := rfl
  have inner : "a: ".toList ++ ((Filler.block _ bracketNote_closed).chars ++ "1".toList) = "a: /* [b] */1".toList := rfl
  have text' : String.ofList (braced [] "a: /* [b] */1".toList []) = "\x7ba: /* [b] */1\x7d" := rfl
  have place : Between ⟨[true], true⟩ "a: ".toList ("1".toList ++ ['}']) := between_member _
  have commented : ∃ f' tree',
      (after unwrappedHistory).read ⟨1, unwrappedSettings, 0⟩ "\x7ba: /* [b] */1\x7d" = .ok f' ∧
        f'.literal? = some tree' ∧ tree'.bare = tree.bare := by
    rw [← text] at read shallow
    rw [← text', ← inner]
    refine (read_commented unwrappedHistory unwrappedHistory_engine rfl blank blank place bracketNote_closed read single
      shallow).2 ?_
    rwa [inner]
  obtain ⟨f', tree', read', single', same⟩ := commented
  exact ⟨f, tree, f', tree', unwrappedHistory_engine, rfl, place, read, single, shallow, matched, read', single', same⟩

/-- A quote in the comment is open for the scan for the closing brace. -/
theorem possessiveNote_unmatched : ¬∀ (s : Settings) (front back note : List Char) (closed : ¬['*', '/'] <:+: note),
    s.wrapCalls = false → Between ⟨[true], true⟩ front (back ++ ['}']) → ∀ (f : Formula) (tree : Literal),
      s.read (String.ofList (braced [] (front ++ back) [])) = .ok f → f.literal? = some tree →
        ∃ f' tree',
          s.read (String.ofList (braced [] (front ++ ((Filler.block note closed).chars ++ back)) [])) = .ok f' ∧
            f'.literal? = some tree' ∧ tree'.bare = tree.bare := by
  intro skipped
  have closed : ¬['*', '/'] <:+: " it's ".toList := Relaxed.closed_of_starless (by decide)
  obtain ⟨f, tree, read, single⟩ := @exists_literal (unwrappedSettings.read "\x7ba:  1\x7d") (by decide +kernel)
  obtain ⟨f', -, read', -, -⟩ := skipped unwrappedSettings "a: ".toList " 1".toList " it's ".toList closed rfl
    (between_member _) f tree read single
  have refused : (unwrappedSettings.read "\x7ba: /* it's */ 1\x7d").toOption.isSome = false := by decide +kernel
  have same : String.ofList (braced []
      ("a: ".toList ++ ((Filler.block " it's ".toList closed).chars ++ " 1".toList)) []) =
        "\x7ba: /* it's */ 1\x7d" := rfl
  rw [same] at read'
  rw [read'] at refused
  cases refused

end Session

end ExactFormula
