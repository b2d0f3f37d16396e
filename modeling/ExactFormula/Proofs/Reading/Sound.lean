import ExactFormula.Proofs.Reading.Tracking

/-!
Every reader keeps a sound cache sound and follows reading without a memory, as the readers of the texts
nested in its own do.
-/

namespace ExactFormula

variable {s : Settings} {owner : Nat → Option Settings} {k : Nat}

/-- `f` was read with the settings, and is `g` when bare. -/
def Formula.ReadAs (s : Settings) (f g : Formula) : Prop := f.ReadBy s ∧ f.bare = g

def Literal.ReadAs (s : Settings) (l m : Literal) : Prop := l.ReadBy s ∧ l.bare = m

def Operand.ReadAs (s : Settings) (a b : Operand) : Prop := a.ReadBy s ∧ a.bare = b

theorem Literal.ReadAs.value (v : Value) : Literal.ReadAs s (.value v) (.value v) :=
  ⟨by rw [Literal.ReadBy]; trivial, by rw [Literal.bare]⟩

theorem Operand.ReadAs.text (string : String) : Operand.ReadAs s (.text string) (.text string) :=
  ⟨by rw [Operand.ReadBy]; trivial, by rw [Operand.bare]⟩

theorem Operand.ReadAs.constant (v : Value) : Operand.ReadAs s (.constant v) (.constant v) :=
  ⟨by rw [Operand.ReadBy]; trivial, by rw [Operand.bare]⟩

def Piece.ReadBy (s : Settings) : Piece → Prop
  | .operand a => a.ReadBy s
  | .operator _ | .name _ | .bracketName _ => True

def Piece.AllReadAs (s : Settings) (ps qs : List Piece) : Prop :=
  (∀ p ∈ ps, p.ReadBy s) ∧ ps.map Piece.bare = qs

theorem Piece.AllReadAs.cons {p q : Piece} {ps qs : List Piece} (readBy : p.ReadBy s) (bare : p.bare = q)
    (h : Piece.AllReadAs s ps qs) : Piece.AllReadAs s (p :: ps) (q :: qs) := by
  refine ⟨List.forall_mem_cons.2 ⟨readBy, h.1⟩, ?_⟩
  rw [List.map_cons, bare, h.2]

/-! ## Embedded literals -/

variable {read : List Char → Reading Formula}

theorem Literal.ofMarked_tracks
    (h : ∀ text, Tracks owner (Formula.ReadAs s) (fun n => Direct.formula s n text) k (read text))
    (source : List Char) : Tracks owner (Literal.ReadAs s)
      (fun n => Direct.ofMarked (Direct.formula s n) source) k (Literal.ofMarked read source) := by
  intro c sound
  obtain ⟨n, c', ⟨le, exact⟩, ⟨sound', capacity⟩, ⟨f, g, related, ran, found⟩ | ⟨e, ran, found⟩⟩ :=
    (h source).cases sound
  · simp only [Literal.ofMarked, Caching.run_bind, Caching.run_outcome, ran]
    refine ⟨sound', capacity, n, le, exact, ?_⟩
    rw [Direct.ofMarked, found]
    exact .ok ⟨by rw [Literal.ReadBy]; exact related.1, by rw [Literal.bare, related.2]⟩
  · simp only [Literal.ofMarked, Caching.run_bind, Caching.run_outcome, ran]
    cases e with
    | nestingTooDeep limit =>
      refine ⟨sound', capacity, n, le, exact, ?_⟩
      rw [Direct.ofMarked, found]
      exact .error _
    | _ =>
      refine ⟨sound', capacity, n, le, exact, ?_⟩
      rw [Direct.ofMarked, found]
      exact .ok (.value _)

mutual
theorem Literal.ofJson_tracks
    (h : ∀ text, Tracks owner (Formula.ReadAs s) (fun n => Direct.formula s n text) k (read text)) :
    (j : Json) → Tracks owner (Literal.ReadAs s) (fun n => Direct.ofJson (Direct.formula s n) j) k
      (Literal.ofJson read j)
  | .string text => by
      simp only [Literal.ofJson, Direct.ofJson]
      cases Literal.marked? text with
      | some source => exact Literal.ofMarked_tracks h source
      | none => exact .pure (.value _)
  | .array items => by
      simp only [Literal.ofJson, Direct.ofJson]
      exact (Literal.ofItems_tracks h items).map fun _ _ related =>
        ⟨by rw [Literal.ReadBy]; exact related.1, by rw [Literal.bare, related.2]⟩
  | .object members => by
      simp only [Literal.ofJson, Direct.ofJson]
      exact (Literal.ofMembers_tracks h members).map fun _ _ related =>
        ⟨by rw [Literal.ReadBy]; exact related.1, by rw [Literal.bare, related.2]⟩
  | .null => by
      simp only [Literal.ofJson, Direct.ofJson]
      exact .pure (.value _)
  | .bool _ => by
      simp only [Literal.ofJson, Direct.ofJson]
      exact .pure (.value _)
  | .number _ => by
      simp only [Literal.ofJson, Direct.ofJson]
      exact .pure (.value _)

theorem Literal.ofItems_tracks
    (h : ∀ text, Tracks owner (Formula.ReadAs s) (fun n => Direct.formula s n text) k (read text)) :
    (js : List Json) →
    Tracks owner (fun ls ms => Literal.AllReadBy s ls ∧ Literal.bareAll ls = ms)
      (fun n => Direct.ofItems (Direct.formula s n) js) k (Literal.ofItems read js)
  | [] => by
      simp only [Literal.ofItems, Direct.ofItems]
      exact .pure ⟨by rw [Literal.AllReadBy]; trivial, by rw [Literal.bareAll]⟩
  | j :: js => by
      simp only [Literal.ofItems, Direct.ofItems]
      refine (Literal.ofJson_tracks h j).bind (fun l m one => (Literal.ofItems_tracks h js).map
        fun ls ms all => ⟨by rw [Literal.AllReadBy]; exact ⟨one.1, all.1⟩,
          by rw [Literal.bareAll, one.2, all.2]⟩) ?_ ?_
      · exact fun _ _ le => Direct.ofJson_approximates (Direct.formula_approximates le) j
      · exact fun _ _ _ le =>
          (Direct.ofItems_approximates (Direct.formula_approximates le) js).bind fun _ => .refl _

theorem Literal.ofMembers_tracks
    (h : ∀ text, Tracks owner (Formula.ReadAs s) (fun n => Direct.formula s n text) k (read text)) :
    (ms : List (String × Json)) →
    Tracks owner (fun ls ms => Literal.MembersReadBy s ls ∧ Literal.bareMembers ls = ms)
      (fun n => Direct.ofMembers (Direct.formula s n) ms) k (Literal.ofMembers read ms)
  | [] => by
      simp only [Literal.ofMembers, Direct.ofMembers]
      exact .pure ⟨by rw [Literal.MembersReadBy]; trivial, by rw [Literal.bareMembers]⟩
  | (name, j) :: ms => by
      simp only [Literal.ofMembers, Direct.ofMembers]
      refine (Literal.ofJson_tracks h j).bind (fun l m one => (Literal.ofMembers_tracks h ms).map
        fun ls ms all => ⟨by rw [Literal.MembersReadBy]; exact ⟨one.1, all.1⟩,
          by rw [Literal.bareMembers, one.2, all.2]⟩) ?_ ?_
      · exact fun _ _ le => Direct.ofJson_approximates (Direct.formula_approximates le) j
      · exact fun _ _ _ le =>
          (Direct.ofMembers_approximates (Direct.formula_approximates le) ms).bind fun _ => .refl _
end

variable {env : ReadingEnv} {nested : NestedReader}

/-- Nested texts are read as without a memory, and get no plan where none is asked for. -/
def NestedReader.Tracks (owner : Nat → Option Settings) (s : Settings) (k : Nat) (nested : NestedReader) :
    Prop :=
  ∀ planned text, ExactFormula.Tracks owner
    (fun f g => f.ReadAs s g ∧ (planned = false → f.plan = none)) (fun n => Direct.formula s n text) k
    (nested planned text)

theorem embeddedLiteral_tracks (owned : owner env.id = some env.settings)
    (h : nested.Tracks owner env.settings k) (source : List Char) :
    Tracks owner (Operand.ReadAs env.settings)
      (fun n => Direct.literal env.settings (Direct.formula env.settings n) source) k
      (embeddedLiteral env nested source) := by
  intro c sound
  have sound₁ := sound.findLiteral (env.id, String.ofList (Text.trim source))
  have capacity₁ := Cache.capacity_findLiteral (env.id, String.ofList (Text.trim source)) c
  have hit := sound.of_findLiteral (env.id, String.ofList (Text.trim source))
  rw [run_embeddedLiteral]
  generalize c.findLiteral (env.id, String.ofList (Text.trim source)) = looked at sound₁ capacity₁ hit ⊢
  obtain ⟨_ | ⟨serial, tree⟩, c₁⟩ := looked
  · dsimp only at sound₁ capacity₁ ⊢
    cases document : Relaxed.parseChars literalMarker env.settings.wrapCalls (Text.trim source) with
    | error e =>
      refine ⟨sound₁, capacity₁, k, Nat.le_refl k, fun _ => rfl, ?_⟩
      simp only [Direct.literal, Direct.tree?, document]
      exact .ok (.text _)
    | ok json =>
      dsimp only
      have build := Literal.ofJson_tracks
        (fun text => (h env.settings.compile text).mono fun _ _ related => related.1) json
      obtain ⟨n, c₂, ⟨le, exact⟩, ⟨sound₂, capacity₂⟩,
        ⟨tree, _, ⟨readBy, rfl⟩, ran, found⟩ | ⟨e, ran, found⟩⟩ := build.cases sound₁
      · rw [ran]
        have isTree : tree.IsTreeOf env.settings (String.ofList (Text.trim source)) :=
          ⟨readBy, n, by simp only [Direct.tree?, String.toList_ofList, document, found]⟩
        refine ⟨sound₂.storeLiteral owned isTree, ?_, n, le, fun zero => exact (capacity₁.trans zero), ?_⟩
        · rw [Cache.capacity_storeLiteral, capacity₂]
          exact capacity₁
        · simp only [Direct.literal, Direct.tree?, document, found]
          exact .ok ⟨by rw [Operand.ReadBy]; exact readBy, by rw [Operand.bare]⟩
      · rw [ran]
        refine ⟨sound₂, capacity₂.trans capacity₁, n, le, fun zero => exact (capacity₁.trans zero), ?_⟩
        simp only [Direct.literal, Direct.tree?, document, found]
        exact .error e
  · -- What is stored was read to some depth, and is the same to any greater one.
    obtain ⟨room, s, owned', readBy, levels, made⟩ := hit _ rfl
    rw [owned, Option.some.injEq] at owned'
    subst owned'
    rw [String.toList_ofList] at made
    obtain ⟨tree', found, near⟩ := Direct.tree?_approximates
      (Direct.formula_approximates (Nat.le_max_right k levels)) made
    refine ⟨sound₁, capacity₁, max k levels, Nat.le_max_left .., fun zero => absurd zero room, ?_⟩
    rcases near with deep | rfl
    · cases deep
    · simp only [Direct.literal, found]
      exact .ok ⟨by rw [Operand.ReadBy]; exact readBy, by rw [Operand.bare]⟩

/-! ## Pieces -/

theorem Piece.readArgs_tracks (h : nested.Tracks owner s k) (function : String) (index : Nat)
    (texts : List (List Char)) :
    Tracks owner (fun fs gs => Formula.AllReadBy s fs ∧ Formula.bareAll fs = gs)
      (fun n => Direct.args (Direct.formula s n) function index texts) k
      (Piece.readArgs nested function index texts) := by
  induction texts generalizing index with
  | nil => exact .pure ⟨by rw [Formula.AllReadBy]; trivial, by rw [Formula.bareAll]⟩
  | cons text texts ih =>
    simp only [Piece.readArgs, Direct.args]
    split
    · exact .throw _
    · refine (h false text).bind (fun f g one => (ih (index + 1)).map fun fs gs all =>
        ⟨by rw [Formula.AllReadBy]; exact ⟨⟨one.1.1, one.2 rfl⟩, all.1⟩,
          by rw [Formula.bareAll, one.1.2, all.2]⟩) ?_ ?_
      · exact fun _ _ le => Direct.formula_approximates le text
      · exact fun _ _ _ le => (Direct.args_approximates (Direct.formula_approximates le) function
          (index + 1) texts).bind fun _ => .refl _

theorem Piece.readCall_tracks (h : nested.Tracks owner env.settings k) (function : String)
    (inner : List Char) : Tracks owner (Operand.ReadAs env.settings)
      (fun n => Direct.call env.settings (Direct.formula env.settings n) function inner) k
      (Piece.readCall env nested function inner) := by
  simp only [Piece.readCall, Direct.call]
  cases env.settings.functions.get? function with
  | none => exact .throw _
  | some f =>
    dsimp only
    cases f.arityFault? (if (Text.trim inner).isEmpty then [] else Lexeme.splitArgs inner).length with
    | some reason => exact .throw _
    | none => exact (Piece.readArgs_tracks h function 1 _).map fun fs gs all =>
        ⟨by rw [Operand.ReadBy]; exact all.1, by rw [Operand.bare, all.2]⟩

theorem Piece.readGroup_tracks (h : nested.Tracks owner s k) (inner : List Char) :
    Tracks owner (Operand.ReadAs s) (fun n => Direct.group (Direct.formula s n) inner) k
      (Piece.readGroup nested inner) := by
  simp only [Piece.readGroup, Direct.group]
  split
  · exact .throw _
  · exact (h false inner).map fun f g one =>
      ⟨by rw [Operand.ReadBy]; exact ⟨one.1.1, one.2 rfl⟩, by rw [Operand.bare, one.1.2]⟩

theorem Piece.operand_readAs {a : Operand} (h : a.ReadAs s a) :
    (Piece.operand a).ReadBy s ∧ (Piece.operand a).bare = .operand a :=
  ⟨h.1, by rw [Piece.bare, h.2]⟩

theorem Piece.ofWord_matches (s : Settings) (text : List Char) :
    Matches (fun p q => p.ReadBy s ∧ p.bare = q) (Piece.ofWord s text) (Piece.ofWord s text) := by
  rw [Piece.ofWord]
  split
  · split
    · exact .ok (Piece.operand_readAs (.constant _))
    · exact .error _
  · split
    · exact .ok (Piece.operand_readAs (.constant _))
    · split
      · exact .ok ⟨trivial, rfl⟩
      · exact .error _

theorem Piece.ofQuoted_readAs (s : Settings) (content : List Char) :
    (Piece.ofQuoted content).ReadAs s (Piece.ofQuoted content) := by
  rw [Piece.ofQuoted]
  split
  · split
    · exact .constant _
    · exact .text _
  · exact .text _

/-- The operand comes first, in front of the pieces before it. -/
theorem Piece.operand_tracks {x : Reading Operand} {direct : Nat → Except FormulaError Operand}
    {ps qs : List Piece} (hx : Tracks owner (Operand.ReadAs s) direct k x) (h : Piece.AllReadAs s ps qs) :
    Tracks owner (Piece.AllReadAs s) (fun n => do return .operand (← direct n) :: qs) k
      (do return .operand (← x) :: ps) :=
  hx.map fun _ _ one => h.cons one.1 (by rw [Piece.bare, one.2])

theorem Piece.add_tracks (owned : owner env.id = some env.settings) (h : nested.Tracks owner env.settings k)
    {ps qs : List Piece} (before : Piece.AllReadAs env.settings ps qs) (l : Lexeme) :
    Tracks owner (Piece.AllReadAs env.settings)
      (fun n => Direct.add env.settings (Direct.formula env.settings n) qs l) k
      (Piece.add env nested ps l) := by
  cases l with
  | word text =>
    exact (Tracks.lift (Piece.ofWord_matches env.settings text)).map fun _ _ one => before.cons one.1 one.2
  | operator symbol => exact .pure (before.cons trivial rfl)
  | quoted content =>
    have operand := Piece.operand_readAs (Piece.ofQuoted_readAs env.settings content)
    exact .pure (before.cons operand.1 operand.2)
  | parens inner =>
    obtain ⟨readBy, rfl⟩ := before
    match ps with
    | .name function :: ps =>
      exact Piece.operand_tracks (Piece.readCall_tracks h function inner)
        ⟨(List.forall_mem_cons.1 readBy).2, rfl⟩
    | [] => exact Piece.operand_tracks (Piece.readGroup_tracks h inner) ⟨readBy, rfl⟩
    | .operator _ :: _ => exact Piece.operand_tracks (Piece.readGroup_tracks h inner) ⟨readBy, rfl⟩
    | .bracketName _ :: _ => exact Piece.operand_tracks (Piece.readGroup_tracks h inner) ⟨readBy, rfl⟩
    | .operand _ :: _ => exact Piece.operand_tracks (Piece.readGroup_tracks h inner) ⟨readBy, rfl⟩
  | brackets inner =>
    simp only [Piece.add, Direct.add]
    split
    · exact .pure (before.cons trivial rfl)
    · exact Piece.operand_tracks (embeddedLiteral_tracks owned h _) before
  | braces inner => exact Piece.operand_tracks (embeddedLiteral_tracks owned h _) before
  | unmatched delimiter => exact .throw _

theorem Piece.addAll_tracks (owned : owner env.id = some env.settings)
    (h : nested.Tracks owner env.settings k) {ps qs : List Piece}
    (before : Piece.AllReadAs env.settings ps qs) (ls : List Lexeme) :
    Tracks owner (Piece.AllReadAs env.settings)
      (fun n => Direct.addAll env.settings (Direct.formula env.settings n) qs ls) k
      (Piece.addAll env nested ps ls) := by
  induction ls generalizing ps qs with
  | nil =>
    obtain ⟨readBy, rfl⟩ := before
    exact .pure ⟨fun p mem => readBy p (List.mem_reverse.1 mem), List.map_reverse ..⟩
  | cons l ls ih =>
    refine (Piece.add_tracks owned h before l).bind (fun _ _ after => ih after) ?_ ?_
    · exact fun _ _ le => Direct.add_approximates (Direct.formula_approximates le) qs l
    · exact fun _ _ _ le => Direct.addAll_approximates (Direct.formula_approximates le) _ ls

/-! ## Parts and formulas -/

theorem Cache.resolver_tracks {factory : ReferenceFactory} (owned : owner env.id = some env.settings)
    (given : env.settings.reference = some factory) (name : String) :
    Tracks owner (fun r q => factory name = .ok r ∧ r = q) (fun _ => factory name) k
      (Cache.resolver env.id name factory) := by
  intro c sound
  have sound₁ := sound.findResolver (env.id, name)
  have capacity₁ := Cache.capacity_findResolver (env.id, name) c
  have hit := sound.of_findResolver (env.id, name)
  rw [Cache.run_resolver]
  generalize c.findResolver (env.id, name) = looked at sound₁ capacity₁ hit ⊢
  obtain ⟨_ | r, c₁⟩ := looked
  · dsimp only at sound₁ capacity₁ ⊢
    cases made : factory name with
    | error e => exact ⟨sound₁, capacity₁, k, Nat.le_refl k, fun _ => rfl, .error e⟩
    | ok r =>
      exact ⟨sound₁.storeResolver owned ⟨factory, given, made⟩, capacity₁, k, Nat.le_refl k, fun _ => rfl,
        .ok ⟨rfl, rfl⟩⟩
  · obtain ⟨s, owned', factory', given', made⟩ := hit r rfl
    rw [owned, Option.some.injEq] at owned'
    subst owned'
    rw [given, Option.some.injEq] at given'
    subst given'
    refine ⟨sound₁, capacity₁, k, Nat.le_refl k, fun _ => rfl, ?_⟩
    rw [made]
    exact .ok ⟨rfl, rfl⟩

theorem Piece.readReference_tracks (owned : owner env.id = some env.settings) (name : String) :
    Tracks owner (fun r q => r.ReadBy env.settings ∧ r = q)
      (fun _ => Direct.reference env.settings name) k (Piece.readReference env name) := by
  simp only [Piece.readReference, Direct.reference]
  split
  · exact .throw _
  · cases given : env.settings.reference with
    | none => exact .pure ⟨.lookup given, rfl⟩
    | some factory =>
      exact (Cache.resolver_tracks owned given name).map fun _ _ one =>
        ⟨.custom given one.1, by rw [one.2]⟩

theorem Piece.operatorPart_matches (s : Settings) (operandExpected : Bool) (symbol : List Char) :
    Matches (fun p q => Part.ReadBy s p ∧ Part.bare p = q) (Piece.operatorPart operandExpected symbol)
      (Piece.operatorPart operandExpected symbol) := by
  unfold Piece.operatorPart
  split
  · exact .ok ⟨by rw [Part.ReadBy]; trivial, by rw [Part.bare]⟩
  · exact .ok ⟨by rw [Part.ReadBy]; trivial, by rw [Part.bare]⟩
  · exact .error _
  · exact .error _
  · exact .error _

/-- The part comes first, in front of the parts after it. -/
theorem Piece.part_tracks {x : Reading (List (Part Operand))}
    {direct : Nat → Except FormulaError (List (Part Operand))} {p q : Part Operand}
    (readBy : Part.ReadBy s p) (bare : Part.bare p = q)
    (hx : Tracks owner (fun ps qs => Part.AllReadBy s ps ∧ Part.bareAll ps = qs) direct k x) :
    Tracks owner (fun ps qs => Part.AllReadBy s ps ∧ Part.bareAll ps = qs)
      (fun n => do return q :: (← direct n)) k (do return p :: (← x)) :=
  hx.map fun _ _ all =>
    ⟨by rw [Part.AllReadBy]; exact ⟨readBy, all.1⟩, by rw [Part.bareAll, bare, all.2]⟩

theorem Piece.arrange_tracks (owned : owner env.id = some env.settings) (first operandExpected : Bool)
    {ps qs : List Piece} (h : Piece.AllReadAs env.settings ps qs) :
    Tracks owner (fun ps qs => Part.AllReadBy env.settings ps ∧ Part.bareAll ps = qs)
      (fun _ => Direct.arrange env.settings first operandExpected qs) k
      (Piece.arrange env first operandExpected ps) := by
  obtain ⟨readBy, rfl⟩ := h
  induction ps generalizing first operandExpected with
  | nil =>
    simp only [Piece.arrange, List.map_nil, Direct.arrange]
    split
    · exact .throw _
    · split
      · exact .throw _
      · exact .pure ⟨by rw [Part.AllReadBy]; trivial, by rw [Part.bareAll]⟩
  | cons p ps ih =>
    obtain ⟨here, later⟩ := List.forall_mem_cons.1 readBy
    have named (text : String) : Tracks owner
        (fun ps qs => Part.AllReadBy env.settings ps ∧ Part.bareAll ps = qs)
        (fun _ => Direct.arrange env.settings first operandExpected (.name text :: ps.map Piece.bare)) k
        (Piece.arrange env first operandExpected (.name text :: ps)) := by
      simp only [Piece.arrange, Direct.arrange]
      refine (Piece.readReference_tracks owned text).bind (fun r q one => ?_) (.const _) fun _ => .const _
      obtain ⟨readBy, rfl⟩ := one
      cases operandExpected with
      | false => exact .throw _
      | true =>
        have part : Part.ReadBy env.settings (.operand (.reference r)) := by
          rw [Part.ReadBy, Operand.ReadBy]
          exact readBy
        exact Piece.part_tracks part (by rw [Part.bare, Operand.bare]) (ih false false later)
    cases p with
    | operator symbol =>
      refine (Tracks.lift (Piece.operatorPart_matches env.settings operandExpected symbol)).bind
        (fun p q one => ?_) (.const _) fun _ => .const _
      exact Piece.part_tracks one.1 one.2 (ih false true later)
    | name text => exact named text
    | bracketName text => exact named text
    | operand a =>
      simp only [Piece.arrange, List.map_cons, Piece.bare, Direct.arrange]
      cases operandExpected with
      | false => exact .throw _
      | true =>
        have part : Part.ReadBy env.settings (.operand a) := by
          rw [Part.ReadBy]
          exact here
        exact Piece.part_tracks part (by rw [Part.bare]) (ih false false later)

/-- A text read with a sound cache reads as it does without a memory, to some depth at least `levels`. -/
theorem readFormula_tracks (env : ReadingEnv) (owned : owner env.id = some env.settings) (levels : Nat) :
    NestedReader.Tracks owner env.settings levels (readFormula env levels) := by
  induction levels with
  | zero =>
    intro planned text c sound
    exact ⟨sound, rfl, 0, Nat.le_refl 0, fun _ => rfl, .error _⟩
  | succ levels ih =>
    intro planned text
    refine .deeper ?_
    simp only [readFormula, Direct.formula]
    refine (Piece.addAll_tracks owned ih ⟨List.forall_mem_nil _, rfl⟩ (lexemes text)).bind
      (fun ps qs pieces => ?_) ?_ fun _ => .const _
    · refine (Piece.arrange_tracks owned true true pieces).map fun ps qs parts => ⟨⟨?_, ?_⟩, ?_⟩
      · rw [Formula.ReadBy]
        refine ⟨rfl, ?_, parts.1⟩
        split
        · exact .inr rfl
        · exact .inl rfl
      · rw [Formula.bare, parts.2]
      · rintro rfl
        rfl
    · exact fun _ _ le => Direct.addAll_approximates (Direct.formula_approximates le) _ _

end ExactFormula
