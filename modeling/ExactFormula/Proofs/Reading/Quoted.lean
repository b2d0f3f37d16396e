import ExactFormula.Proofs.Reading.Running
import ExactFormula.Proofs.Relaxed.Clear
import ExactFormula.Proofs.Relaxed.Forms

/-!
Quoted text in embedded literals. In the tree that is built of a literal, a quoted text is a constant, unless it starts
with the marker of formulas.
-/

namespace ExactFormula

namespace Literal

def child? : Spot → Literal → Option Literal
  | .item n, .array items => items[n]?
  | .member name, .object members => Entries.get? name members
  | _, _ => none

/-- Some run of the builder gives the tree. -/
def BuiltFrom (read : List Char → Reading Formula) (j : Json) (tree : Literal) : Prop :=
  ∃ c c', (ofJson read j).run c = (.ok tree, c')

variable {read : List Char → Reading Formula} {c c' : Cache}

theorem builtFrom_items : {js : List Json} → {c c' : Cache} → {trees : List Literal} →
    (ofItems read js).run c = (.ok trees, c') →
      ∀ {n : Nat} {j : Json}, js[n]? = some j → ∃ tree, trees[n]? = some tree ∧ BuiltFrom read j tree
  | [], _, _, _, _, _, _, found => by cases found
  | j :: js, c, c', trees, ran, n, j', found => by
    rw [ofItems] at ran
    obtain ⟨tree, c₁, first, ran⟩ := Caching.run_bind_ok ran
    obtain ⟨trees, c₂, later, ran⟩ := Caching.run_bind_ok ran
    cases ran
    cases n with
    | zero =>
      cases found
      exact ⟨tree, rfl, c, c₁, first⟩
    | succ n => exact builtFrom_items later found

theorem builtFrom_members : {ms : List (String × Json)} → {c c' : Cache} → {trees : List (String × Literal)} →
    (ofMembers read ms).run c = (.ok trees, c') → ∀ {name : String} {j : Json}, Entries.get? name ms = some j →
      ∃ tree, Entries.get? name trees = some tree ∧ BuiltFrom read j tree
  | [], _, _, _, _, _, _, found => by cases found
  | (k, j) :: ms, c, c', trees, ran, name, j', found => by
    rw [ofMembers] at ran
    obtain ⟨tree, c₁, first, ran⟩ := Caching.run_bind_ok ran
    obtain ⟨trees, c₂, later, ran⟩ := Caching.run_bind_ok ran
    cases ran
    rw [Entries.get?_cons] at found ⊢
    split at found
    case isTrue same =>
      cases found
      exact ⟨tree, if_pos same, c, c₁, first⟩
    case isFalse other =>
      rw [if_neg other]
      exact builtFrom_members later found

theorem BuiltFrom.child? {j j' : Json} {tree : Literal} (h : BuiltFrom read j tree) (spot : Spot)
    (found : j.child? spot = some j') : ∃ tree', tree.child? spot = some tree' ∧ BuiltFrom read j' tree' := by
  obtain ⟨c, c', ran⟩ := h
  cases j with
  | array items =>
    cases spot with
    | item n =>
      rw [ofJson] at ran
      obtain ⟨trees, c₁, ran', ended⟩ := Caching.run_bind_ok ran
      cases ended
      exact builtFrom_items ran' found
    | member => cases found
  | object members =>
    cases spot with
    | item => cases found
    | member name =>
      rw [ofJson] at ran
      obtain ⟨trees, c₁, ran', ended⟩ := Caching.run_bind_ok ran
      cases ended
      exact builtFrom_members ran' found
  | _ => cases spot <;> cases found

theorem BuiltFrom.eq_value {s : String} {tree : Literal} (h : BuiltFrom read (.string s) tree)
    (unmarked : ¬literalMarker <+: s.toList) : tree = .value (plainValue s) := by
  obtain ⟨c, c', ran⟩ := h
  have none : marked? s = none := by rw [marked?, if_neg (by rwa [List.isPrefixOf_iff_prefix])]
  rw [ofJson, none] at ran
  cases ran
  rfl

/-! ## Drafts -/

open Relaxed (Draft Page Quotation Source Key Gap Keeps parseChars bareJson oneSpace)

theorem exists_json {env : ReadingEnv} {nested : NestedReader} {text : List Char} {tree : Literal}
    (built : (build env nested text).run c = (.ok tree, c')) :
    ∃ j, parseChars literalMarker env.settings.wrapCalls text = .ok j ∧
      BuiltFrom (nested env.settings.compile) j tree := by
  rw [build] at built
  split at built
  case h_1 j parsed =>
    rw [Caching.run_adapt] at built
    obtain ⟨ok, cache⟩ := Prod.mk.inj built
    refine ⟨j, parsed, c, c', Prod.ext ?_ cache⟩
    cases ran : ((ofJson (nested env.settings.compile) j).run c).1 with
    | ok tree' =>
      rw [ran] at ok
      cases ok
      rfl
    | error e =>
      rw [ran] at ok
      cases ok
  case h_2 => cases built

/-- Where a draft has a quoted text that does not start with the marker, a tree of what it is read as has a constant. -/
theorem follow_quoted {inner : List Char → Reading Formula} {d : Draft} {v : Source} {tree : Literal}
    (keeps : Keeps d v) (built : BuiltFrom inner (v.value (bareJson literalMarker)) tree) {path : List Spot}
    {q : Quotation} {after : Gap} (found : follow Draft.child? path d = some (.leaf (.quoted q after)))
    (unmarked : ¬literalMarker <+: q.text) :
    follow child? path tree = some (.value (plainValue (String.ofList q.text))) := by
  obtain ⟨_, place, v', rfl, keeps⟩ := follow_simulates
    (R := fun d j => ∃ v : Source, j = v.value (bareJson literalMarker) ∧ Keeps d v)
    (fun d j related spot d' first => by
      obtain ⟨v, rfl, keeps⟩ := related
      obtain ⟨v', first', keeps⟩ := keeps.child? _ first
      exact ⟨_, first', v', rfl, keeps⟩) path ⟨v, rfl, keeps⟩ found
  obtain ⟨tree', place', built⟩ := follow_simulates (fun _ _ related spot _ => related.child? spot) path built place
  cases keeps with
  | quoted =>
    rw [Source.value] at built
    rw [place', built.eq_value (by rwa [String.toList_ofList])]

/-- In the tree of a literal, every quoted text that does not start with the marker is a constant: the number that it
is, or the text. -/
theorem build_quoted {env : ReadingEnv} {nested : NestedReader} {tree : Literal} {d : Draft} (root : d.isLeaf = false)
    (clear : d.Clear (d.wrapsCalls env.settings.wrapCalls)) (built : (build env nested d.text).run c = (.ok tree, c'))
    {path : List Spot} {q : Quotation} {after : Gap}
    (found : follow Draft.child? path d = some (.leaf (.quoted q after))) (unmarked : ¬literalMarker <+: q.text) :
    follow child? path tree = some (.value (plainValue (String.ofList q.text))) := by
  obtain ⟨j, parsed, builtFrom⟩ := exists_json built
  obtain ⟨v, keeps, rfl⟩ := Draft.parseChars_eq root clear parsed
  exact follow_quoted keeps builtFrom found unmarked

/-- The same of every text that is written into a slot, wherever the scan for calls leaves a form with the slot. -/
theorem build_filled {ι : Type} {env : ReadingEnv} {nested : NestedReader} {tree : Literal} {page left : Page ι}
    {fill : ι → Quotation} (leaves : Relaxed.Leaves fill literalMarker page env.settings.wrapCalls left)
    (root : left.root.isLeaf = false) (readable : left.root.Readable)
    (built : (build env nested (page.text fill)).run c = (.ok tree, c')) {path : List Spot} {q : Quotation}
    {after : Gap} (found : follow Draft.child? path (left.root.filled fill) = some (.leaf (.quoted q after)))
    (unmarked : ¬literalMarker <+: q.text) :
    follow child? path tree = some (.value (plainValue (String.ofList q.text))) := by
  obtain ⟨j, parsed, builtFrom⟩ := exists_json built
  obtain ⟨v, keeps, rfl⟩ := leaves.parseChars_eq root readable parsed
  exact follow_quoted keeps builtFrom found unmarked

/-- `max(1, 2)` -/
def maxCall : List Char := ['m', 'a', 'x'] ++ '(' :: (['1', ',', ' ', '2'] ++ [')'])

/-- `{a: max(1, 2), b: "..."}` -/
def besideCall (text : List Char) : Draft :=
  .object (.more ⟨[], .bare (.ofLetter 'a' rfl), [], oneSpace⟩ (.leaf (.bare maxCall []))
    (.last ⟨oneSpace, .bare (.ofLetter 'b' rfl), [], oneSpace⟩ (.leaf (.quoted (.ofText text) [])))) []

theorem besideCall_clear (text : List Char) : (besideCall text).Clear true := by
  have space : oneSpace.IsStrict := by simp [Gap.IsStrict, oneSpace, Relaxed.Filler.IsStrict]
  have nothing : Gap.IsStrict [] := List.forall_mem_nil _
  have inside : Matched true ['1', ',', ' ', '2'] :=
    .plain ⟨rfl, rfl, rfl⟩ (.plain ⟨rfl, rfl, rfl⟩ (.plain ⟨rfl, rfl, rfl⟩ (.plain ⟨rfl, rfl, rfl⟩ .nil)))
  have calls : Relaxed.Calls maxCall := by decide
  have clear : Relaxed.ClearText maxCall [] := {
    solid := ⟨by decide, by decide⟩
    starts := by
      rintro c ⟨⟩
      rfl
    inline := .word rfl (.group (c := '(') rfl (.inr rfl) inside .nil)
    after := nothing
    unadorned := fun callless => absurd calls callless }
  have first : Key.Clear ⟨[], .bare (.ofLetter 'a' rfl), [], oneSpace⟩ := ⟨.nil, .nil, space⟩
  have second : Key.Clear ⟨oneSpace, .bare (.ofLetter 'b' rfl), [], oneSpace⟩ := ⟨.char rfl rfl .nil, .nil, space⟩
  exact ⟨⟨fun _ => first, clear, fun _ => second, nothing⟩, fun _ => .nil⟩

/-- A literal as it is built for default settings. -/
def builtAlone (text : List Char) : Except LiteralFault Literal × Cache :=
  (build ⟨{}, 0⟩ (readFormula ⟨{}, 0⟩ maxNesting) text).run (Cache.empty 0 0)

theorem exists_of_isSome {r : Except LiteralFault Literal × Cache} (h : r.1.toOption.isSome = true) :
    ∃ tree c, r = (.ok tree, c) := by
  obtain ⟨e | tree, c⟩ := r
  · cases h
  · exact ⟨tree, c, rfl⟩

theorem build_quoted_sum : ∃ tree c, String.ofList (besideCall "1+1".toList).text = "\x7ba: max(1, 2), b: \"1+1\"\x7d" ∧
    (besideCall "1+1".toList).isLeaf = false ∧
    (besideCall "1+1".toList).Clear ((besideCall "1+1".toList).wrapsCalls true) ∧
    builtAlone (besideCall "1+1".toList).text = (.ok tree, c) ∧
    follow Draft.child? [.member "b"] (besideCall "1+1".toList) = some (.leaf (.quoted (.ofText "1+1".toList) [])) ∧
    ¬literalMarker <+: "1+1".toList ∧
    follow child? [.member "b"] tree = some (.value (plainValue (String.ofList "1+1".toList))) := by
  have wraps : (besideCall "1+1".toList).wrapsCalls true = true := by decide
  have clear : (besideCall "1+1".toList).Clear ((besideCall "1+1".toList).wrapsCalls true) := by
    rw [wraps]
    exact besideCall_clear _
  have found : follow Draft.child? [.member "b"] (besideCall "1+1".toList) =
      some (.leaf (.quoted (.ofText "1+1".toList) [])) := rfl
  obtain ⟨tree, c, built⟩ := exists_of_isSome (r := builtAlone (besideCall "1+1".toList).text) (by decide)
  exact ⟨tree, c, by decide, rfl, clear, built, found, by decide,
    build_quoted rfl clear built found (by decide)⟩

/-- `{a: max(1, 2), b: "\u001f#1+1"}`: the quoted text is evaluated. -/
theorem build_marked : ¬∀ (d : Draft) (tree : Literal) (c : Cache), d.isLeaf = false → d.Clear (d.wrapsCalls true) →
    builtAlone d.text = (.ok tree, c) → ∀ (path : List Spot) (q : Quotation) (after : Gap),
      follow Draft.child? path d = some (.leaf (.quoted q after)) →
        follow child? path tree = some (.value (plainValue (String.ofList q.text))) := by
  intro constant
  let text := literalMarker ++ "1+1".toList
  have wraps : (besideCall text).wrapsCalls true = true := by decide
  have clear : (besideCall text).Clear ((besideCall text).wrapsCalls true) := by
    rw [wraps]
    exact besideCall_clear _
  obtain ⟨tree, c, built⟩ := exists_of_isSome (r := builtAlone (besideCall text).text) (by decide)
  have place : follow child? [.member "b"] tree = some (.value (plainValue (String.ofList text))) :=
    constant (besideCall text) tree c rfl clear built [.member "b"] (.ofText text) [] rfl
  have shown : ((builtAlone (besideCall text).text).1.toOption.bind (follow child? [.member "b"])).map
      (fun node => (node.evaluate .empty).toOption.map Value.display) = some (some "2") := by decide +kernel
  rw [built, Except.toOption, Option.bind_some, place] at shown
  exact absurd shown (by decide)

end Literal

end ExactFormula
