import ExactFormula.Proofs.Cache.LookUps
import ExactFormula.Proofs.Reading.Sound

/-!
The look-ups of a reading on a sound cache. A literal that is looked up while another one is built nests
less deep than that one, so no literal holds itself, and no builder leaves an entry under its own key.
-/

namespace ExactFormula

open Direct (Rising)

variable {α β γ δ : Type} {s : Settings} {owner : Nat → Option Settings} {k : Nat}

theorem ne_error_of_bind {r : Except FormulaError β} {next : β → Except FormulaError δ} {e : FormulaError}
    (h : (r >>= next) ≠ .error e) : r ≠ .error e := by
  rintro rfl
  exact h rfl

/-- The text of a literal nests too deep to be read with so many levels. -/
def Direct.Deep (s : Settings) (text : String) (levels : Nat) : Prop :=
  Direct.tree? s (Direct.formula s levels) text.toList = some (.error tooDeep)

namespace LookUp

/-- A literal that is looked up does not nest too deep for some fewer levels. -/
def Below (s : Settings) (levels : Nat) (l : LookUp) : Prop :=
  l.table = .literals → ∃ n < levels, ¬Direct.Deep s l.key.2 n

/-- The builder leaves no entry under the key, and what it builds does not nest too deep. -/
structure Settles (s : Settings) (l : LookUp) : Prop where
  apart : l.answer.held = false
  shallow : l.table = .literals → l.answer.isBuilt → ∃ n, ¬Direct.Deep s l.key.2 n

variable {l : LookUp} {m n : Nat}

theorem Below.mono (h : l.Below s m) (le : m ≤ n) : l.Below s n := fun literal =>
  let ⟨i, less, near⟩ := h literal
  ⟨i, Nat.lt_of_lt_of_le less le, near⟩

end LookUp

/-- On a sound cache the reading makes look-ups that settle, and that are `Q n` for every depth `n` that is
enough for the reading. -/
def Records (owner : Nat → Option Settings) (s : Settings) (Q : Nat → LookUp → Prop)
    (direct : Nat → Except FormulaError β) (x : Reading α) : Prop :=
  ∀ c, c.Sound owner → ∃ log r c', Caching.Ran x c log r c' ∧ (∀ l ∈ log, l.Settles s) ∧
    ∀ n, direct n ≠ .error tooDeep → ∀ l ∈ log, Q n l

namespace Records

variable {P : α → β → Prop} {Q Q' : Nat → LookUp → Prop} {direct : Nat → Except FormulaError β} {x : Reading α}

theorem lift (r : Except FormulaError α) : Records owner s Q direct (liftM r : Reading α) :=
  fun c _ => ⟨[], r, c, .lift r c, List.forall_mem_nil _, fun _ _ => List.forall_mem_nil _⟩

theorem pure (a : α) : Records owner s Q direct (pure a) := lift (.ok a)

theorem throw (e : FormulaError) : Records owner s Q direct (throw e : Reading α) := lift (.error e)

theorem mono (hx : Records owner s Q direct x) (weaker : ∀ n l, Q n l → Q' n l) :
    Records owner s Q' direct x := by
  intro c sound
  obtain ⟨log, r, c', ran, settles, bounded⟩ := hx c sound
  exact ⟨log, r, c', ran, settles, fun n near l mem => weaker n l (bounded n near l mem)⟩

/-- One level more on both sides. -/
theorem deeper (hx : Records owner s (fun n => Q (n + 1)) (fun n => direct (n + 1)) x)
    (deep : direct 0 = .error tooDeep) : Records owner s Q direct x := by
  intro c sound
  obtain ⟨log, r, c', ran, settles, bounded⟩ := hx c sound
  refine ⟨log, r, c', ran, settles, fun n near => ?_⟩
  cases n with
  | zero => exact absurd deep near
  | succ n => exact bounded n near

theorem bind {f : α → Reading γ} {next : Nat → β → Except FormulaError δ} (hx : Records owner s Q direct x)
    (tracked : Tracks owner P direct k x) (hf : ∀ a b, P a b → Records owner s Q (next · b) (f a))
    (rising : Rising direct) : Records owner s Q (fun n => direct n >>= next n) (x >>= f) := by
  intro c sound
  obtain ⟨log, r, c₁, ran, settles, bounded⟩ := hx c sound
  obtain ⟨m, c', -, ⟨sound', -⟩, ⟨a, b, related, same, found⟩ | ⟨e, same, found⟩⟩ := tracked.cases sound
  · cases ran.run_eq.symm.trans same
    obtain ⟨log', r', c₂, ran', settles', bounded'⟩ := hf a b related c₁ sound'
    refine ⟨log ++ log', r', c₂, .bind ran ran', List.forall_mem_append.2 ⟨settles, settles'⟩, ?_⟩
    intro n (near : (direct n >>= next n) ≠ .error tooDeep)
    -- The result comes of some depth, and so of every one that is enough.
    have first := ne_error_of_bind near
    have enough : direct n = .ok b := by
      rcases Nat.le_total n m with le | le
      · exact ((rising n m le).resolve_left first).trans found
      · exact rising.ok le found
    have later : next n b ≠ .error tooDeep := by
      rw [enough] at near
      exact near
    exact List.forall_mem_append.2 ⟨bounded n first, bounded' n later⟩
  · cases ran.run_eq.symm.trans same
    exact ⟨log, .error e, c₁, .bindError f ran, settles, fun n near => bounded n (ne_error_of_bind near)⟩

theorem map {f : α → γ} {g : β → δ} (hx : Records owner s Q direct x) :
    Records owner s Q (fun n => direct n >>= fun b => .ok (g b)) (x >>= fun a => Pure.pure (f a)) := by
  intro c sound
  obtain ⟨log, r, c₁, ran, settles, bounded⟩ := hx c sound
  have first (n : Nat) (near : (direct n >>= fun b => .ok (g b)) ≠ .error tooDeep) : ∀ l ∈ log, Q n l :=
    bounded n (ne_error_of_bind near)
  cases r with
  | ok a =>
    refine ⟨log ++ [], .ok (f a), c₁, .bind ran (.lift (.ok (f a)) c₁), ?_⟩
    rw [List.append_nil]
    exact ⟨settles, first⟩
  | error e => exact ⟨log, .error e, c₁, .bindError _ ran, settles, first⟩

end Records

/-! ## Embedded literals -/

section Literals

variable {Q : Nat → LookUp → Prop} {read : List Char → Reading Formula}

theorem Literal.ofMarked_records
    (h : ∀ text, Records owner s Q (fun n => Direct.formula s n text) (read text)) (source : List Char) :
    Records owner s Q (fun n => Direct.ofMarked (Direct.formula s n) source)
      (Literal.ofMarked read source) := by
  intro c sound
  obtain ⟨log, r, c₁, ran, settles, bounded⟩ := h source c sound
  have ends : ∃ r', Caching.Ran (Literal.ofMarked read source) c (log ++ []) r' c₁ := by
    cases r with
    | ok f => exact ⟨_, .bind (.outcome ran) (.lift (.ok _) c₁)⟩
    | error e =>
      cases e with
      | nestingTooDeep limit => exact ⟨_, .bind (.outcome ran) (.lift (.error _) c₁)⟩
      | _ => exact ⟨_, .bind (.outcome ran) (.lift (.ok _) c₁)⟩
  rw [List.append_nil] at ends
  obtain ⟨r', ran'⟩ := ends
  refine ⟨log, r', c₁, ran', settles, fun n near => bounded n fun deep => near ?_⟩
  simp only [Direct.ofMarked, deep]

mutual
theorem Literal.ofJson_records
    (tracked : ∀ text, Tracks owner (Formula.ReadAs s) (fun n => Direct.formula s n text) k (read text))
    (h : ∀ text, Records owner s Q (fun n => Direct.formula s n text) (read text)) :
    (j : Json) → Records owner s Q (fun n => Direct.ofJson (Direct.formula s n) j) (Literal.ofJson read j)
  | .string text => by
      simp only [Literal.ofJson, Direct.ofJson]
      cases Literal.marked? text with
      | some source => exact Literal.ofMarked_records h source
      | none => exact .pure _
  | .array items => by
      simp only [Literal.ofJson, Direct.ofJson]
      exact (Literal.ofItems_records tracked h items).map
  | .object members => by
      simp only [Literal.ofJson, Direct.ofJson]
      exact (Literal.ofMembers_records tracked h members).map
  | .null => by
      simp only [Literal.ofJson, Direct.ofJson]
      exact .pure _
  | .bool _ => by
      simp only [Literal.ofJson, Direct.ofJson]
      exact .pure _
  | .number _ => by
      simp only [Literal.ofJson, Direct.ofJson]
      exact .pure _

theorem Literal.ofItems_records
    (tracked : ∀ text, Tracks owner (Formula.ReadAs s) (fun n => Direct.formula s n text) k (read text))
    (h : ∀ text, Records owner s Q (fun n => Direct.formula s n text) (read text)) :
    (js : List Json) →
    Records owner s Q (fun n => Direct.ofItems (Direct.formula s n) js) (Literal.ofItems read js)
  | [] => by
      simp only [Literal.ofItems, Direct.ofItems]
      exact .pure _
  | j :: js => by
      simp only [Literal.ofItems, Direct.ofItems]
      refine (Literal.ofJson_records tracked h j).bind (Literal.ofJson_tracks tracked j)
        (fun _ _ _ => (Literal.ofItems_records tracked h js).map) ?_
      exact fun _ _ le => Direct.ofJson_approximates (Direct.formula_approximates le) j

theorem Literal.ofMembers_records
    (tracked : ∀ text, Tracks owner (Formula.ReadAs s) (fun n => Direct.formula s n text) k (read text))
    (h : ∀ text, Records owner s Q (fun n => Direct.formula s n text) (read text)) :
    (ms : List (String × Json)) →
    Records owner s Q (fun n => Direct.ofMembers (Direct.formula s n) ms) (Literal.ofMembers read ms)
  | [] => by
      simp only [Literal.ofMembers, Direct.ofMembers]
      exact .pure _
  | (name, j) :: ms => by
      simp only [Literal.ofMembers, Direct.ofMembers]
      refine (Literal.ofJson_records tracked h j).bind (Literal.ofJson_tracks tracked j)
        (fun _ _ _ => (Literal.ofMembers_records tracked h ms).map) ?_
      exact fun _ _ le => Direct.ofJson_approximates (Direct.formula_approximates le) j
end

end Literals

variable {env : ReadingEnv} {nested : NestedReader}

/-- The look-ups of a nested text are `Q n` for every depth `n` that is enough for the text. -/
def NestedReader.Records (owner : Nat → Option Settings) (s : Settings) (Q : Nat → LookUp → Prop)
    (nested : NestedReader) : Prop :=
  ∀ planned text, ExactFormula.Records owner s Q (fun n => Direct.formula s n text) (nested planned text)

/-- A builder whose look-ups nest less deep than a text leaves no entry for that text: the least depth that
is enough for it would have a smaller one below. -/
theorem Caching.Ran.not_mem_keys {ε : Type} {x : Caching ε α} {c c' : Cache} {log : List LookUp}
    {r : Except ε α} {id : Nat} {text : String} (ran : Caching.Ran x c log r c')
    (settles : ∀ l ∈ log, l.Settles s) (bounded : ∀ n, ¬Direct.Deep s text n → ∀ l ∈ log, l.Below s n)
    (absent : (id, text) ∉ c.books.keys .literals) : (id, text) ∉ c'.books.keys .literals := by
  intro held
  rcases ran.posts.mem_keys held with before | new
  · exact absent before
  obtain ⟨l, mem, built, same⟩ := LookUp.mem_builtKeys.1 new
  obtain ⟨mem, literal⟩ := LookUp.mem_on.1 mem
  have deep (n : Nat) : Direct.Deep s text n := by
    induction n using Nat.strongRecOn with
    | _ n ih =>
      by_contra near
      obtain ⟨i, less, near'⟩ := bounded n near l mem literal
      rw [same] at near'
      exact near' (ih i less)
  obtain ⟨n, near⟩ := (settles l mem).shallow literal built
  rw [same] at near
  exact near (deep n)

/-- The builder of a literal, with its look-ups below every depth that is enough for the literal. -/
theorem Literal.build_records (tracked : nested.Tracks owner env.settings k)
    (h : nested.Records owner env.settings fun n l => l.Below env.settings n) (text : List Char) {c : Cache}
    (sound : c.Sound owner) :
    ∃ log r c', Caching.Ran (Literal.build env nested text) c log r c' ∧
      (∀ l ∈ log, l.Settles env.settings) ∧
      (∀ tree, r = .ok tree → ∃ n, ¬Direct.Deep env.settings (String.ofList text) n) ∧
      ∀ n, ¬Direct.Deep env.settings (String.ofList text) n → ∀ l ∈ log, l.Below env.settings n := by
  rw [Literal.build]
  cases document : Relaxed.parseChars literalMarker env.settings.wrapCalls text with
  | error e =>
    refine ⟨[], _, c, .lift (.error _) c, List.forall_mem_nil _, fun tree made => ?_, fun _ _ => ?_⟩
    · cases made
    · exact List.forall_mem_nil _
  | ok json =>
    have deep_iff (n : Nat) : Direct.Deep env.settings (String.ofList text) n ↔
        Direct.ofJson (Direct.formula env.settings n) json = .error tooDeep := by
      rw [Direct.Deep, Direct.tree?, String.toList_ofList, document, Option.some.injEq]
    have followed := Literal.ofJson_tracks
      (fun text => (tracked env.settings.compile text).mono fun _ _ related => related.1) json
    obtain ⟨log, r, c', ran, settles, bounded⟩ := Literal.ofJson_records
      (fun text => (tracked env.settings.compile text).mono fun _ _ related => related.1)
      (h env.settings.compile) json c sound
    refine ⟨log, _, c', .adapt LiteralFault.formula ran, settles, fun tree made => ?_, fun n near => ?_⟩
    · obtain ⟨n, c₁, -, -, ⟨_, tree', -, same, found⟩ | ⟨e, same, -⟩⟩ := followed.cases sound
      · refine ⟨n, fun deep => ?_⟩
        cases found.symm.trans ((deep_iff n).1 deep)
      · cases ran.run_eq.symm.trans same
        cases made
    · exact bounded n fun deep => near ((deep_iff n).2 deep)

/-- An embedded literal makes the look-ups of the cache's literal, whatever comes of it. -/
theorem embeddedLiteral_ran {source : List Char} {c c' : Cache} {log : List LookUp}
    {r : Except LiteralFault (Serial × Literal)}
    (ran : Caching.Ran (Cache.literal env.id source (Literal.build env nested)) c log r c') :
    ∃ r', Caching.Ran (embeddedLiteral env nested source) c log r' c' := by
  rw [← List.append_nil log]
  match r with
  | .ok (serial, tree) => exact ⟨_, .bind (.outcome ran) (.lift (.ok _) c')⟩
  | .error .notRelaxed => exact ⟨_, .bind (.outcome ran) (.lift (.ok _) c')⟩
  | .error (.formula e) => exact ⟨_, .bind (.outcome ran) (.lift (.error e) c')⟩

theorem Direct.not_deep_of_literal {source : List Char} {n : Nat}
    (enough : Direct.literal s (Direct.formula s n) source ≠ .error tooDeep) :
    ¬Direct.Deep s (String.ofList (Text.trim source)) n := by
  intro deep
  rw [Direct.Deep, String.toList_ofList] at deep
  exact enough (by rw [Direct.literal, deep]; rfl)

theorem embeddedLiteral_records (tracked : nested.Tracks owner env.settings k)
    (h : nested.Records owner env.settings fun n l => l.Below env.settings n) (source : List Char) :
    Records owner env.settings (fun n l => l.Below env.settings (n + 1))
      (fun n => Direct.literal env.settings (Direct.formula env.settings n) source)
      (embeddedLiteral env nested source) := by
  intro c sound
  have itself (answer : Answer) (n : Nat)
      (enough : Direct.literal env.settings (Direct.formula env.settings n) source ≠ .error tooDeep) :
      LookUp.Below env.settings (n + 1)
        ⟨.literals, (env.id, String.ofList (Text.trim source)), answer⟩ :=
    fun _ => ⟨n, Nat.lt_succ_self n, Direct.not_deep_of_literal enough⟩
  rcases look : c.findLiteral (env.id, String.ofList (Text.trim source)) with ⟨_ | found, c₁⟩
  · obtain ⟨missing, after⟩ := Cache.books_of_findLiteral look
    have absent := Books.holds_eq_false_iff.1 missing
    rw [← Books.keys_look, after] at absent
    have sound₁ := sound.findLiteral (env.id, String.ofList (Text.trim source))
    rw [look] at sound₁
    obtain ⟨log, r, c₂, ran, settles, shallow, bounded⟩ :=
      Literal.build_records tracked h (Text.trim source) sound₁
    have apart := Books.holds_eq_false_iff.2 (ran.not_mem_keys settles bounded absent)
    have inner (n : Nat)
        (enough : Direct.literal env.settings (Direct.formula env.settings n) source ≠ .error tooDeep)
        (l : LookUp) (mem : l ∈ log) : l.Below env.settings (n + 1) :=
      (bounded n (Direct.not_deep_of_literal enough) l mem).mono (Nat.le_succ n)
    cases r with
    | ok tree =>
      obtain ⟨r', ran'⟩ := embeddedLiteral_ran (.literalBuilt rfl look ran)
      refine ⟨_, r', _, ran', List.forall_mem_append.2 ⟨settles, List.forall_mem_singleton.2
        ⟨apart, fun _ _ => shallow tree rfl⟩⟩, fun n enough => ?_⟩
      exact List.forall_mem_append.2 ⟨inner n enough, List.forall_mem_singleton.2 (itself _ n enough)⟩
    | error e =>
      obtain ⟨r', ran'⟩ := embeddedLiteral_ran (.literalFailed rfl look ran)
      refine ⟨_, r', _, ran', List.forall_mem_append.2 ⟨settles, List.forall_mem_singleton.2
        ⟨apart, nofun⟩⟩, fun n enough => ?_⟩
      exact List.forall_mem_append.2 ⟨inner n enough, List.forall_mem_singleton.2 (itself _ n enough)⟩
  · have hit : Caching.Ran (Cache.literal env.id source (Literal.build env nested)) _ _ _ _ :=
      .literalHit rfl look
    obtain ⟨r', ran'⟩ := embeddedLiteral_ran hit
    exact ⟨_, r', _, ran', List.forall_mem_singleton.2 ⟨rfl, nofun⟩,
      fun n enough => List.forall_mem_singleton.2 (itself _ n enough)⟩

/-! ## Pieces -/

section Pieces

variable {Q : Nat → LookUp → Prop}

theorem Piece.readArgs_records (tracked : nested.Tracks owner s k) (h : nested.Records owner s Q)
    (function : String) (index : Nat) (texts : List (List Char)) :
    Records owner s Q (fun n => Direct.args (Direct.formula s n) function index texts)
      (Piece.readArgs nested function index texts) := by
  induction texts generalizing index with
  | nil => exact .pure _
  | cons text texts ih =>
    simp only [Piece.readArgs, Direct.args]
    split
    · exact .throw _
    · refine (h false text).bind (tracked false text) (fun _ _ _ => (ih (index + 1)).map) ?_
      exact fun _ _ le => Direct.formula_approximates le text

theorem Piece.readCall_records (tracked : nested.Tracks owner env.settings k)
    (h : nested.Records owner env.settings Q) (function : String) (inner : List Char) :
    Records owner env.settings Q
      (fun n => Direct.call env.settings (Direct.formula env.settings n) function inner)
      (Piece.readCall env nested function inner) := by
  simp only [Piece.readCall, Direct.call]
  cases env.settings.functions.get? function with
  | none => exact .throw _
  | some f =>
    dsimp only
    cases f.arityFault? (if (Text.trim inner).isEmpty then [] else Lexeme.splitArgs inner).length with
    | some reason => exact .throw _
    | none => exact (Piece.readArgs_records tracked h function 1 _).map

theorem Piece.readGroup_records (h : nested.Records owner s Q) (inner : List Char) :
    Records owner s Q (fun n => Direct.group (Direct.formula s n) inner) (Piece.readGroup nested inner) := by
  simp only [Piece.readGroup, Direct.group]
  split
  · exact .throw _
  · exact (h false inner).map

end Pieces

theorem Piece.add_records (tracked : nested.Tracks owner env.settings k)
    (h : nested.Records owner env.settings fun n l => l.Below env.settings n) (ps : List Piece) (l : Lexeme) :
    Records owner env.settings (fun n l => l.Below env.settings (n + 1))
      (fun n => Direct.add env.settings (Direct.formula env.settings n) (ps.map Piece.bare) l)
      (Piece.add env nested ps l) := by
  have inside : nested.Records owner env.settings fun n l => l.Below env.settings (n + 1) :=
    fun planned text => (h planned text).mono fun n _ below => below.mono (Nat.le_succ n)
  cases l with
  | word text => exact (Records.lift (Piece.ofWord env.settings text)).map
  | operator symbol => exact .pure _
  | quoted content => exact .pure _
  | parens inner =>
    match ps with
    | .name function :: ps => exact (Piece.readCall_records tracked inside function inner).map
    | [] => exact (Piece.readGroup_records inside inner).map
    | .operator _ :: _ => exact (Piece.readGroup_records inside inner).map
    | .bracketName _ :: _ => exact (Piece.readGroup_records inside inner).map
    | .operand _ :: _ => exact (Piece.readGroup_records inside inner).map
  | brackets inner =>
    simp only [Piece.add, Direct.add]
    split
    · exact .pure _
    · exact (embeddedLiteral_records tracked h _).map
  | braces inner => exact (embeddedLiteral_records tracked h _).map
  | unmatched delimiter => exact .throw _

theorem Piece.addAll_records (owned : owner env.id = some env.settings)
    (tracked : nested.Tracks owner env.settings k)
    (h : nested.Records owner env.settings fun n l => l.Below env.settings n) {ps qs : List Piece}
    (before : Piece.AllReadAs env.settings ps qs) (ls : List Lexeme) :
    Records owner env.settings (fun n l => l.Below env.settings (n + 1))
      (fun n => Direct.addAll env.settings (Direct.formula env.settings n) qs ls)
      (Piece.addAll env nested ps ls) := by
  induction ls generalizing ps qs with
  | nil => exact .pure _
  | cons l ls ih =>
    obtain ⟨readBy, rfl⟩ := before
    refine (Piece.add_records tracked h ps l).bind (Piece.add_tracks owned tracked ⟨readBy, rfl⟩ l)
      (fun _ _ after => ih after) ?_
    exact fun _ _ le => Direct.add_approximates (Direct.formula_approximates le) _ l

/-! ## Parts and formulas -/

section Parts

variable {Q : Nat → LookUp → Prop} (resolving : ∀ n l, l.table = .resolvers → Q n l)

include resolving

/-- The factory does not look anything up. -/
theorem Cache.resolver_records (id : Nat) (name : String) (factory : ReferenceFactory)
    {direct : Nat → Except FormulaError β} :
    Records owner s Q direct (Cache.resolver id name factory) := by
  intro c sound
  have settled (answer : Answer) (apart : answer.held = false) :
      ∀ l ∈ [(⟨.resolvers, (id, name), answer⟩ : LookUp)], l.Settles s :=
    List.forall_mem_singleton.2 ⟨apart, nofun⟩
  have kept (answer : Answer) (n : Nat) : ∀ l ∈ [(⟨.resolvers, (id, name), answer⟩ : LookUp)], Q n l :=
    List.forall_mem_singleton.2 (resolving n _ rfl)
  rcases look : c.findResolver (id, name) with ⟨_ | found, c₁⟩
  · obtain ⟨missing, after⟩ := Cache.books_of_findResolver look
    have absent := Books.holds_eq_false_iff.1 missing
    rw [← Books.keys_look, after] at absent
    have apart := Books.holds_eq_false_iff.2 absent
    cases made : factory name with
    | ok resolver =>
      exact ⟨_, _, _, .resolverBuilt look made, settled _ apart, fun n _ => kept _ n⟩
    | error e => exact ⟨_, _, _, .resolverFailed look made, settled _ apart, fun n _ => kept _ n⟩
  · exact ⟨_, _, _, .resolverHit look, settled _ rfl, fun n _ => kept _ n⟩

theorem Piece.readReference_records (name : String) :
    Records owner s Q (fun _ => Direct.reference env.settings name) (Piece.readReference env name) := by
  simp only [Piece.readReference, Direct.reference]
  split
  · exact .throw _
  · cases env.settings.reference with
    | none => exact .pure _
    | some factory =>
      have made : Records owner s Q (fun _ => factory name) (Cache.resolver env.id name factory) :=
        Cache.resolver_records resolving env.id name factory
      exact made.map

theorem Piece.arrange_records (owned : owner env.id = some env.settings) (first operandExpected : Bool)
    (ps : List Piece) :
    Records owner s Q (fun _ => Direct.arrange env.settings first operandExpected (ps.map Piece.bare))
      (Piece.arrange env first operandExpected ps) := by
  induction ps generalizing first operandExpected with
  | nil =>
    simp only [Piece.arrange, List.map_nil, Direct.arrange]
    split
    · exact .throw _
    · split
      · exact .throw _
      · exact .pure _
  | cons p ps ih =>
    have named (text : String) : Records owner s Q
        (fun _ => Direct.arrange env.settings first operandExpected (.name text :: ps.map Piece.bare))
        (Piece.arrange env first operandExpected (.name text :: ps)) := by
      simp only [Piece.arrange, Direct.arrange]
      have tracked := Piece.readReference_tracks (k := 0) owned text
      refine (Piece.readReference_records resolving text).bind tracked (fun r q same => ?_) (.const _)
      cases operandExpected with
      | false => exact .throw _
      | true => exact (ih false false).map
    cases p with
    | operator symbol =>
      have tracked : Tracks owner _ _ 0 _ :=
        .lift (Piece.operatorPart_matches env.settings operandExpected symbol)
      exact (Records.lift _).bind tracked (fun _ _ _ => (ih false true).map) (.const _)
    | name text => exact named text
    | bracketName text => exact named text
    | operand a =>
      simp only [Piece.arrange, List.map_cons, Piece.bare, Direct.arrange]
      cases operandExpected with
      | false => exact .throw _
      | true => exact (ih false false).map

end Parts

/-- A text read with a sound cache looks up literals that nest less deep than the text. -/
theorem readFormula_records (env : ReadingEnv) (owned : owner env.id = some env.settings) (levels : Nat) :
    NestedReader.Records owner env.settings (fun n l => l.Below env.settings n) (readFormula env levels) := by
  induction levels with
  | zero => exact fun _ _ => .throw _
  | succ levels ih =>
    intro planned text
    have tracked := readFormula_tracks env owned levels
    refine .deeper ?_ rfl
    simp only [readFormula, Direct.formula]
    refine (Piece.addAll_records owned tracked ih ⟨List.forall_mem_nil _, rfl⟩ (lexemes text)).bind
      (Piece.addAll_tracks owned tracked ⟨List.forall_mem_nil _, rfl⟩ (lexemes text)) (fun ps qs pieces => ?_) ?_
    · obtain ⟨readBy, rfl⟩ := pieces
      have resolving (n : Nat) (l : LookUp) (here : l.table = .resolvers) :
          l.Below env.settings (n + 1) := by
        intro literal
        cases here.symm.trans literal
      exact (Piece.arrange_records resolving owned true true ps).map
    · exact fun _ _ le => Direct.addAll_approximates (Direct.formula_approximates le) _ _

/-- The look-ups of a reading, none of which leaves an entry under its key while it builds. -/
theorem ReadingEnv.exists_ran (env : ReadingEnv) (owned : owner env.id = some env.settings) {c : Cache}
    (sound : c.Sound owner) (text : String) :
    ∃ log r c', Caching.Ran (env.read text) c log r c' ∧ ∀ l ∈ log, l.answer.held = false :=
  let ⟨log, r, c', ran, settles, _⟩ :=
    readFormula_records env owned (maxNesting + 1) true text.toList c sound
  ⟨log, r, c', ran, fun l mem => (settles l mem).apart⟩

end ExactFormula
