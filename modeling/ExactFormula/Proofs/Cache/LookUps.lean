import ExactFormula.Proofs.Cache.Books
import ExactFormula.Proofs.Reading.Running
import Mathlib.Data.List.Dedup

/-!
The look-ups that a computation makes in a cache, and the accounts that they settle: hits, misses, builds,
what is stored and what has to go. The look-ups of a builder come before the one that it builds for.
-/

namespace ExactFormula

/-- What a look-up comes to. The builder runs unless it is a hit; `held` tells whether the table has an
entry under the key when the builder is done, and `evicted` whether another one goes for what was built. -/
inductive Answer
  | hit
  | built (held evicted : Bool)
  | failed (held : Bool)
  deriving DecidableEq

structure LookUp where
  table : Table
  key : CacheKey
  answer : Answer
  deriving DecidableEq

namespace Answer

def isHit : Answer → Bool
  | .hit => true
  | .built .. | .failed _ => false

def isBuilt : Answer → Bool
  | .built .. => true
  | .hit | .failed _ => false

def held : Answer → Bool
  | .built held _ | .failed held => held
  | .hit => false

def evicted : Answer → Bool
  | .built _ evicted => evicted
  | .hit | .failed _ => false

@[simp] theorem isBuilt_built (held evicted : Bool) : (built held evicted).isBuilt = true := rfl

@[simp] theorem evicted_built (held evicted : Bool) : (built held evicted).evicted = evicted := rfl

end Answer

namespace LookUp

/-- The look-ups in a table. -/
def on (t : Table) (log : List LookUp) : List LookUp := log.filter (·.table = t)

/-- The keys of the builds that did not fail, one for each build. -/
def builtKeys (log : List LookUp) : List CacheKey := (log.filter (·.answer.isBuilt)).map (·.key)

variable {t : Table} {l : LookUp} {log log' : List LookUp}

@[simp] theorem mem_on : l ∈ on t log ↔ l ∈ log ∧ l.table = t := by simp [on]

@[simp] theorem on_append : on t (log ++ log') = on t log ++ on t log' := List.filter_append ..

theorem on_singleton (t : Table) (l : LookUp) : on t [l] = if l.table = t then [l] else [] := by
  simp [on, List.filter_cons]

theorem countP_on_singleton (p : LookUp → Bool) (t : Table) (l : LookUp) :
    (on t [l]).countP p = if l.table = t then (p l).toNat else 0 := by
  rw [on_singleton]
  split
  · cases here : p l <;> simp [here]
  · rfl

@[simp] theorem builtKeys_append : builtKeys (log ++ log') = builtKeys log ++ builtKeys log' := by
  simp [builtKeys]

theorem builtKeys_on_singleton (t : Table) (l : LookUp) :
    builtKeys (on t [l]) = if l.table = t then if l.answer.isBuilt then [l.key] else [] else [] := by
  rw [on_singleton]
  split
  · cases built : l.answer.isBuilt <;> simp [builtKeys, built]
  · rfl

theorem mem_builtKeys {key : CacheKey} :
    key ∈ builtKeys log ↔ ∃ l ∈ log, l.answer.isBuilt ∧ l.key = key := by
  simp [builtKeys, and_assoc]

theorem length_builtKeys (log : List LookUp) :
    (builtKeys log).length = log.countP (·.answer.isBuilt) := by
  rw [builtKeys, List.length_map, List.countP_eq_length_filter]

end LookUp

/-! ## Accounts -/

/-- Look-ups as entries in the books of a cache. -/
inductive Books.Posts : Books → List LookUp → Books → Prop
  | none (b : Books) : Posts b [] b
  | append {b b₁ b₂ : Books} {log log' : List LookUp} (first : Posts b log b₁) (second : Posts b₁ log' b₂) :
      Posts b (log ++ log') b₂
  | hit {b : Books} {t : Table} {key : CacheKey} (found : b.holds t key = true) :
      Posts b [⟨t, key, .hit⟩] (b.look t key)
  | built {b b₁ : Books} {t : Table} {key : CacheKey} {log : List LookUp}
      (builder : Posts (b.look t key) log b₁) (missing : b.holds t key = false) :
      Posts b (log ++ [⟨t, key, .built (b₁.holds t key) (b₁.store t key).1⟩]) (b₁.store t key).2
  | failed {b b₁ : Books} {t : Table} {key : CacheKey} {log : List LookUp}
      (builder : Posts (b.look t key) log b₁) (missing : b.holds t key = false) :
      Posts b (log ++ [⟨t, key, .failed (b₁.holds t key)⟩]) b₁

namespace Books.Posts

open LookUp

variable {b b' : Books} {log : List LookUp}

theorem tidy (h : b.Posts log b') (before : b.Tidy) : b'.Tidy := by
  induction h with
  | none b => exact before
  | append first second ih ih' => exact ih' (ih before)
  | hit found => exact before.look ..
  | built builder missing ih => exact (ih (before.look ..)).store ..
  | failed builder missing ih => exact ih (before.look ..)

theorem capacity_eq (h : b.Posts log b') (t : Table) : (b'.table t).capacity = (b.table t).capacity := by
  induction h with
  | none b => rfl
  | append first second ih ih' => exact ih'.trans ih
  | hit found => exact capacity_look
  | built builder missing ih => exact capacity_store.trans (ih.trans capacity_look)
  | failed builder missing ih => exact ih.trans capacity_look

theorem hits_eq (h : b.Posts log b') (t : Table) :
    b'.hits t = b.hits t + (on t log).countP (·.answer.isHit) := by
  induction h with
  | none b => rfl
  | append first second ih ih' => rw [ih', ih, on_append, List.countP_append, Nat.add_assoc]
  | hit found => simp [hits_look, found, countP_on_singleton, Answer.isHit]
  | built builder missing ih =>
    rw [hits_store, ih, hits_look, missing, on_append, List.countP_append, countP_on_singleton]
    simp [Answer.isHit]
  | failed builder missing ih =>
    rw [ih, hits_look, missing, on_append, List.countP_append, countP_on_singleton]
    simp [Answer.isHit]

theorem misses_eq (h : b.Posts log b') (t : Table) :
    b'.misses t = b.misses t + (on t log).countP (!·.answer.isHit) := by
  induction h with
  | none b => rfl
  | append first second ih ih' => rw [ih', ih, on_append, List.countP_append, Nat.add_assoc]
  | hit found => simp [misses_look, found, countP_on_singleton, Answer.isHit]
  | built builder missing ih =>
    rw [misses_store, ih, misses_look, missing, on_append, List.countP_append, countP_on_singleton]
    simp only [Answer.isHit]
    omega
  | failed builder missing ih =>
    rw [ih, misses_look, missing, on_append, List.countP_append, countP_on_singleton]
    simp only [Answer.isHit]
    omega

theorem evictions_eq (h : b.Posts log b') :
    b'.evictions = b.evictions + log.countP (·.answer.evicted) := by
  induction h with
  | none b => rfl
  | append first second ih ih' => rw [ih', ih, List.countP_append, Nat.add_assoc]
  | hit found => rfl
  | @built b b₁ t key log builder missing ih =>
    rw [evictions_store, ih, List.countP_append, Nat.add_assoc]
    cases evicted : (b₁.store t key).1 <;> simp [evictions_look]
  | failed builder missing ih =>
    rw [ih, List.countP_append]
    rfl

theorem mem_keys (h : b.Posts log b') {t : Table} {key : CacheKey} (mem : key ∈ b'.keys t) :
    key ∈ b.keys t ∨ key ∈ builtKeys (on t log) := by
  induction h with
  | none b => exact .inl mem
  | append first second ih ih' =>
    rw [on_append, builtKeys_append, List.mem_append]
    rcases ih' mem with before | new
    · exact (ih before).imp_right .inl
    · exact .inr (.inr new)
  | hit found => exact .inl (keys_look ▸ mem)
  | built builder missing ih =>
    rw [on_append, builtKeys_append, List.mem_append]
    rcases mem_keys_of_mem_store mem with ⟨rfl, rfl⟩ | before
    · exact .inr (.inr (by simp [builtKeys_on_singleton, Answer.isBuilt]))
    · exact (keys_look ▸ ih before).imp_right .inl
  | failed builder missing ih =>
    rw [on_append, builtKeys_append, List.mem_append]
    exact (keys_look ▸ ih mem).imp_right .inl

theorem forall_mem_keys (h : b.Posts log b') {t : Table} {P : CacheKey → Prop} (old : ∀ key ∈ b.keys t, P key)
    (looked : ∀ l ∈ on t log, P l.key) : ∀ key ∈ b'.keys t, P key := by
  intro key mem
  rcases h.mem_keys mem with before | new
  · exact old key before
  · obtain ⟨l, held, -, rfl⟩ := mem_builtKeys.1 new
    exact looked l held

/-- What was built lies in the table, or something went for it. -/
theorem length_keys_eq (h : b.Posts log b') (before : b.Tidy) (apart : ∀ l ∈ log, l.answer.held = false)
    (t : Table) : (b'.keys t).length + (on t log).countP (·.answer.evicted) =
      (b.keys t).length + (on t log).countP (·.answer.isBuilt) := by
  induction h with
  | none b => rfl
  | append first second ih ih' =>
    rw [List.forall_mem_append] at apart
    have one := ih before apart.1
    have two := ih' (first.tidy before) apart.2
    rw [on_append, List.countP_append, List.countP_append]
    omega
  | hit found => simp [countP_on_singleton, Answer.evicted, Answer.isBuilt]
  | @built b b₁ u key log builder missing ih =>
    rw [List.forall_mem_append] at apart
    have inner := ih (before.look ..) apart.1
    have new := holds_eq_false_iff.1 (apart.2 _ List.mem_cons_self)
    rw [keys_look] at inner
    rw [on_append, List.countP_append, List.countP_append, countP_on_singleton, countP_on_singleton]
    by_cases here : u = t
    · subst here
      have stored := (builder.tidy (before.look ..)).length_keys_store new
      simp only [if_true, Answer.evicted_built, Answer.isBuilt_built, Bool.toNat_true]
      omega
    · simp only [keys_store_of_ne (Ne.symm here), here, if_false]
      omega
  | failed builder missing ih =>
    rw [List.forall_mem_append] at apart
    have inner := ih (before.look ..) apart.1
    rw [keys_look] at inner
    simpa [countP_on_singleton, Answer.evicted, Answer.isBuilt] using inner

/-- As long as all keys together find room, nothing goes. -/
theorem keys_perm_of_few (h : b.Posts log b') (before : b.Tidy) (apart : ∀ l ∈ log, l.answer.held = false)
    {t : Table} {few : List CacheKey} (room : few.length ≤ (b.table t).capacity)
    (old : ∀ key ∈ b.keys t, key ∈ few) (looked : ∀ l ∈ on t log, l.key ∈ few) :
    (∀ l ∈ on t log, l.answer.evicted = false) ∧ (b'.keys t).Perm (builtKeys (on t log) ++ b.keys t) := by
  induction h with
  | none b => exact ⟨List.forall_mem_nil _, .refl _⟩
  | append first second ih ih' =>
    rw [List.forall_mem_append] at apart
    rw [on_append, List.forall_mem_append] at looked
    obtain ⟨kept, keys⟩ := ih before apart.1 room old looked.1
    obtain ⟨kept', keys'⟩ := ih' (first.tidy before) apart.2 (first.capacity_eq t ▸ room)
      (first.forall_mem_keys old looked.1) looked.2
    rw [on_append, List.forall_mem_append, builtKeys_append]
    refine ⟨⟨kept, kept'⟩, keys'.trans ((keys.append_left _).trans ?_)⟩
    rw [← List.append_assoc]
    exact List.perm_append_comm.append_right _
  | @hit b u key found =>
    rw [on_singleton, keys_look]
    split
    · exact ⟨List.forall_mem_singleton.2 rfl, .refl _⟩
    · exact ⟨List.forall_mem_nil _, .refl _⟩
  | @built b b₁ u key log builder missing ih =>
    rw [List.forall_mem_append] at apart
    rw [on_append, List.forall_mem_append] at looked
    obtain ⟨kept, keys⟩ := ih (before.look u key) apart.1 (by simpa using room) (by simpa using old) looked.1
    rw [keys_look] at keys
    have new := holds_eq_false_iff.1 (apart.2 _ List.mem_cons_self)
    rw [on_append, List.forall_mem_append, builtKeys_append, builtKeys_on_singleton, on_singleton]
    by_cases here : u = t
    · subst here
      -- What the builder left and the new key are distinct and among the few, so there is room.
      have inside : key :: b₁.keys u ⊆ few := List.cons_subset.2
        ⟨looked.2 _ (mem_on.2 ⟨List.mem_cons_self, rfl⟩),
          builder.forall_mem_keys (by simpa using old) looked.1⟩
      have same := builder.capacity_eq u
      rw [capacity_look] at same
      obtain ⟨stays, stored⟩ :=
        (builder.tidy (before.look u key)).store_of_few new (same ▸ room) inside
      rw [stored, stays]
      simp only [if_true, Answer.isBuilt_built]
      refine ⟨⟨kept, List.forall_mem_singleton.2 rfl⟩, ?_⟩
      rw [List.append_assoc, List.singleton_append]
      exact (keys.cons key).trans List.perm_middle.symm
    · rw [keys_store_of_ne (Ne.symm here), if_neg here, if_neg here, List.append_nil]
      exact ⟨⟨kept, List.forall_mem_nil _⟩, keys⟩
  | @failed b b₁ u key log builder missing ih =>
    rw [List.forall_mem_append] at apart
    rw [on_append, List.forall_mem_append] at looked
    obtain ⟨kept, keys⟩ := ih (before.look u key) apart.1 (by simpa using room) (by simpa using old) looked.1
    rw [keys_look] at keys
    rw [on_append, List.forall_mem_append, builtKeys_append, on_singleton]
    split
    · exact ⟨⟨kept, List.forall_mem_singleton.2 rfl⟩, (List.append_nil _).symm ▸ keys⟩
    · exact ⟨⟨kept, List.forall_mem_nil _⟩, (List.append_nil _).symm ▸ keys⟩

end Books.Posts

/-! ## Runs -/

/-- A computation with the look-ups that it makes, in the order in which they end, and what it leaves. -/
inductive Caching.Ran : {ε α : Type} → Caching ε α → Cache → List LookUp → Except ε α → Cache → Prop
  | lift {ε α : Type} (r : Except ε α) (c : Cache) : Ran (liftM r : Caching ε α) c [] r c
  | bind {ε α β : Type} {x : Caching ε α} {f : α → Caching ε β} {c c₁ c₂ : Cache} {log log' : List LookUp}
      {a : α} {r : Except ε β} (first : Ran x c log (.ok a) c₁) (second : Ran (f a) c₁ log' r c₂) :
      Ran (x >>= f) c (log ++ log') r c₂
  | bindError {ε α β : Type} {x : Caching ε α} (f : α → Caching ε β) {c c₁ : Cache} {log : List LookUp}
      {e : ε} (first : Ran x c log (.error e) c₁) : Ran (x >>= f) c log (.error e) c₁
  | outcome {ε δ α : Type} {x : Caching ε α} {c c₁ : Cache} {log : List LookUp} {r : Except ε α}
      (inner : Ran x c log r c₁) : Ran (Caching.outcome x : Caching δ (Except ε α)) c log (.ok r) c₁
  | adapt {ε δ α : Type} (f : ε → δ) {x : Caching ε α} {c c₁ : Cache} {log : List LookUp} {r : Except ε α}
      (inner : Ran x c log r c₁) : Ran (ExceptT.adapt f x : Caching δ α) c log (r.mapError f) c₁
  | literalHit {ε : Type} {id : Nat} {source : List Char} {build : List Char → Caching ε Literal}
      {key : CacheKey} (named : key = (id, String.ofList (Text.trim source))) {c c₁ : Cache}
      {found : Serial × Literal} (look : c.findLiteral key = (some found, c₁)) :
      Ran (Cache.literal id source build) c [⟨.literals, key, .hit⟩] (.ok found) c₁
  | literalBuilt {ε : Type} {id : Nat} {source : List Char} {build : List Char → Caching ε Literal}
      {key : CacheKey} (named : key = (id, String.ofList (Text.trim source))) {c c₁ c₂ : Cache}
      (look : c.findLiteral key = (none, c₁)) {log : List LookUp} {tree : Literal}
      (builder : Ran (build (Text.trim source)) c₁ log (.ok tree) c₂) :
      Ran (Cache.literal id source build) c
        (log ++ [⟨.literals, key, .built (c₂.books.holds .literals key) (c₂.books.store .literals key).1⟩])
        (.ok (c₂.storeLiteral key tree).1) (c₂.storeLiteral key tree).2
  | literalFailed {ε : Type} {id : Nat} {source : List Char} {build : List Char → Caching ε Literal}
      {key : CacheKey} (named : key = (id, String.ofList (Text.trim source))) {c c₁ c₂ : Cache}
      (look : c.findLiteral key = (none, c₁)) {log : List LookUp} {e : ε}
      (builder : Ran (build (Text.trim source)) c₁ log (.error e) c₂) :
      Ran (Cache.literal id source build) c
        (log ++ [⟨.literals, key, .failed (c₂.books.holds .literals key)⟩]) (.error e) c₂
  | resolverHit {ε : Type} {id : Nat} {name : String} {build : String → Except ε Resolver} {c c₁ : Cache}
      {found : Resolver} (look : c.findResolver (id, name) = (some found, c₁)) :
      Ran (Cache.resolver id name build) c [⟨.resolvers, (id, name), .hit⟩] (.ok found) c₁
  | resolverBuilt {ε : Type} {id : Nat} {name : String} {build : String → Except ε Resolver} {c c₁ : Cache}
      (look : c.findResolver (id, name) = (none, c₁)) {resolver : Resolver}
      (builder : build name = .ok resolver) :
      Ran (Cache.resolver id name build) c
        [⟨.resolvers, (id, name),
          .built (c₁.books.holds .resolvers (id, name)) (c₁.books.store .resolvers (id, name)).1⟩]
        (.ok resolver) (c₁.storeResolver (id, name) resolver).2
  | resolverFailed {ε : Type} {id : Nat} {name : String} {build : String → Except ε Resolver}
      {c c₁ : Cache} (look : c.findResolver (id, name) = (none, c₁)) {e : ε}
      (builder : build name = .error e) :
      Ran (Cache.resolver id name build) c
        [⟨.resolvers, (id, name), .failed (c₁.books.holds .resolvers (id, name))⟩] (.error e) c₁

namespace Caching.Ran

variable {ε α : Type} {x : Caching ε α} {c c' : Cache} {log : List LookUp} {r : Except ε α}

theorem run_eq (h : Ran x c log r c') : x.run c = (r, c') := by
  induction h with
  | lift r c => rfl
  | bind first second ih ih' =>
    rw [run_bind, ih]
    exact ih'
  | bindError f first ih => rw [run_bind, ih]
  | outcome inner ih => rw [run_outcome, ih]
  | adapt f inner ih => rw [run_adapt, ih]
  | literalHit named look => rw [Cache.run_literal, ← named, look]
  | literalBuilt named look builder ih =>
    rw [Cache.run_literal, ← named, look]
    dsimp only
    rw [ih]
  | literalFailed named look builder ih =>
    rw [Cache.run_literal, ← named, look]
    dsimp only
    rw [ih]
  | resolverHit look => rw [Cache.run_resolver, look]
  | resolverBuilt look builder => rw [Cache.run_resolver, look, builder]
  | resolverFailed look builder => rw [Cache.run_resolver, look, builder]

theorem posts (h : Ran x c log r c') : c.books.Posts log c'.books := by
  induction h with
  | lift r c => exact .none _
  | bind first second ih ih' => exact ih.append ih'
  | bindError f first ih => exact ih
  | outcome inner ih => exact ih
  | adapt f inner ih => exact ih
  | literalHit named look =>
    obtain ⟨found, after⟩ := Cache.books_of_findLiteral look
    exact after ▸ .hit found
  | literalBuilt named look builder ih =>
    obtain ⟨missing, after⟩ := Cache.books_of_findLiteral look
    rw [← Cache.books_storeLiteral]
    exact .built (after ▸ ih) missing
  | literalFailed named look builder ih =>
    obtain ⟨missing, after⟩ := Cache.books_of_findLiteral look
    exact .failed (after ▸ ih) missing
  | resolverHit look =>
    obtain ⟨found, after⟩ := Cache.books_of_findResolver look
    exact after ▸ .hit found
  | @resolverBuilt _ id name _ c c₁ look _ _ =>
    obtain ⟨missing, after⟩ := Cache.books_of_findResolver look
    have idle : (c.books.look .resolvers (id, name)).Posts [] c₁.books := after ▸ .none _
    have posted := idle.built missing
    rw [← Cache.books_storeResolver]
    exact posted
  | @resolverFailed _ id name _ c c₁ look _ _ =>
    obtain ⟨missing, after⟩ := Cache.books_of_findResolver look
    have idle : (c.books.look .resolvers (id, name)).Posts [] c₁.books := after ▸ .none _
    exact idle.failed missing

end Caching.Ran

end ExactFormula
