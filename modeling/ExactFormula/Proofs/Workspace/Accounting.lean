import ExactFormula.Proofs.Reading.Recording
import ExactFormula.Proofs.Workspace.History

/-!
What a cache has to show for the readings of a history since it was made: every look-up is a hit or runs its
builder, and what was built without failing is stored, or something else went for it.
-/

namespace ExactFormula

/-- The accounts of a cache of some capacity that was empty before the look-ups. A look-up is a hit, or a
miss that runs its builder, and no builder leaves an entry under its key, so a failed one stores nothing there.
What was built without failing is stored, or some entry went. A table that was asked for no more keys than the
capacity gives up none of them, and builds none of them twice. -/
structure Cache.Accounts (capacity : Nat) (c : Cache) (log : List LookUp) : Prop where
  hits_eq : ∀ t, c.books.hits t = (LookUp.on t log).countP (·.answer.isHit)
  misses_eq : ∀ t, c.books.misses t = (LookUp.on t log).countP (!·.answer.isHit)
  lookUps_eq : ∀ t, (LookUp.on t log).length = c.books.hits t + c.books.misses t
  apart : ∀ l ∈ log, l.answer.held = false
  evictions_eq : c.stats.evictions = log.countP (·.answer.evicted)
  builds_eq : (LookUp.builtKeys (LookUp.on .literals log)).length +
    (LookUp.builtKeys (LookUp.on .resolvers log)).length =
      c.literals.size + c.resolvers.size + c.stats.evictions
  calm : ∀ t, ((LookUp.on t log).map (·.key)).dedup.length ≤ capacity →
    (∀ l ∈ LookUp.on t log, l.answer.evicted = false) ∧ (LookUp.builtKeys (LookUp.on t log)).Nodup

theorem LookUp.countP_on_add (p : LookUp → Bool) (log : List LookUp) :
    (on .literals log).countP p + (on .resolvers log).countP p = log.countP p := by
  have others : on .resolvers log = log.filter fun l => !decide (l.table = .literals) := by
    refine List.filter_congr fun l _ => ?_
    cases l.table <;> rfl
  rw [others, on, ← List.countP_eq_countP_filter_add]

namespace Cache

theorem length_keys_books (c : Cache) : (c.books.keys .literals).length = c.literals.size ∧
    (c.books.keys .resolvers).length = c.resolvers.size := by
  simp [Books.keys, books, Recency.map, Recency.size]

variable (label capacity : Nat) (t : Table)

@[simp] theorem hits_books_empty : (empty label capacity).books.hits t = 0 := by cases t <;> rfl

@[simp] theorem misses_books_empty : (empty label capacity).books.misses t = 0 := by cases t <;> rfl

@[simp] theorem keys_books_empty : (empty label capacity).books.keys t = [] := by cases t <;> rfl

@[simp] theorem capacity_books_empty : ((empty label capacity).books.table t).capacity = capacity := by
  cases t <;> rfl

theorem accounts_of_posts {label capacity : Nat} {c : Cache} {log : List LookUp} (room : 1 ≤ capacity)
    (posted : (empty label capacity).books.Posts log c.books) (apart : ∀ l ∈ log, l.answer.held = false) :
    c.Accounts capacity log := by
  have tidy := tidy_books_empty label room
  have hits (t : Table) := posted.hits_eq t
  have misses (t : Table) := posted.misses_eq t
  have lengths (t : Table) := posted.length_keys_eq tidy apart t
  have evictions : c.stats.evictions = log.countP (·.answer.evicted) :=
    posted.evictions_eq.trans (Nat.zero_add _)
  simp only [hits_books_empty, misses_books_empty, keys_books_empty, Nat.zero_add, List.length_nil]
    at hits misses lengths
  exact {
    hits_eq := hits
    misses_eq := misses
    lookUps_eq t := by
      rw [hits, misses, List.length_eq_countP_add_countP (·.answer.isHit)]
      simp
    apart := apart
    evictions_eq := evictions
    builds_eq := by
      have stored := lengths .literals
      have stored' := lengths .resolvers
      rw [c.length_keys_books.1] at stored
      rw [c.length_keys_books.2] at stored'
      have both := LookUp.countP_on_add (·.answer.evicted) log
      rw [LookUp.length_builtKeys, LookUp.length_builtKeys, evictions]
      omega
    calm t few := by
      obtain ⟨calm, keys⟩ := posted.keys_perm_of_few tidy apart
        (few.trans (Nat.le_of_eq (capacity_books_empty label capacity t).symm)) (by simp)
        fun l mem => List.mem_dedup.2 (List.mem_map_of_mem mem)
      rw [keys_books_empty, List.append_nil] at keys
      exact ⟨calm, keys.nodup_iff.1 ((posted.tidy tidy).nodup_keys t)⟩ }

end Cache

namespace Session

/-- The engine and the text, where an action is a reading on the cache at a place. -/
def reading? (s : Session) (i : Nat) : Action → Option (Engine × String)
  | .read engine text =>
    match s.engines[engine]? with
    | some e => if e.cache = i then some (e, text) else none
    | none => none
  | .addCache _ | .addEngine .. | .clearCache _ => none

/-- A history with the look-ups that its readings make in the cache at a place. -/
inductive Recorded (i : Nat) : Session → List Action → List LookUp → Prop
  | done (s : Session) : Recorded i s [] []
  | reading {s : Session} {a : Action} {e : Engine} {text : String} {c : Cache}
      {r : Except FormulaError Formula} {log log' : List LookUp} {rest : List Action}
      (here : s.reading? i a = some (e, text))
      (ran : Caching.Ran (ReadingEnv.read ⟨e.settings, e.id⟩ text) (s.workspace.cacheAt i) log r c)
      (later : Recorded i (s.step a) rest log') : Recorded i s (a :: rest) (log ++ log')
  | elsewhere {s : Session} {a : Action} {log : List LookUp} {rest : List Action}
      (other : s.reading? i a = none) (later : Recorded i (s.step a) rest log) : Recorded i s (a :: rest) log

variable {s : Session} {i : Nat}

/-- One action makes the look-ups of a reading in the cache, or leaves it as it is. -/
theorem step_recorded (sound : s.Sound) (here : i < s.workspace.caches.length) {a : Action}
    (kept : a ≠ .clearCache i) : i < (s.step a).workspace.caches.length ∧
      (s.reading? i a = none ∧ (s.step a).workspace.cacheAt i = s.workspace.cacheAt i ∨
        ∃ e text log r, s.reading? i a = some (e, text) ∧ (∀ l ∈ log, l.answer.held = false) ∧
          Caching.Ran (ReadingEnv.read ⟨e.settings, e.id⟩ text) (s.workspace.cacheAt i) log r
            ((s.step a).workspace.cacheAt i)) := by
  cases a with
  | addCache capacity =>
    refine ⟨?_, .inl ⟨rfl, s.workspace.cacheAt_addCache here capacity⟩⟩
    simp only [step, Workspace.addCache, List.length_append]
    omega
  | addEngine settings cache =>
    simp only [step, Workspace.addEngine]
    cases settings.invalidConstant? with
    | some name => exact ⟨here, .inl ⟨rfl, rfl⟩⟩
    | none => exact ⟨here, .inl ⟨rfl, rfl⟩⟩
  | read engine text =>
    simp only [step, reading?]
    cases found : s.engines[engine]? with
    | none => exact ⟨here, .inl ⟨rfl, rfl⟩⟩
    | some e =>
      dsimp only
      obtain ⟨log, r, c, ran, apart⟩ := ReadingEnv.exists_ran ⟨e.settings, e.id⟩
        (sound.owner_eq (List.mem_of_getElem? found)) (sound.cacheAt e.cache) text
      have after : (s.workspace.read e text).2 =
          { s.workspace with caches := s.workspace.caches.set e.cache c } := by
        rw [Workspace.read, Workspace.onCache, ran.run_eq]
      rw [after, Workspace.cacheAt_set]
      refine ⟨by simpa using here, ?_⟩
      by_cases same : e.cache = i
      · subst same
        rw [if_pos rfl, if_pos ⟨rfl, here⟩]
        exact .inr ⟨e, text, log, r, rfl, apart, ran⟩
      · rw [if_neg same, if_neg fun h => same h.1]
        exact .inl ⟨rfl, rfl⟩
  | clearCache j =>
    have other : j ≠ i := fun same => kept (same ▸ rfl)
    simp only [step, Workspace.clearCache]
    rw [Workspace.cacheAt_set, if_neg fun h => other h.1]
    exact ⟨by simpa using here, .inl ⟨rfl, rfl⟩⟩

theorem exists_recorded (sound : s.Sound) (here : i < s.workspace.caches.length) {rest : List Action}
    (kept : .clearCache i ∉ rest) :
    ∃ log, Recorded i s rest log ∧ (∀ l ∈ log, l.answer.held = false) ∧
      (s.workspace.cacheAt i).books.Posts log ((s.run rest).workspace.cacheAt i).books := by
  induction rest generalizing s with
  | nil => exact ⟨[], .done s, List.forall_mem_nil _, .none _⟩
  | cons a rest ih =>
    obtain ⟨first, others⟩ := not_or.1 (List.mem_cons.not.1 kept)
    obtain ⟨here', step⟩ := step_recorded sound here (Ne.symm first)
    obtain ⟨log', recorded, apart', posted⟩ := ih (sound.step a) here' others
    rcases step with ⟨other, same⟩ | ⟨e, text, log, r, reading, apart, ran⟩
    · rw [same] at posted
      exact ⟨log', .elsewhere other recorded, apart', posted⟩
    · exact ⟨log ++ log', .reading reading ran recorded, List.forall_mem_append.2 ⟨apart, apart'⟩,
        ran.posts.append posted⟩

/-- A cache with room for something that is made after some history and never cleared keeps its accounts,
whatever engines read on it after that. -/
theorem accounts_of_fresh_cache (before : List Action) {capacity : Nat} (room : 1 ≤ capacity)
    {rest : List Action} (kept : .clearCache (after before).workspace.caches.length ∉ rest) :
    ∃ log, Recorded (after before).workspace.caches.length (after (before ++ [.addCache capacity])) rest log ∧
      Cache.Accounts capacity
        ((after (before ++ .addCache capacity :: rest)).workspace.cacheAt
          (after before).workspace.caches.length) log := by
  have sound := after_sound (before ++ [.addCache capacity])
  have run : after (before ++ [.addCache capacity]) = (after before).step (.addCache capacity) := by
    rw [after, Session.run, List.foldl_append]
    rfl
  have here : (after before).workspace.caches.length <
      (after (before ++ [.addCache capacity])).workspace.caches.length := by
    rw [run]
    simp [step, Workspace.addCache]
  have fresh : (after (before ++ [.addCache capacity])).workspace.cacheAt
      (after before).workspace.caches.length =
        .empty (after before).workspace.caches.length capacity := by
    rw [run, Workspace.cacheAt]
    simp [step, Workspace.addCache]
  obtain ⟨log, recorded, apart, posted⟩ := exists_recorded sound here kept
  have ends : (after (before ++ [.addCache capacity])).run rest =
      after (before ++ .addCache capacity :: rest) := by
    rw [after, after, Session.run, Session.run, Session.run, ← List.foldl_append, List.append_assoc]
    rfl
  rw [fresh, ends] at posted
  exact ⟨log, recorded, Cache.accounts_of_posts room posted apart⟩

/-- Two literals inside a third one, one of them twice, and a text that is no literal. -/
def crowdedHistory : List Action :=
  [.addEngine {} 0, .read 0 "[max([1], [1], [2])]", .read 0 "\x7bx\x7d"]

/-- With room for one entry, what is built inside the third literal goes while that one is built. -/
theorem accounts_of_fresh_cache_crowded : 1 ≤ 1 ∧ .clearCache 0 ∉ crowdedHistory ∧
    ((after (.addCache 1 :: crowdedHistory)).workspace.cacheAt 0).stats = ⟨1, 4, 0, 0, 2⟩ ∧
    ∃ log, Recorded 0 (after [.addCache 1]) crowdedHistory log ∧
      Cache.Accounts 1 ((after (.addCache 1 :: crowdedHistory)).workspace.cacheAt 0) log ∧
      (LookUp.on .literals log).length = 5 ∧ log.countP (·.answer.evicted) = 2 := by
  have kept : .clearCache 0 ∉ crowdedHistory := by simp [crowdedHistory]
  have stats : ((after (.addCache 1 :: crowdedHistory)).workspace.cacheAt 0).stats = ⟨1, 4, 0, 0, 2⟩ := by
    decide +kernel
  obtain ⟨log, recorded, accounts⟩ := accounts_of_fresh_cache [] (Nat.le_refl 1) kept
  refine ⟨Nat.le_refl 1, kept, stats, log, recorded, accounts, ?_, ?_⟩
  · rw [accounts.lookUps_eq]
    exact congrArg (fun stats => stats.literalHits + stats.literalMisses) stats
  · rw [← accounts.evictions_eq]
    exact congrArg (·.evictions) stats

end Session

end ExactFormula
