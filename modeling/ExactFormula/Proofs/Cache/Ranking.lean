import ExactFormula.Proofs.Cache.Recency
import Mathlib.Data.List.Find
import Mathlib.Data.List.Nodup

/-!
A table of bounded size against a plain ranking of its keys and values, the one used last in front. The
ticks of a table fall along its ranking, so what has to go is the last of it, and the order in which the
entries lie has no say in the matter.
-/

namespace ExactFormula

/-- What a program asks of a table. -/
inductive Use (κ α : Type) where
  | get (key : κ)
  | insert (key : κ) (value : α)
  | clear

inductive Reply (α : Type) where
  | found (value : Option α)
  | stored (evicted : Bool)
  | cleared
  deriving DecidableEq

/-! ## Rankings -/

/-- Keys with their values, the one used last in front. -/
abbrev Ranking (κ α : Type) := List (κ × α)

namespace Ranking

variable {κ α : Type} [DecidableEq κ]

/-- A key that is found moves to the front. A miss changes nothing. -/
def get (key : κ) (r : Ranking κ α) : Option α × Ranking κ α :=
  match r.find? (·.1 == key) with
  | some (_, value) => (some value, (key, value) :: r.filter (·.1 ≠ key))
  | none => (none, r)

/-- The key moves to the front with its new value. A new key drops the last of a full ranking, and
without capacity nothing is stored. -/
def insert (capacity : Nat) (key : κ) (value : α) (r : Ranking κ α) : Bool × Ranking κ α :=
  if capacity = 0 then (false, r)
  else if key ∈ r.map Prod.fst then (false, (key, value) :: r.filter (·.1 ≠ key))
  else if r.length = capacity then (true, (key, value) :: r.dropLast)
  else (false, (key, value) :: r)

def use (capacity : Nat) : Use κ α → Ranking κ α → Reply α × Ranking κ α
  | .get key, r => (.found (r.get key).1, (r.get key).2)
  | .insert key value, r => (.stored (r.insert capacity key value).1, (r.insert capacity key value).2)
  | .clear, _ => (.cleared, [])

/-- A new key is one entry more, unless the last one goes for it. -/
theorem length_insert {capacity : Nat} {key : κ} {r : Ranking κ α} (room : 0 < capacity)
    (new : key ∉ r.map Prod.fst) (value : α) :
    (r.insert capacity key value).2.length + (r.insert capacity key value).1.toNat = r.length + 1 := by
  rw [insert, if_neg (Nat.ne_of_gt room), if_neg new]
  split
  · simp only [List.length_cons, List.length_dropLast, Bool.toNat_true]
    omega
  · rfl

/-- The replies to a sequence of uses, and the ranking after them. -/
def serve (capacity : Nat) : List (Use κ α) → Ranking κ α → List (Reply α) × Ranking κ α
  | [], r => ([], r)
  | u :: us, r =>
    let now := use capacity u r
    let later := serve capacity us now.2
    (now.1 :: later.1, later.2)

end Ranking

namespace Recency

variable {κ α : Type}

section Serving

variable [DecidableEq κ]

def use : Use κ α → Recency κ α → Reply α × Recency κ α
  | .get key, t => (.found (t.get key).1, (t.get key).2)
  | .insert key value, t => (.stored (t.insert key value).1, (t.insert key value).2)
  | .clear, t => (.cleared, t.clear)

/-- A run of a table whose entries may come to lie in any other order between two uses. -/
inductive Serves : Recency κ α → List (Use κ α) → List (Reply α) → Recency κ α → Prop
  | done (t : Recency κ α) : Serves t [] [] t
  | reordered {t t' : Recency κ α} {es : List (κ × α × Nat)} {uses : List (Use κ α)}
      {replies : List (Reply α)} (same : es.Perm t.entries)
      (rest : Serves { t with entries := es } uses replies t') : Serves t uses replies t'
  | used {t t' : Recency κ α} (u : Use κ α) {uses : List (Use κ α)} {replies : List (Reply α)}
      (rest : Serves (t.use u).2 uses replies t') : Serves t (u :: uses) ((t.use u).1 :: replies) t'

end Serving

/-! ## Tables in order -/

def ranking (es : List (κ × α × Nat)) : Ranking κ α := es.map fun e => (e.1, e.2.1)

@[simp] theorem keys_ranking (es : List (κ × α × Nat)) : (ranking es).map Prod.fst = es.map Prod.fst := by
  simp [ranking, Function.comp_def]

@[simp] theorem length_ranking (es : List (κ × α × Nat)) : (ranking es).length = es.length :=
  List.length_map _

/-- The entries of a table by falling ticks of their last use. -/
structure Ordered (t : Recency κ α) (es : List (κ × α × Nat)) : Prop where
  same : es.Perm t.entries
  distinct : (es.map Prod.fst).Nodup
  falling : es.Pairwise fun e e' => e'.2.2 < e.2.2
  past : ∀ e ∈ es, e.2.2 ≤ t.tick
  bounded : es.length ≤ t.capacity

/-- The table holds what the ranking lists, last used in front. -/
def Ranks (t : Recency κ α) (r : Ranking κ α) : Prop := ∃ es, t.Ordered es ∧ r = ranking es

namespace Ordered

variable {t : Recency κ α} {es : List (κ × α × Nat)}

theorem size_eq (h : t.Ordered es) : t.size = es.length := h.same.length_eq.symm

theorem distinct_entries (h : t.Ordered es) : (t.entries.map Prod.fst).Nodup :=
  (h.same.map Prod.fst).nodup h.distinct

theorem of_no_entries (h : t.entries = []) : t.Ordered [] where
  same := h ▸ .refl _
  distinct := .nil
  falling := .nil
  past := nofun
  bounded := Nat.zero_le _

theorem reordered (h : t.Ordered es) {entries : List (κ × α × Nat)} (same : entries.Perm t.entries) :
    Ordered { t with entries } es :=
  { h with same := h.same.trans same.symm }

/-- The ticks fall along the entries, so the last of them is the oldest, wherever it lies. -/
theorem oldest?_eq {e : κ × α × Nat} (h : t.Ordered (es ++ [e])) : oldest? t.entries = some e := by
  have held : e ∈ t.entries := h.same.mem_iff.1 (by simp)
  obtain ⟨older, found⟩ := oldest?_isSome (List.ne_nil_of_mem held)
  have least := le_of_oldest? found e held
  rcases List.mem_append.1 (h.same.mem_iff.2 (mem_of_oldest? found)) with before | last
  · have falls := (List.pairwise_append.1 h.falling).2.2 older before e List.mem_cons_self
    omega
  · rw [found, List.mem_singleton.1 last]

/-- A key comes to the front of some of the entries, with the newest tick. -/
theorem front (h : t.Ordered es) {rest : List (κ × α × Nat)} (sub : rest.Sublist es) {key : κ}
    (new : key ∉ rest.map Prod.fst) (room : rest.length < t.capacity) {value : α}
    {entries : List (κ × α × Nat)} (same : ((key, value, t.tick + 1) :: rest).Perm entries) :
    Ordered ⟨t.capacity, t.tick + 1, entries⟩ ((key, value, t.tick + 1) :: rest) where
  same := same
  distinct := List.nodup_cons.2 ⟨new, h.distinct.sublist (sub.map _)⟩
  falling := List.pairwise_cons.2
    ⟨fun e mem => Nat.lt_succ_of_le (h.past e (sub.mem mem)), h.falling.sublist sub⟩
  past e mem := by
    rcases List.mem_cons.1 mem with rfl | mem
    · exact Nat.le_refl _
    · exact Nat.le_succ_of_le (h.past e (sub.mem mem))
  bounded := room

variable [DecidableEq κ]

theorem find?_eq (h : t.Ordered es) (key : κ) : t.entries.find? (·.1 == key) = es.find? (·.1 == key) := by
  refine (List.find?_eq_find?_of_perm h.same ?_).symm
  rintro e ⟨mem, here⟩ e' ⟨mem', here'⟩
  exact List.inj_on_of_nodup_map h.distinct mem mem' ((eq_of_beq here).trans (eq_of_beq here').symm)

/-- The front takes the place of the entry that was under the key. -/
theorem room_of_mem (h : t.Ordered es) {key : κ} (mem : key ∈ es.map Prod.fst) :
    (remove key es).length < t.capacity := by
  obtain ⟨⟨k, v, used⟩, held, rfl⟩ := List.mem_map.1 mem
  exact Nat.lt_of_lt_of_le (length_remove_lt held) h.bounded

theorem remove_last {e : κ × α × Nat} (h : t.Ordered (es ++ [e])) : remove e.1 (es ++ [e]) = es := by
  have distinct := h.distinct
  rw [List.map_append, List.nodup_append] at distinct
  have before : e.1 ∉ es.map Prod.fst := fun mem => distinct.2.2 _ mem _ (by simp) rfl
  have first := remove_of_not_mem before
  rw [remove] at first ⊢
  rw [List.filter_append, first]
  simp

theorem get (h : t.Ordered es) (key : κ) : ∃ es', (t.get key).2.Ordered es' ∧
    Ranking.get key (ranking es) = ((t.get key).1, ranking es') := by
  have ranked : (ranking es).find? (·.1 == key) =
      (t.entries.find? (·.1 == key)).map fun e => (e.1, e.2.1) := by
    rw [h.find?_eq, ranking, List.find?_map]
    rfl
  cases found : t.entries.find? (·.1 == key) with
  | none =>
    have new : key ∉ t.entries.map Prod.fst := find?_eq_none_iff.1 found
    refine ⟨es, ⟨?_, h.distinct, h.falling, fun e mem => Nat.le_succ_of_le (h.past e mem), h.bounded⟩, ?_⟩
    · simpa [Recency.get, touch_of_not_mem new] using h.same
    · simp [Ranking.get, ranked, Recency.get, lookup, found]
  | some e =>
    obtain ⟨k, v, used⟩ := e
    have here : k = key := eq_of_beq (List.find?_some (p := fun e : κ × α × Nat => e.1 == key) found)
    subst here
    have mem := List.mem_of_find?_eq_some found
    refine ⟨(k, v, t.tick + 1) :: remove k es, ?_, ?_⟩
    · refine h.front List.filter_sublist (not_mem_keys_remove k es)
        (h.room_of_mem (List.mem_map.2 ⟨_, h.same.mem_iff.2 mem, rfl⟩)) ?_
      exact ((h.same.filter _).cons _).trans (touch_perm h.distinct_entries mem _).symm
    · rw [Ranking.get, ranked, found]
      simp [Recency.get, lookup, found, ranking, remove, List.filter_map, Function.comp_def]

theorem insert (h : t.Ordered es) (key : κ) (value : α) : ∃ es', (t.insert key value).2.Ordered es' ∧
    Ranking.insert t.capacity key value (ranking es) = ((t.insert key value).1, ranking es') := by
  have held : key ∈ es.map Prod.fst ↔ key ∈ t.entries.map Prod.fst := (h.same.map _).mem_iff
  rw [Ranking.insert, Recency.insert, keys_ranking, length_ranking]
  by_cases nowhere : t.capacity = 0
  · rw [if_pos nowhere, if_pos nowhere]
    exact ⟨es, h, rfl⟩
  rw [if_neg nowhere, if_neg nowhere]
  by_cases old : key ∈ es.map Prod.fst
  · -- The entry under the key gives way to the new one.
    refine ⟨(key, value, t.tick + 1) :: remove key es, ?_, ?_⟩
    · refine h.front List.filter_sublist (not_mem_keys_remove key es) (h.room_of_mem old) ?_
      rw [victim?_of_mem (held.1 old)]
      exact (h.same.filter _).cons _
    · rw [if_pos old, victim?_of_mem (held.1 old)]
      simp [ranking, remove, List.filter_map, Function.comp_def]
  have new : key ∉ t.entries.map Prod.fst := fun mem => old (held.2 mem)
  rw [if_neg old]
  by_cases full : es.length = t.capacity
  · obtain ⟨init, last, rfl⟩ : ∃ init last, es = init ++ [last] := by
      rcases List.eq_nil_or_concat' es with rfl | split
      · exact absurd full.symm nowhere
      · exact split
    have victim : t.victim? key = some last.1 := by
      rw [victim?_of_full new (by rw [h.size_eq, full]), h.oldest?_eq]
      rfl
    refine ⟨(key, value, t.tick + 1) :: init, ?_, ?_⟩
    · refine h.front (List.sublist_append_left ..) ?_ ?_ ?_
      · intro mem
        exact old (List.map_append ▸ List.mem_append_left _ mem)
      · rw [List.length_append, List.length_singleton] at full
        omega
      · have kept : (remove last.1 (init ++ [last])).Perm (remove last.1 t.entries) := h.same.filter _
        rw [h.remove_last] at kept
        rw [victim, Option.getD_some]
        exact kept.cons _
    · rw [if_pos full, victim]
      simp [ranking]
  · have room : es.length < t.capacity := Nat.lt_of_le_of_ne h.bounded full
    have victim : t.victim? key = none := victim?_of_room (h.size_eq ▸ room) key
    refine ⟨(key, value, t.tick + 1) :: es, ?_, ?_⟩
    · refine h.front (.refl _) old room ?_
      rw [victim, Option.getD_none, remove_of_not_mem new]
      exact h.same.cons _
    · rw [if_neg full, victim]
      rfl

theorem size_insert (h : t.Ordered es) {key : κ} (room : 0 < t.capacity)
    (new : key ∉ t.entries.map Prod.fst) (value : α) :
    (t.insert key value).2.size + (t.insert key value).1.toNat = t.size + 1 := by
  have unranked : key ∉ (ranking es).map Prod.fst := by
    rw [keys_ranking]
    exact fun mem => new ((h.same.map _).mem_iff.1 mem)
  obtain ⟨es', ordered, same⟩ := h.insert key value
  have length := Ranking.length_insert room unranked value
  rw [same, length_ranking, length_ranking] at length
  rw [ordered.size_eq, h.size_eq, length]

/-- One use of a table is the same use of its ranking. -/
theorem use (h : t.Ordered es) (u : Use κ α) : ∃ es', (t.use u).2.Ordered es' ∧
    Ranking.use t.capacity u (ranking es) = ((t.use u).1, ranking es') := by
  cases u with
  | get key =>
    obtain ⟨es', ordered, same⟩ := h.get key
    exact ⟨es', ordered, by simp [Ranking.use, Recency.use, same]⟩
  | insert key value =>
    obtain ⟨es', ordered, same⟩ := h.insert key value
    exact ⟨es', ordered, by simp [Ranking.use, Recency.use, same]⟩
  | clear => exact ⟨[], .of_no_entries rfl, rfl⟩

end Ordered

/-! ## Runs -/

variable [DecidableEq κ] {t t' : Recency κ α} {uses : List (Use κ α)} {replies : List (Reply α)}

@[simp] theorem capacity_use (t : Recency κ α) (u : Use κ α) : (t.use u).2.capacity = t.capacity := by
  cases u with
  | get key => rfl
  | insert key value => exact capacity_insert t key value
  | clear => rfl

theorem tick_use_le (t : Recency κ α) (u : Use κ α) : (t.use u).2.tick ≤ t.tick + 1 := by
  cases u with
  | get key => exact Nat.le_refl _
  | insert key value =>
    simp only [use, insert]
    split
    · exact Nat.le_succ _
    · exact Nat.le_refl _
  | clear => exact Nat.le_succ _

namespace Serves

theorem exists_serves (t : Recency κ α) (uses : List (Use κ α)) :
    ∃ replies t', Serves t uses replies t' := by
  induction uses generalizing t with
  | nil => exact ⟨_, _, .done t⟩
  | cons u uses ih =>
    obtain ⟨_, _, rest⟩ := ih (t.use u).2
    exact ⟨_, _, .used u rest⟩

theorem capacity_eq (h : Serves t uses replies t') : t'.capacity = t.capacity := by
  induction h with
  | done t => rfl
  | reordered same rest ih => exact ih
  | used u rest ih => exact ih.trans (capacity_use _ u)

theorem tick_le (h : Serves t uses replies t') : t'.tick ≤ t.tick + uses.length := by
  induction h with
  | done t => exact Nat.le_refl _
  | reordered same rest ih => exact ih
  | @used t _ u uses _ rest ih =>
    have once := tick_use_le t u
    rw [List.length_cons]
    omega

theorem ordered (h : Serves t uses replies t') {es : List (κ × α × Nat)} (before : t.Ordered es) :
    ∃ es', t'.Ordered es' ∧
      Ranking.serve t.capacity uses (ranking es) = (replies, ranking es') := by
  induction h generalizing es with
  | done t => exact ⟨es, before, rfl⟩
  | reordered same rest ih => exact ih (before.reordered same)
  | used u rest ih =>
    obtain ⟨es₁, after, once⟩ := before.use u
    obtain ⟨es₂, last, more⟩ := ih after
    rw [capacity_use] at more
    exact ⟨es₂, last, by simp [Ranking.serve, once, more]⟩

end Serves

/-- In every order of its entries a table replies as a ranking does, and holds what the ranking lists,
never more than its capacity. Its ticks count uses, so a clock of 64 bits does not wrap before as many
uses as it has values. -/
theorem serves_as_ranked (capacity : Nat) (uses : List (Use κ α)) :
    (∃ replies t, Serves (empty capacity) uses replies t) ∧
      ∀ replies t, Serves (empty capacity : Recency κ α) uses replies t →
        ∃ r, Ranking.serve capacity uses [] = (replies, r) ∧ t.Ranks r ∧
          t.size = r.length ∧ t.size ≤ capacity ∧ t.tick ≤ uses.length := by
  refine ⟨Serves.exists_serves _ uses, fun replies t run => ?_⟩
  obtain ⟨es, ordered, same⟩ := run.ordered (.of_no_entries rfl)
  have sized : t.size = (ranking es).length := by simp [ordered.size_eq, ranking]
  refine ⟨ranking es, same, ⟨es, ordered, rfl⟩, sized, ?_, ?_⟩
  · rw [ordered.size_eq]
    exact Nat.le_trans ordered.bounded (Nat.le_of_eq run.capacity_eq)
  · exact Nat.le_trans run.tick_le (by simp [empty])

/-- Two entries that change places between their uses: the third insertion still drops the key that
was not asked for. -/
theorem serves_as_ranked_swapped :
    Serves (empty 2) [.insert 1 "a", .insert 2 "b", .get 1, .insert 3 "c", .get 2]
        [.stored false, .stored false, .found (some "a"), .stored true, .found none]
        ⟨2, 5, [(3, "c", 4), (1, "a", 3)]⟩ ∧
      ∃ r, Ranking.serve 2 [.insert 1 "a", .insert 2 "b", .get 1, .insert 3 "c", .get 2] [] =
          ([.stored false, .stored false, .found (some "a"), .stored true, .found none], r) ∧
        Ranks ⟨2, 5, [(3, "c", 4), (1, "a", 3)]⟩ r ∧ 2 = r.length ∧ 2 ≤ 2 ∧ 5 ≤ 5 := by
  have run : Serves (empty 2) [.insert 1 "a", .insert 2 "b", .get 1, .insert 3 "c", .get 2]
      [.stored false, .stored false, .found (some "a"), .stored true, .found none]
      ⟨2, 5, [(3, "c", 4), (1, "a", 3)]⟩ :=
    .used (.insert 1 "a") (.used (.insert 2 "b") (.used (.get 1)
      (.reordered (.swap (2, "b", 2) (1, "a", 3) [])
        (.used (.insert 3 "c") (.used (.get 2) (.done _))))))
  exact ⟨run, (serves_as_ranked 2 _).2 _ _ run⟩

end Recency

end ExactFormula
