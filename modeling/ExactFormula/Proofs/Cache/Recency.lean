import ExactFormula.Cache.Recency

/-!
What a table of bounded size holds after a look-up or an insertion: nothing but what it held before and
what was inserted, under the same keys, and never more than its capacity.
-/

namespace ExactFormula.Recency

variable {κ α : Type}

/-- The table holds the value under the key, whenever it was last used. -/
def Has (t : Recency κ α) (key : κ) (value : α) : Prop := ∃ used, (key, value, used) ∈ t.entries

theorem not_has_of_capacity_zero {t : Recency κ α} (h : t.size ≤ t.capacity) (zero : t.capacity = 0)
    (key : κ) (value : α) : ¬t.Has key value := by
  rintro ⟨used, mem⟩
  have nonempty := List.length_pos_of_mem mem
  simp only [size] at h
  omega

theorem mem_of_oldest? {es : List (κ × α × Nat)} {e : κ × α × Nat} (h : oldest? es = some e) :
    e ∈ es := by
  induction es generalizing e with
  | nil => cases h
  | cons e' es ih =>
    rw [oldest?] at h
    split at h
    · rename_i older found
      split at h
      · cases h
        exact List.mem_cons_of_mem _ (ih found)
      · cases h
        exact List.mem_cons_self
    · cases h
      exact List.mem_cons_self

theorem oldest?_isSome {es : List (κ × α × Nat)} (h : es ≠ []) : ∃ e, oldest? es = some e := by
  cases es with
  | nil => exact absurd rfl h
  | cons e es =>
    rw [oldest?]
    split
    · split
      · exact ⟨_, rfl⟩
      · exact ⟨_, rfl⟩
    · exact ⟨_, rfl⟩

theorem le_of_oldest? {es : List (κ × α × Nat)} {e : κ × α × Nat} (h : oldest? es = some e) :
    ∀ e' ∈ es, e.2.2 ≤ e'.2.2 := by
  induction es generalizing e with
  | nil => cases h
  | cons e' es ih =>
    intro e'' mem
    rw [oldest?] at h
    cases found : oldest? es with
    | none =>
      have empty : es = [] := by
        refine Classical.byContradiction fun more => ?_
        obtain ⟨older, some⟩ := oldest?_isSome more
        cases found ▸ some
      simp only [found, Option.some.injEq] at h
      simp only [empty, List.mem_singleton] at mem
      exact Nat.le_of_eq (by rw [mem, h])
    | some older =>
      simp only [found] at h
      have least := ih found
      split at h <;> cases h <;> rcases List.mem_cons.1 mem with rfl | later
      · omega
      · exact least _ later
      · exact Nat.le_refl _
      · exact Nat.le_trans (by omega) (least _ later)

variable [DecidableEq κ]

/-! ## Look-ups -/

theorem has_of_lookup {t : Recency κ α} {key : κ} {value : α} (h : t.lookup key = some value) :
    t.Has key value := by
  obtain ⟨⟨k, v, used⟩, found, rfl⟩ := Option.map_eq_some_iff.1 h
  have same : k = key := eq_of_beq (List.find?_some (p := fun e : κ × α × Nat => e.1 == key) found)
  exact ⟨used, same ▸ List.mem_of_find?_eq_some found⟩

theorem find?_eq_none_iff {es : List (κ × α × Nat)} {key : κ} :
    es.find? (·.1 == key) = none ↔ key ∉ es.map Prod.fst := by
  rw [List.find?_eq_none]
  constructor
  · intro h mem
    obtain ⟨e, held, rfl⟩ := List.mem_map.1 mem
    exact h e held (beq_self_eq_true _)
  · intro h e held here
    exact h (List.mem_map.2 ⟨e, held, eq_of_beq here⟩)

theorem lookup_eq_none_iff {t : Recency κ α} {key : κ} :
    t.lookup key = none ↔ key ∉ t.entries.map Prod.fst := by
  rw [lookup, Option.map_eq_none_iff, find?_eq_none_iff]

theorem mem_of_mem_touch {key k : κ} {v : α} {tick used : Nat} {es : List (κ × α × Nat)}
    (h : (k, v, used) ∈ touch key tick es) : ∃ used', (k, v, used') ∈ es := by
  induction es with
  | nil => cases h
  | cons e es ih =>
    obtain ⟨k', v', used'⟩ := e
    rw [touch] at h
    split at h
    · rcases List.mem_cons.1 h with here | later
      · cases here
        exact ⟨used', List.mem_cons_self⟩
      · exact ⟨used, List.mem_cons_of_mem _ later⟩
    · rcases List.mem_cons.1 h with here | later
      · cases here
        exact ⟨used, List.mem_cons_self⟩
      · obtain ⟨used'', found⟩ := ih later
        exact ⟨used'', List.mem_cons_of_mem _ found⟩

theorem length_touch (key : κ) (tick : Nat) (es : List (κ × α × Nat)) :
    (touch key tick es).length = es.length := by
  induction es with
  | nil => rfl
  | cons e es ih =>
    obtain ⟨k, v, used⟩ := e
    rw [touch]
    split
    · rfl
    · exact congrArg (· + 1) ih

@[simp] theorem keys_touch (key : κ) (tick : Nat) (es : List (κ × α × Nat)) :
    (touch key tick es).map Prod.fst = es.map Prod.fst := by
  induction es with
  | nil => rfl
  | cons e es ih =>
    obtain ⟨k, v, used⟩ := e
    rw [touch]
    split
    · rfl
    · simp [ih]

theorem touch_of_not_mem {key : κ} {es : List (κ × α × Nat)} (new : key ∉ es.map Prod.fst) (tick : Nat) :
    touch key tick es = es := by
  induction es with
  | nil => rfl
  | cons e es ih =>
    obtain ⟨k, v, used⟩ := e
    simp only [List.map_cons, List.mem_cons, not_or] at new
    rw [touch, if_neg (Ne.symm new.1), ih new.2]

theorem has_of_has_get {t : Recency κ α} {key k : κ} {v : α} (h : (t.get key).2.Has k v) : t.Has k v := by
  obtain ⟨used, found⟩ := h
  exact mem_of_mem_touch found

@[simp] theorem capacity_get (t : Recency κ α) (key : κ) : (t.get key).2.capacity = t.capacity := rfl

@[simp] theorem size_get (t : Recency κ α) (key : κ) : (t.get key).2.size = t.size :=
  length_touch key _ t.entries

/-! ## Insertions -/

theorem has_of_has_insert {t : Recency κ α} {key k : κ} {value v : α}
    (h : (t.insert key value).2.Has k v) : (k = key ∧ v = value) ∨ t.Has k v := by
  obtain ⟨used, found⟩ := h
  rw [insert] at found
  split at found
  · exact .inr ⟨used, found⟩
  · rcases List.mem_cons.1 found with here | kept
    · cases here
      exact .inl ⟨rfl, rfl⟩
    · exact .inr ⟨used, (List.mem_filter.1 kept).1⟩

@[simp] theorem capacity_insert (t : Recency κ α) (key : κ) (value : α) :
    (t.insert key value).2.capacity = t.capacity := by
  rw [insert]
  split <;> rfl

theorem remove_of_not_mem {key : κ} {es : List (κ × α × Nat)} (new : key ∉ es.map Prod.fst) :
    remove key es = es := by
  refine List.filter_eq_self.2 fun e mem => decide_eq_true ?_
  rintro rfl
  exact new (List.mem_map_of_mem mem)

theorem not_mem_keys_remove (key : κ) (es : List (κ × α × Nat)) : key ∉ (remove key es).map Prod.fst := by
  intro mem
  obtain ⟨e, kept, rfl⟩ := List.mem_map.1 mem
  exact of_decide_eq_true (List.mem_filter.1 kept).2 rfl

/-- Where keys are distinct, a touched entry is the old one with another tick. -/
theorem touch_perm {key : κ} {v : α} {used : Nat} {es : List (κ × α × Nat)}
    (distinct : (es.map Prod.fst).Nodup) (mem : (key, v, used) ∈ es) (tick : Nat) :
    (touch key tick es).Perm ((key, v, tick) :: remove key es) := by
  induction es with
  | nil => cases mem
  | cons e es ih =>
    obtain ⟨k, v', used'⟩ := e
    obtain ⟨new, distinct⟩ := List.nodup_cons.1 distinct
    rcases List.mem_cons.1 mem with here | later
    · cases here
      have kept : remove key ((key, v, used) :: es) = es := by
        simpa [remove] using remove_of_not_mem new
      simp [touch, kept]
    · have other : k ≠ key := by
        rintro rfl
        exact new (List.mem_map.2 ⟨_, later, rfl⟩)
      have kept : remove key ((k, v', used') :: es) = (k, v', used') :: remove key es := by
        simp [remove, other]
      rw [touch, if_neg other, kept]
      exact ((ih distinct later).cons _).trans (.swap ..)

theorem length_remove_le (key : κ) (es : List (κ × α × Nat)) : (remove key es).length ≤ es.length :=
  List.length_filter_le ..

theorem length_remove_lt {key : κ} {v : α} {used : Nat} {es : List (κ × α × Nat)}
    (h : (key, v, used) ∈ es) : (remove key es).length < es.length := by
  refine Nat.lt_of_le_of_ne (length_remove_le key es) fun same => ?_
  have all := List.length_filter_eq_length_iff.1 same (key, v, used) h
  simp at all

theorem victim?_of_mem {t : Recency κ α} {key : κ} (held : key ∈ t.entries.map Prod.fst) :
    t.victim? key = none := by
  have found : (t.lookup key).isNone = false := by
    simpa [Option.isSome_iff_ne_none, lookup_eq_none_iff] using held
  simp [victim?, found]

theorem victim?_of_room {t : Recency κ α} (room : t.size < t.capacity) (key : κ) :
    t.victim? key = none := by
  simp [victim?, Nat.not_le.2 room]

theorem victim?_of_full {t : Recency κ α} {key : κ} (new : key ∉ t.entries.map Prod.fst)
    (full : t.capacity ≤ t.size) : t.victim? key = (oldest? t.entries).map (·.1) := by
  simp [victim?, lookup_eq_none_iff.2 new, full]

/-- A new key finds room below the capacity. -/
theorem insert_of_room {t : Recency κ α} {key : κ} (new : key ∉ t.entries.map Prod.fst)
    (room : t.size < t.capacity) (value : α) : t.insert key value =
      (false, { t with tick := t.tick + 1, entries := (key, value, t.tick + 1) :: t.entries }) := by
  rw [insert, if_neg (Nat.ne_of_gt (Nat.zero_lt_of_lt room)), victim?_of_room room]
  dsimp only [Option.getD_none, Option.isSome_none]
  rw [remove_of_not_mem new]

theorem mem_keys_of_mem_insert {t : Recency κ α} {key k : κ} {value : α}
    (h : k ∈ (t.insert key value).2.entries.map Prod.fst) : k = key ∨ k ∈ t.entries.map Prod.fst := by
  obtain ⟨⟨k, v, used⟩, mem, rfl⟩ := List.mem_map.1 h
  rcases has_of_has_insert ⟨used, mem⟩ with ⟨rfl, -⟩ | ⟨used', before⟩
  · exact .inl rfl
  · exact .inr (List.mem_map.2 ⟨_, before, rfl⟩)

/-- A table within its capacity stays within it. -/
theorem size_insert_le {t : Recency κ α} (h : t.size ≤ t.capacity) (key : κ) (value : α) :
    (t.insert key value).2.size ≤ (t.insert key value).2.capacity := by
  rw [capacity_insert, insert]
  split
  · exact h
  · rename_i room
    show (remove ((t.victim? key).getD key) t.entries).length + 1 ≤ t.capacity
    cases found : t.lookup key with
    | some v =>
      -- The entry under the key gives way to the new one.
      obtain ⟨used, mem⟩ := has_of_lookup found
      have none : t.victim? key = none := by simp [victim?, found]
      rw [none, Option.getD_none]
      exact Nat.le_trans (length_remove_lt mem) h
    | none =>
      by_cases full : t.capacity ≤ t.size
      · have nonempty : t.entries ≠ [] := by
          intro empty
          simp [size, empty] at full
          exact room full
        obtain ⟨⟨k, v, used⟩, oldest⟩ := oldest?_isSome nonempty
        have victim : t.victim? key = some k := by simp [victim?, found, full, oldest]
        rw [victim, Option.getD_some]
        exact Nat.le_trans (length_remove_lt (mem_of_oldest? oldest)) h
      · have bounded := length_remove_le ((t.victim? key).getD key) t.entries
        simp only [size] at full
        omega

end ExactFormula.Recency
