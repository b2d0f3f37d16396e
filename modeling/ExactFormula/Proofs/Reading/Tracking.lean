import ExactFormula.Proofs.Cache.Soundness
import ExactFormula.Proofs.Reading.Running

/-!
A reading on a sound cache leaves a sound cache, and its outcome is the one of reading without a memory
to the same depth or a greater one. Without capacity it is the same depth.
-/

namespace ExactFormula

open Direct (Rising)

variable {α β γ δ : Type} {owner : Nat → Option Settings} {k : Nat}

/-- The same error, or results in a relation. -/
inductive Matches (P : α → β → Prop) : Except FormulaError α → Except FormulaError β → Prop
  | ok {a b} (related : P a b) : Matches P (.ok a) (.ok b)
  | error (e : FormulaError) : Matches P (.error e) (.error e)

theorem Matches.of_ok {P : α → β → Prop} {a : α} {r : Except FormulaError β} (h : Matches P (.ok a) r) :
    ∃ b, P a b ∧ r = .ok b := by
  cases h with
  | ok related => exact ⟨_, related, rfl⟩

theorem Matches.sameVerdict {P : Formula → Formula → Prop} {r q : Except FormulaError Formula}
    (h : Matches P r q) : SameVerdict r q := by
  cases h with
  | ok _ => rfl
  | error e => rfl

/-- `direct` gives the outcome that reading without a memory has to a given depth. -/
structure Tracked (owner : Nat → Option Settings) (P : α → β → Prop)
    (direct : Nat → Except FormulaError β) (k : Nat) (c : Cache) (result : Except FormulaError α × Cache) :
    Prop where
  sound : result.2.Sound owner
  capacity_eq : result.2.capacity = c.capacity
  follows : ∃ n, k ≤ n ∧ (c.capacity = 0 → n = k) ∧ Matches P result.1 (direct n)

def Tracks (owner : Nat → Option Settings) (P : α → β → Prop) (direct : Nat → Except FormulaError β)
    (k : Nat) (x : Reading α) : Prop :=
  ∀ c, c.Sound owner → Tracked owner P direct k c (x.run c)

namespace Tracks

variable {P : α → β → Prop} {Q : γ → δ → Prop} {direct : Nat → Except FormulaError β} {x : Reading α}

theorem pure {a : α} {b : β} (related : P a b) : Tracks owner P (fun _ => .ok b) k (pure a) :=
  fun _ sound => ⟨sound, rfl, k, Nat.le_refl k, fun _ => rfl, .ok related⟩

theorem throw (e : FormulaError) : Tracks owner P (fun _ => .error e) k (throw e) :=
  fun _ sound => ⟨sound, rfl, k, Nat.le_refl k, fun _ => rfl, .error e⟩

theorem lift {r : Except FormulaError α} {r' : Except FormulaError β} (h : Matches P r r') :
    Tracks owner P (fun _ => r') k (liftM r) :=
  fun _ sound => ⟨sound, rfl, k, Nat.le_refl k, fun _ => rfl, h⟩

/-- A run gives a result, as reading without a memory does, or fails as that does. -/
theorem cases (hx : Tracks owner P direct k x) {c : Cache} (sound : c.Sound owner) :
    ∃ n c', (k ≤ n ∧ (c.capacity = 0 → n = k)) ∧ (c'.Sound owner ∧ c'.capacity = c.capacity) ∧
      ((∃ a b, P a b ∧ x.run c = (.ok a, c') ∧ direct n = .ok b) ∨
        ∃ e, x.run c = (.error e, c') ∧ direct n = .error e) := by
  obtain ⟨sound', capacity, n, le, exact, step⟩ := hx c sound
  generalize x.run c = result at sound' capacity step
  obtain ⟨r, c'⟩ := result
  refine ⟨n, c', ⟨le, exact⟩, ⟨sound', capacity⟩, ?_⟩
  generalize direct n = d at step
  cases step with
  | ok related => exact .inl ⟨_, _, related, rfl, rfl⟩
  | error e => exact .inr ⟨e, rfl, rfl⟩

theorem bind {f : α → Reading γ} {next : Nat → β → Except FormulaError δ} (hx : Tracks owner P direct k x)
    (hf : ∀ a b, P a b → Tracks owner Q (next · b) k (f a)) (rising : Rising direct)
    (risingNext : ∀ b, Rising (next · b)) :
    Tracks owner Q (fun n => direct n >>= next n) k (x >>= f) := by
  intro c sound
  obtain ⟨n₁, c₁, ⟨le₁, exact₁⟩, ⟨sound₁, capacity₁⟩, ⟨a, b, related, ran, found⟩ | ⟨e, ran, found⟩⟩ :=
    hx.cases sound
  · obtain ⟨sound₂, capacity₂, n₂, le₂, exact₂, step₂⟩ := hf a b related c₁ sound₁
    rw [Caching.run_bind, ran]
    refine ⟨sound₂, capacity₂.trans capacity₁, ?_⟩
    -- The deeper of both depths gives both results, unless the second one is too deep.
    rcases risingNext b n₂ (max n₁ n₂) (Nat.le_max_right ..) with deep | same
    · dsimp only at deep
      rw [deep] at step₂
      have deepest : (direct k >>= next k) = .error tooDeep := by
        rcases rising k n₁ le₁ with deep' | same'
        · rw [deep']
          rfl
        · rw [same', found]
          exact (risingNext b).deep le₂ deep
      refine ⟨k, Nat.le_refl k, fun _ => rfl, ?_⟩
      rw [deepest]
      exact step₂
    · refine ⟨max n₁ n₂, Nat.le_trans le₁ (Nat.le_max_left ..), ?_, ?_⟩
      · intro zero
        rw [exact₁ zero, exact₂ (capacity₁.trans zero), Nat.max_self]
      · dsimp only at same
        rw [rising.ok (Nat.le_max_left n₁ n₂) found]
        rw [same] at step₂
        exact step₂
  · rw [Caching.run_bind, ran]
    refine ⟨sound₁, capacity₁, n₁, le₁, exact₁, ?_⟩
    rw [found]
    exact .error e

theorem map {f : α → γ} {g : β → δ} (hx : Tracks owner P direct k x)
    (h : ∀ a b, P a b → Q (f a) (g b)) :
    Tracks owner Q (fun n => direct n >>= fun b => .ok (g b)) k (x >>= fun a => Pure.pure (f a)) := by
  intro c sound
  obtain ⟨n, c', ⟨le, exact⟩, ⟨sound', capacity⟩, ⟨a, b, related, ran, found⟩ | ⟨e, ran, found⟩⟩ :=
    hx.cases sound
  · rw [Caching.run_bind, ran]
    refine ⟨sound', capacity, n, le, exact, ?_⟩
    rw [found]
    exact .ok (h a b related)
  · rw [Caching.run_bind, ran]
    refine ⟨sound', capacity, n, le, exact, ?_⟩
    rw [found]
    exact .error e

theorem mono {P' : α → β → Prop} (hx : Tracks owner P direct k x) (weaker : ∀ a b, P a b → P' a b) :
    Tracks owner P' direct k x := by
  intro c sound
  obtain ⟨n, c', ⟨le, exact⟩, ⟨sound', capacity⟩, ⟨a, b, related, ran, found⟩ | ⟨e, ran, found⟩⟩ :=
    hx.cases sound
  · rw [ran]
    exact ⟨sound', capacity, n, le, exact, by rw [found]; exact .ok (weaker a b related)⟩
  · rw [ran]
    exact ⟨sound', capacity, n, le, exact, by rw [found]; exact .error e⟩

/-- One level more on both sides. -/
theorem deeper (hx : Tracks owner P (fun n => direct (n + 1)) k x) : Tracks owner P direct (k + 1) x := by
  intro c sound
  obtain ⟨sound', capacity, n, le, exact, step⟩ := hx c sound
  exact ⟨sound', capacity, n + 1, by omega, fun zero => congrArg (· + 1) (exact zero), step⟩

end Tracks

end ExactFormula
