import ExactFormula.Proofs.Reading.Sound
import ExactFormula.Workspace

/-!
Histories of a workspace: caches and engines are added, texts are read, caches are cleared, in any order.
Every engine keeps an identity of its own, and every cache stays sound.
-/

namespace ExactFormula

namespace Workspace

theorem cacheAt_set (w : Workspace) (i j : Nat) (c : Cache) :
    cacheAt { w with caches := w.caches.set j c } i =
      if j = i ∧ i < w.caches.length then c else w.cacheAt i := by
  rw [cacheAt, cacheAt, List.getElem?_set]
  by_cases same : j = i
  · subst same
    by_cases here : j < w.caches.length
    · simp [here]
    · simp [here]
  · simp [same]

theorem cacheAt_addCache (w : Workspace) {i : Nat} (here : i < w.caches.length) (capacity : Nat) :
    (w.addCache capacity).2.cacheAt i = w.cacheAt i := by
  rw [cacheAt, cacheAt, addCache, List.getElem?_append_left here]

end Workspace

/-- An engine is named by its place among those made so far. -/
inductive Action
  | addCache (capacity : Nat)
  | addEngine (settings : Settings) (cache : Nat)
  | read (engine : Nat) (text : String)
  | clearCache (cache : Nat)

/-- A workspace with the engines that were made in it. -/
structure Session where
  workspace : Workspace
  engines : List Engine

namespace Session

def step (s : Session) : Action → Session
  | .addCache capacity => { s with workspace := (s.workspace.addCache capacity).2 }
  | .addEngine settings cache =>
    match s.workspace.addEngine settings cache with
    | (.ok e, w) => ⟨w, s.engines ++ [e]⟩
    | (.error _, w) => ⟨w, s.engines⟩
  | .read engine text =>
    match s.engines[engine]? with
    | some e => { s with workspace := (s.workspace.read e text).2 }
    | none => s
  | .clearCache cache => { s with workspace := s.workspace.clearCache cache }

def run (s : Session) (history : List Action) : Session := history.foldl step s

def after (history : List Action) : Session := run ⟨.empty, []⟩ history

/-- What an engine answers next. -/
def read (s : Session) (e : Engine) (text : String) : Except FormulaError Formula :=
  (s.workspace.read e text).1

theorem read_eq (s : Session) (e : Engine) (text : String) : s.read e text =
    ((ReadingEnv.read ⟨e.settings, e.id⟩ text).run (s.workspace.cacheAt e.cache)).1 := rfl

/-- The settings of the engine that has an identity. -/
def owner (s : Session) (id : Nat) : Option Settings :=
  (s.engines.find? (·.id == id)).map (·.settings)

structure Sound (s : Session) : Prop where
  distinct : s.engines.Pairwise (·.id ≠ ·.id)
  fresh : ∀ e ∈ s.engines, e.id < s.workspace.nextId
  caches : ∀ c ∈ s.workspace.caches, c.Sound s.owner

variable {s : Session} {e : Engine}

theorem find?_of_distinct {es : List Engine} (distinct : es.Pairwise (·.id ≠ ·.id)) (mem : e ∈ es) :
    es.find? (·.id == e.id) = some e := by
  induction es with
  | nil => cases mem
  | cons e' es ih =>
    obtain ⟨apart, later⟩ := List.pairwise_cons.1 distinct
    rcases List.mem_cons.1 mem with rfl | mem
    · exact List.find?_cons_of_pos (beq_self_eq_true _)
    · rw [List.find?_cons_of_neg (by simpa using apart e mem)]
      exact ih later mem

namespace Sound

theorem owner_eq (h : s.Sound) (mem : e ∈ s.engines) : s.owner e.id = some e.settings := by
  rw [owner, find?_of_distinct h.distinct mem]
  rfl

theorem cacheAt (h : s.Sound) (i : Nat) : (s.workspace.cacheAt i).Sound s.owner := by
  rw [Workspace.cacheAt]
  cases found : s.workspace.caches[i]? with
  | none => exact .empty ..
  | some c => exact h.caches c (List.mem_of_getElem? found)

/-- The caches with another sound one in the place of one of them. -/
theorem set (h : s.Sound) {c : Cache} (sound : c.Sound s.owner) (i : Nat) :
    Sound ⟨{ s.workspace with caches := s.workspace.caches.set i c }, s.engines⟩ where
  distinct := h.distinct
  fresh := h.fresh
  caches c' mem := by
    rcases List.mem_or_eq_of_mem_set mem with before | rfl
    · exact h.caches c' before
    · exact sound

theorem addCache (h : s.Sound) (capacity : Nat) :
    Sound ⟨(s.workspace.addCache capacity).2, s.engines⟩ where
  distinct := h.distinct
  fresh := h.fresh
  caches c mem := by
    rcases List.mem_append.1 mem with before | new
    · exact h.caches c before
    · rw [List.mem_singleton.1 new]
      exact .empty ..

theorem addEngine (h : s.Sound) (settings : Settings) (cache : Nat) :
    Sound ⟨{ s.workspace with nextId := s.workspace.nextId + 1 },
      s.engines ++ [⟨s.workspace.nextId, settings, cache⟩]⟩ where
  distinct := by
    refine List.pairwise_append.2 ⟨h.distinct, List.pairwise_singleton .., fun e mem new here => ?_⟩
    rw [List.mem_singleton.1 here]
    exact Nat.ne_of_lt (h.fresh e mem)
  fresh e mem := by
    rcases List.mem_append.1 mem with before | new
    · exact Nat.lt_succ_of_lt (h.fresh e before)
    · rw [List.mem_singleton.1 new]
      exact Nat.lt_succ_self _
  caches c mem := by
    refine (h.caches c mem).mono fun id settings' owned => ?_
    simp only [owner] at owned ⊢
    rw [List.find?_append]
    cases found : s.engines.find? (·.id == id) with
    | none => rw [found] at owned; cases owned
    | some e => rw [found] at owned; exact owned

/-- A read follows reading without a memory, and keeps the session sound. -/
theorem read_tracked (h : s.Sound) (mem : e ∈ s.engines) (text : String) :
    Tracked s.owner (Formula.ReadAs e.settings) (fun n => Direct.formula e.settings n text.toList)
      (maxNesting + 1) (s.workspace.cacheAt e.cache)
      ((ReadingEnv.read ⟨e.settings, e.id⟩ text).run (s.workspace.cacheAt e.cache)) :=
  (readFormula_tracks ⟨e.settings, e.id⟩ (h.owner_eq mem) (maxNesting + 1) true text.toList).mono
    (fun _ _ related => related.1) _ (h.cacheAt e.cache)

theorem step (h : s.Sound) (a : Action) : (s.step a).Sound := by
  cases a with
  | addCache capacity => exact h.addCache capacity
  | addEngine settings cache =>
    simp only [Session.step, Workspace.addEngine]
    cases settings.invalidConstant? with
    | some name => exact h
    | none => exact h.addEngine settings cache
  | read engine text =>
    simp only [Session.step]
    cases found : s.engines[engine]? with
    | none => exact h
    | some e => exact h.set (h.read_tracked (List.mem_of_getElem? found) text).sound e.cache
  | clearCache cache => exact h.set (.clear ..) cache

theorem run (h : s.Sound) (history : List Action) : (s.run history).Sound := by
  induction history generalizing s with
  | nil => exact h
  | cons a history ih => exact ih (h.step a)

end Sound

theorem after_sound (history : List Action) : (after history).Sound :=
  Sound.run ⟨.nil, List.forall_mem_nil _, List.forall_mem_nil _⟩ history

end Session

end ExactFormula
