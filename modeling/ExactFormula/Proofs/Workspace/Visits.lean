import ExactFormula.Proofs.Reading.Lockstep
import ExactFormula.Proofs.Workspace.History

/-!
What a cache has been through in a history, and that nothing else decides what is read on it. Which identity an engine
has is of no account there, nor whether it makes plans.
-/

namespace ExactFormula

/-- Settings that are one when plans are made are one but for that. -/
theorem Settings.eq_compiling {s s' : Settings} (h : s.compiling true = s'.compiling true) :
    s' = s.compiling s'.compile :=
  calc s' = (s'.compiling true).compiling s'.compile := rfl
    _ = (s.compiling true).compiling s'.compile := by rw [h]
    _ = s.compiling s'.compile := rfl

/-- What happens to one cache. -/
inductive Visit
  | making (capacity : Nat)
  | reading (id : Nat) (settings : Settings) (text : String)
  | clearing

namespace Visit

/-- The cache at a place after a visit. -/
def act (i : Nat) (c : Cache) : Visit → Cache
  | .making capacity => .empty i capacity
  | .reading id settings text => ((ReadingEnv.read ⟨settings, id⟩ text).run c).2
  | .clearing => c.clear

/-- The visit with a name for the identity, and without the choice of plans. -/
def named (ρ : Nat → Nat) : Visit → Visit
  | .making capacity => .making capacity
  | .reading id settings text => .reading (ρ id) (settings.compiling true) text
  | .clearing => .clearing

variable {ρ ρ' : Nat → Nat} (injective : Function.Injective ρ) (injective' : Function.Injective ρ')

include injective injective'

/-- Visits that are one but for names and plans leave the same contents. -/
theorem act_contents {v v' : Visit} (same : v.named ρ = v'.named ρ') {c d : Cache}
    (contents : c.contents ρ = d.contents ρ') (i j : Nat) : (act i c v).contents ρ = (act j d v').contents ρ' := by
  cases v with
  | making capacity =>
    cases v' with
    | making capacity' =>
      cases same
      rfl
    | _ => cases same
  | reading id settings text =>
    cases v' with
    | reading id' settings' text' =>
      obtain ⟨ids, alike, rfl⟩ := reading.inj same
      rw [Settings.eq_compiling alike]
      have twins : Named ρ ρ' (ReadingEnv.mk settings id).id id' := ⟨injective, injective', ids⟩
      exact (readFormula_alike twins settings'.compile (maxNesting + 1) true true text.toList c d contents).2
    | _ => cases same
  | clearing =>
    cases v' with
    | clearing =>
      show (c.contents ρ).clear = (d.contents ρ').clear
      rw [contents]
    | _ => cases same

theorem foldl_contents {vs vs' : List Visit} (same : vs.map (named ρ) = vs'.map (named ρ')) {c d : Cache}
    (contents : c.contents ρ = d.contents ρ') (i j : Nat) :
    (vs.foldl (act i) c).contents ρ = (vs'.foldl (act j) d).contents ρ' := by
  induction vs generalizing vs' c d with
  | nil =>
    cases vs' with
    | nil => exact contents
    | cons => cases same
  | cons v vs ih =>
    cases vs' with
    | nil => cases same
    | cons v' vs' =>
      obtain ⟨first, others⟩ := List.cons.inj same
      exact ih others (act_contents injective injective' first contents i j)

end Visit

namespace Session

/-- What an action is to the cache at a place. -/
def visit? (s : Session) (i : Nat) : Action → Option Visit
  | .addCache capacity => if s.workspace.caches.length = i then some (.making capacity) else none
  | .addEngine .. => none
  | .read engine text =>
    match s.engines[engine]? with
    | some e => if e.cache = i ∧ i < s.workspace.caches.length then some (.reading e.id e.settings text) else none
    | none => none
  | .clearCache cache => if cache = i ∧ i < s.workspace.caches.length then some .clearing else none

/-- What becomes of the cache at a place. -/
def visits (i : Nat) : Session → List Action → List Visit
  | _, [] => []
  | s, a :: rest => (s.visit? i a).toList ++ visits i (s.step a) rest

/-- What the cache at a place has been through. -/
def past (i : Nat) (history : List Action) : List Visit := visits i ⟨.empty, []⟩ history

variable {s : Session}

theorem cacheAt_step (s : Session) (i : Nat) (a : Action) :
    (s.step a).workspace.cacheAt i = (s.visit? i a).toList.foldl (Visit.act i) (s.workspace.cacheAt i) := by
  cases a with
  | addCache capacity =>
    simp only [step, visit?, Workspace.cacheAt, Workspace.addCache]
    split
    case isTrue here =>
      subst here
      simp [Visit.act]
    case isFalse apart =>
      rw [Option.toList_none, List.foldl_nil]
      rcases Nat.lt_or_gt_of_ne apart with beyond | before
      · have shorter : (s.workspace.caches ++ [Cache.empty s.workspace.caches.length capacity]).length ≤ i := by
          rw [List.length_append, List.length_singleton]
          exact beyond
        rw [List.getElem?_eq_none shorter, List.getElem?_eq_none (Nat.le_of_lt beyond)]
      · rw [List.getElem?_append_left before]
  | addEngine settings cache =>
    simp only [step, visit?, Workspace.addEngine]
    cases settings.invalidConstant? <;> rfl
  | read engine text =>
    simp only [step, visit?]
    cases s.engines[engine]? with
    | none => rfl
    | some e =>
      refine (s.workspace.cacheAt_set i e.cache _).trans ?_
      dsimp only
      split
      case isTrue here =>
        obtain ⟨rfl, -⟩ := here
        rfl
      case isFalse => rfl
  | clearCache cache =>
    refine (s.workspace.cacheAt_set i cache _).trans ?_
    rw [visit?]
    split
    case isTrue here =>
      obtain ⟨rfl, -⟩ := here
      rfl
    case isFalse => rfl

theorem cacheAt_run (s : Session) (i : Nat) (history : List Action) :
    (s.run history).workspace.cacheAt i = (s.visits i history).foldl (Visit.act i) (s.workspace.cacheAt i) := by
  induction history generalizing s with
  | nil => rfl
  | cons a history ih =>
    rw [visits, List.foldl_append, ← cacheAt_step]
    exact ih (s.step a)

/-- A cache is what its past has made of it. -/
theorem cacheAt_after (i : Nat) (history : List Action) :
    (after history).workspace.cacheAt i = (past i history).foldl (Visit.act i) (.empty i 0) :=
  cacheAt_run ⟨.empty, []⟩ i history

/-- Engines whose settings differ in nothing but plans read alike, whatever their identities, when their caches have
been through the same. -/
theorem read_alike {history history' : List Action} {e e' : Engine} {ρ ρ' : Nat → Nat} (named : Named ρ ρ' e.id e'.id)
    (twins : e.settings.compiling true = e'.settings.compiling true)
    (same : (past e.cache history).map (Visit.named ρ) = (past e'.cache history').map (Visit.named ρ'))
    (text : String) :
    Matches Formula.SameBare ((after history).read e text) ((after history').read e' text) := by
  have fresh : (Cache.empty e.cache 0).contents ρ = (Cache.empty e'.cache 0).contents ρ' := rfl
  have contents := Visit.foldl_contents named.injective named.injective' same fresh e.cache e'.cache
  rw [← cacheAt_after, ← cacheAt_after] at contents
  have named : Named ρ ρ' (ReadingEnv.mk e.settings e.id).id e'.id := named
  have step := readFormula_alike named e'.settings.compile (maxNesting + 1) true true
    text.toList _ _ contents
  rw [ReadingEnv.twin, ← Settings.eq_compiling twins] at step
  exact step.1

end Session

end ExactFormula
