import ExactFormula.Formula.Reading
import ExactFormula.Options

/-!
Engines read formulas with settings of their own. A workspace holds the caches that engines use,
which several of them may share, and gives every engine an identity that no other one has.
-/

namespace ExactFormula

/-- `cache` is the place of the engine's cache in its workspace. -/
structure Engine where
  id : Nat
  settings : Settings
  cache : Nat

structure Workspace where
  caches : List Cache
  nextId : Nat

namespace Workspace

def empty : Workspace := ⟨[], 1⟩

def cacheAt (w : Workspace) (i : Nat) : Cache := w.caches[i]?.getD (Cache.empty i 0)

/-- Adds a cache; the result is its place. -/
def addCache (capacity : Nat) (w : Workspace) : Nat × Workspace :=
  (w.caches.length, { w with caches := w.caches ++ [Cache.empty w.caches.length capacity] })

/-- Runs a computation on the cache at a place. -/
def onCache {ε α : Type} (i : Nat) (x : Caching ε α) (w : Workspace) : Except ε α × Workspace :=
  let (result, cache) := x.run (w.cacheAt i)
  (result, { w with caches := w.caches.set i cache })

def clearCache (i : Nat) (w : Workspace) : Workspace :=
  { w with caches := w.caches.set i (w.cacheAt i).clear }

/-- An engine on the cache at a place. Its constants have to be scalars. -/
def addEngine (settings : Settings) (cache : Nat) (w : Workspace) : Except FormulaError Engine × Workspace :=
  match settings.invalidConstant? with
  | some name => (.error (.invalidConstant name), w)
  | none => (.ok ⟨w.nextId, settings, cache⟩, { w with nextId := w.nextId + 1 })

/-- An engine with a cache of its own. -/
def addLoneEngine (settings : Settings) (capacity : Nat) (w : Workspace) :
    Except FormulaError Engine × Workspace :=
  let (cache, w) := w.addCache capacity
  w.addEngine settings cache

def read (e : Engine) (text : String) (w : Workspace) : Except FormulaError Formula × Workspace :=
  w.onCache e.cache (ReadingEnv.read ⟨e.settings, e.id⟩ text)

def evaluate (e : Engine) (text : String) (ctx : Context) (w : Workspace) : Outcome × Workspace :=
  let (f, w) := w.read e text
  (do (← f).evaluate ctx, w)

end Workspace

/-- Reads one formula with options and a table of functions. -/
def Options.read (o : Options) (functions : FunctionTable) (text : String) : Except FormulaError Formula := do
  let settings ← o.toSettings functions
  let (engine, w) := Workspace.empty.addLoneEngine settings o.cacheCapacity
  (w.read (← engine) text).1

end ExactFormula
