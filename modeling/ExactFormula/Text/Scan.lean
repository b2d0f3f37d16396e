/-!
A left-to-right scan of a list. Each step looks at one element and what follows it, writes output,
and either stops or goes on in a new state, swallowing some of the elements that follow. The scan
recurses on the list, so it always ends and never reads past the end.
-/

namespace ExactFormula.Text

structure Step (σ β : Type) where
  output : List β
  next : Option (Nat × σ)

namespace Step

variable {σ β : Type}

def emit (output : List β) (state : σ) : Step σ β := ⟨output, some (0, state)⟩

def swallow (output : List β) (count : Nat) (state : σ) : Step σ β := ⟨output, some (count, state)⟩

def stop (output : List β) : Step σ β := ⟨output, none⟩

end Step

variable {α σ β : Type}

def scanFrom (step : σ → α → List α → Step σ β) (finish : σ → List β) : Nat → σ → List α → List β
  | _, s, [] => finish s
  | skip + 1, s, _ :: xs => scanFrom step finish skip s xs
  | 0, s, x :: xs =>
    (step s x xs).output ++ match (step s x xs).next with
      | none => []
      | some (skip, s) => scanFrom step finish skip s xs

def scan (step : σ → α → List α → Step σ β) (finish : σ → List β) (s : σ) (xs : List α) : List β :=
  scanFrom step finish 0 s xs

variable {step : σ → α → List α → Step σ β} {finish : σ → List β}

theorem scanFrom_eq_drop (skip : Nat) (s : σ) (xs : List α) :
    scanFrom step finish skip s xs = scan step finish s (xs.drop skip) := by
  induction xs generalizing skip with
  | nil => simp [scan, scanFrom]
  | cons x xs ih =>
    cases skip with
    | zero => rfl
    | succ skip => simp [scanFrom, ih]

theorem scan_nil (s : σ) : scan step finish s [] = finish s := rfl

theorem scan_cons (s : σ) (x : α) (xs : List α) :
    scan step finish s (x :: xs) = (step s x xs).output ++ match (step s x xs).next with
      | none => []
      | some (skip, s) => scan step finish s (xs.drop skip) := by
  rw [scan, scanFrom]
  simp only [scanFrom_eq_drop]

theorem scan_emit {s t : σ} {x : α} {xs : List α} {output : List β} (h : step s x xs = .emit output t) :
    scan step finish s (x :: xs) = output ++ scan step finish t xs := by
  rw [scan_cons, h]
  rfl

theorem scan_swallow {s t : σ} {x : α} {xs ys : List α} {output : List β}
    (h : step s x (xs ++ ys) = .swallow output xs.length t) :
    scan step finish s (x :: (xs ++ ys)) = output ++ scan step finish t ys := by
  rw [scan_cons, h]
  simp only [Step.swallow, List.drop_left]

/-- From one state and place the scan comes to another, with this output on its way. -/
inductive Reaches (step : σ → α → List α → Step σ β) : σ → List α → List β → σ → List α → Prop
  | here (s : σ) (xs : List α) : Reaches step s xs [] s xs
  | next {s t u : σ} {x : α} {xs rest : List α} {output out : List β} {skip : Nat}
    (first : step s x xs = .swallow output skip t) (later : Reaches step t (xs.drop skip) out u rest) :
    Reaches step s (x :: xs) (output ++ out) u rest

theorem Reaches.scan_eq {s t : σ} {xs rest : List α} {out : List β} (h : Reaches step s xs out t rest) :
    scan step finish s xs = out ++ scan step finish t rest := by
  induction h with
  | here s xs => rfl
  | next first _ ih =>
    rw [scan_cons, first, List.append_assoc, ← ih]
    rfl

end ExactFormula.Text
