import ExactFormula.Proofs.Relaxed.Wrapping

/-!
Outlines of documents: where arrays and objects open, go on and close. What stands in between is left open, as names,
values, gaps where a value is due, and what stands where none is: what the scan for calls makes of each of those, it
makes of them in the whole.
-/

namespace ExactFormula.Relaxed

mutual
/-- A value that is no structure, or a structure with what stands behind it. -/
inductive Outline (κ α γ δ : Type)
  | leaf (value : α)
  | array (items : Outline.Items κ α γ δ) (after : δ)
  | object (members : Outline.Members κ α γ δ) (after : δ)

/-- What stands behind an opening bracket or a comma of an array. -/
inductive Outline.Items (κ α γ δ : Type)
  | close (gap : γ)
  | last (before : γ) (value : Outline κ α γ δ)
  | more (before : γ) (value : Outline κ α γ δ) (rest : Outline.Items κ α γ δ)

/-- The same of an object, where a name has its colon with it. -/
inductive Outline.Members (κ α γ δ : Type)
  | close (gap : δ)
  | last (name : κ) (value : Outline κ α γ δ)
  | more (name : κ) (value : Outline κ α γ δ) (rest : Outline.Members κ α γ δ)
end

/-- How the parts of an outline are written. -/
structure Spelling (κ α γ δ : Type) where
  name : κ → List Char
  leaf : α → List Char
  gap : γ → List Char
  after : δ → List Char

namespace Outline

variable {κ α γ δ : Type}

mutual
def chars (s : Spelling κ α γ δ) : Outline κ α γ δ → List Char
  | .leaf value => s.leaf value
  | .array items after => '[' :: (items.chars s ++ s.after after)
  | .object members after => '{' :: (members.chars s ++ s.after after)

def Items.chars (s : Spelling κ α γ δ) : Outline.Items κ α γ δ → List Char
  | .close gap => s.gap gap ++ [']']
  | .last before value => s.gap before ++ (value.chars s ++ [']'])
  | .more before value rest => s.gap before ++ (value.chars s ++ ',' :: rest.chars s)

def Members.chars (s : Spelling κ α γ δ) : Outline.Members κ α γ δ → List Char
  | .close gap => s.after gap ++ ['}']
  | .last name value => s.name name ++ (value.chars s ++ ['}'])
  | .more name value rest => s.name name ++ (value.chars s ++ ',' :: rest.chars s)
end

def isLeaf : Outline κ α γ δ → Bool
  | .leaf _ => true
  | _ => false

mutual
/-- How deep arrays and objects nest. -/
def depth : Outline κ α γ δ → Nat
  | .leaf _ => 0
  | .array items _ => items.depth + 1
  | .object members _ => members.depth + 1

def Items.depth : Outline.Items κ α γ δ → Nat
  | .close _ => 0
  | .last _ value => value.depth
  | .more _ value rest => max value.depth rest.depth

def Members.depth : Outline.Members κ α γ δ → Nat
  | .close _ => 0
  | .last _ value => value.depth
  | .more _ value rest => max value.depth rest.depth
end

section

variable (P : κ → Prop) (Q : α → Prop) (R : γ → Prop) (S : δ → Prop)

mutual
/-- All names, values and gaps are as given. -/
def All : Outline κ α γ δ → Prop
  | .leaf value => Q value
  | .array items after => items.All ∧ S after
  | .object members after => members.All ∧ S after

def Items.All : Outline.Items κ α γ δ → Prop
  | .close gap => R gap
  | .last before value => R before ∧ value.All
  | .more before value rest => R before ∧ value.All ∧ rest.All

def Members.All : Outline.Members κ α γ δ → Prop
  | .close gap => S gap
  | .last name value => P name ∧ value.All
  | .more name value rest => P name ∧ value.All ∧ rest.All
end

end

/-! ## Other names and values -/

section

variable {κ' α' : Type} (f : κ → κ') (g : α → α')

mutual
/-- The outline with other names and values in the same places. -/
def map : Outline κ α γ δ → Outline κ' α' γ δ
  | .leaf value => .leaf (g value)
  | .array items after => .array items.map after
  | .object members after => .object members.map after

def Items.map : Outline.Items κ α γ δ → Outline.Items κ' α' γ δ
  | .close gap => .close gap
  | .last before value => .last before value.map
  | .more before value rest => .more before value.map rest.map

def Members.map : Outline.Members κ α γ δ → Outline.Members κ' α' γ δ
  | .close gap => .close gap
  | .last name value => .last (f name) value.map
  | .more name value rest => .more (f name) value.map rest.map
end

variable {f g}

theorem isLeaf_map (o : Outline κ α γ δ) : (o.map f g).isLeaf = o.isLeaf := by
  cases o <;> rfl

mutual
theorem depth_map : (o : Outline κ α γ δ) → (o.map f g).depth = o.depth
  | .leaf _ => rfl
  | .array items _ => by rw [map, depth, depth, Items.depth_map items]
  | .object members _ => by rw [map, depth, depth, Members.depth_map members]

theorem Items.depth_map : (items : Outline.Items κ α γ δ) → (items.map f g).depth = items.depth
  | .close _ => rfl
  | .last _ value => by rw [Items.map, Items.depth, Items.depth, value.depth_map]
  | .more _ value rest => by rw [Items.map, Items.depth, Items.depth, value.depth_map, Items.depth_map rest]

theorem Members.depth_map : (members : Outline.Members κ α γ δ) → (members.map f g).depth = members.depth
  | .close _ => rfl
  | .last _ value => by rw [Members.map, Members.depth, Members.depth, value.depth_map]
  | .more _ value rest => by
    rw [Members.map, Members.depth, Members.depth, value.depth_map, Members.depth_map rest]
end

variable {P : κ → Prop} {P' : κ' → Prop} {Q : α → Prop} {Q' : α' → Prop} {R : γ → Prop} {S : δ → Prop}

mutual
theorem All.map (names : ∀ n, P n → P' (f n)) (values : ∀ v, Q v → Q' (g v)) :
    (o : Outline κ α γ δ) → o.All P Q R S → (o.map f g).All P' Q' R S
  | .leaf value, all => values value all
  | .array items _, all => ⟨Items.All.map names values items all.1, all.2⟩
  | .object members _, all => ⟨Members.All.map names values members all.1, all.2⟩

theorem Items.All.map (names : ∀ n, P n → P' (f n)) (values : ∀ v, Q v → Q' (g v)) :
    (items : Outline.Items κ α γ δ) → items.All P Q R S → (items.map f g).All P' Q' R S
  | .close _, all => all
  | .last _ value, all => ⟨all.1, All.map names values value all.2⟩
  | .more _ value rest, all =>
    ⟨all.1, All.map names values value all.2.1, Items.All.map names values rest all.2.2⟩

theorem Members.All.map (names : ∀ n, P n → P' (f n)) (values : ∀ v, Q v → Q' (g v)) :
    (members : Outline.Members κ α γ δ) → members.All P Q R S → (members.map f g).All P' Q' R S
  | .close _, all => all
  | .last name value, all => ⟨names name all.1, All.map names values value all.2⟩
  | .more name value rest, all =>
    ⟨names name all.1, All.map names values value all.2.1, Members.All.map names values rest all.2.2⟩
end

end

/-! ## The scan for calls -/

/-- Names and gaps are copied, each with the state that it leads to, and a value becomes what is given for it. -/
structure Wraps (marker : List Char) (s : Spelling κ α γ δ) (leaf : α → List Char) (P : κ → Prop) (Q : α → Prop)
    (R : γ → Prop) (S : δ → Prop) : Prop where
  name : ∀ n, P n → ∀ structures rest, wrapFrom marker ⟨true :: structures, true, false⟩ (s.name n ++ rest) =
    s.name n ++ wrapFrom marker ⟨true :: structures, false, true⟩ rest
  leaf : ∀ v, Q v → ∀ structures, ∃ key value, ∀ rest, ValueEnds rest →
    wrapFrom marker ⟨structures, false, true⟩ (s.leaf v ++ rest) =
      leaf v ++ wrapFrom marker ⟨structures, key, value⟩ rest
  gap : ∀ g, R g → ∀ state rest, wrapFrom marker state (s.gap g ++ rest) = s.gap g ++ wrapFrom marker state rest
  after : ∀ t, S t → ∀ state : WrapState, (state.atKey || !state.atValue) = true → ∀ rest,
    wrapFrom marker state (s.after t ++ rest) = s.after t ++ wrapFrom marker state rest

variable {marker : List Char} {s : Spelling κ α γ δ} {leaf : α → List Char} {P : κ → Prop} {Q : α → Prop} {R : γ → Prop}
  {S : δ → Prop}

mutual
theorem wrapFrom_eq (h : Wraps marker s leaf P Q R S) : (o : Outline κ α γ δ) → o.All P Q R S →
    (structures : List Bool) → ∃ key value, ∀ rest, ValueEnds rest →
    wrapFrom marker ⟨structures, false, true⟩ (o.chars s ++ rest) =
      o.chars { s with leaf } ++ wrapFrom marker ⟨structures, key, value⟩ rest
  | .leaf v, all, structures => by
    rw [All] at all
    rw [chars, chars]
    exact h.leaf v all structures
  | .array items after, all, structures => by
    rw [All] at all
    refine ⟨false, false, fun rest _ => ?_⟩
    rw [chars, chars, List.cons_append, wrapFrom_openBracket, List.append_assoc, Items.wrapFrom_eq h items all.1,
      h.after after all.2 _ rfl, List.cons_append, List.append_assoc]
  | .object members after, all, structures => by
    rw [All] at all
    refine ⟨false, false, fun rest _ => ?_⟩
    rw [chars, chars, List.cons_append, wrapFrom_openBrace, List.append_assoc, Members.wrapFrom_eq h members all.1,
      h.after after all.2 _ rfl, List.cons_append, List.append_assoc]

theorem Items.wrapFrom_eq (h : Wraps marker s leaf P Q R S) : (items : Outline.Items κ α γ δ) → items.All P Q R S →
    (structures : List Bool) → (rest : List Char) →
    wrapFrom marker ⟨false :: structures, false, true⟩ (items.chars s ++ rest) =
      items.chars { s with leaf } ++ wrapFrom marker ⟨structures, false, false⟩ rest
  | .close gap, all, structures, rest => by
    rw [Items.All] at all
    simp only [Items.chars, List.append_assoc, List.singleton_append]
    rw [h.gap gap all, wrapFrom_closer (.inr rfl)]
    rfl
  | .last before value, all, structures, rest => by
    rw [Items.All] at all
    obtain ⟨_, _, scanned⟩ := value.wrapFrom_eq h all.2 (false :: structures)
    simp only [Items.chars, List.append_assoc, List.singleton_append]
    rw [h.gap before all.1, scanned _ (.mark (.inr (.inr rfl))), wrapFrom_closer (.inr rfl)]
    rfl
  | .more before value items, all, structures, rest => by
    rw [Items.All] at all
    obtain ⟨key, due, scanned⟩ := value.wrapFrom_eq h all.2.1 (false :: structures)
    have comma : WrapState.afterComma ⟨false :: structures, key, due⟩ = ⟨false :: structures, false, true⟩ := rfl
    simp only [Items.chars, List.append_assoc, List.cons_append]
    rw [h.gap before all.1, scanned _ (.mark (.inl rfl)), wrapFrom_comma, comma,
      Items.wrapFrom_eq h items all.2.2]

theorem Members.wrapFrom_eq (h : Wraps marker s leaf P Q R S) : (members : Outline.Members κ α γ δ) →
    members.All P Q R S → (structures : List Bool) → (rest : List Char) →
    wrapFrom marker ⟨true :: structures, true, false⟩ (members.chars s ++ rest) =
      members.chars { s with leaf } ++ wrapFrom marker ⟨structures, false, false⟩ rest
  | .close gap, all, structures, rest => by
    rw [Members.All] at all
    simp only [Members.chars, List.append_assoc, List.singleton_append]
    rw [h.after gap all _ rfl, wrapFrom_closer (.inl rfl)]
    rfl
  | .last name value, all, structures, rest => by
    rw [Members.All] at all
    obtain ⟨_, _, scanned⟩ := value.wrapFrom_eq h all.2 (true :: structures)
    simp only [Members.chars, List.append_assoc, List.singleton_append]
    rw [h.name name all.1, scanned _ (.mark (.inr (.inl rfl))), wrapFrom_closer (.inl rfl)]
    rfl
  | .more name value members, all, structures, rest => by
    rw [Members.All] at all
    obtain ⟨key, due, scanned⟩ := value.wrapFrom_eq h all.2.1 (true :: structures)
    have comma : WrapState.afterComma ⟨true :: structures, key, due⟩ = ⟨true :: structures, true, false⟩ := rfl
    simp only [Members.chars, List.append_assoc, List.cons_append]
    rw [h.name name all.1, scanned _ (.mark (.inl rfl)), wrapFrom_comma, comma,
      Members.wrapFrom_eq h members all.2.2]
end

/-- A structure stays as it is but for its values. -/
theorem wrapCalls_eq (h : Wraps marker s leaf P Q R S) {o : Outline κ α γ δ} (root : o.isLeaf = false)
    (all : o.All P Q R S) : wrapCalls marker (o.chars s) = o.chars { s with leaf } := by
  obtain ⟨_, _, scanned⟩ := o.wrapFrom_eq h all []
  have whole := scanned [] .ended
  rw [List.append_nil] at whole
  cases o with
  | leaf => cases root
  | array | object =>
    rw [chars] at whole ⊢
    exact whole.trans (List.append_nil _)

end Outline

end ExactFormula.Relaxed
