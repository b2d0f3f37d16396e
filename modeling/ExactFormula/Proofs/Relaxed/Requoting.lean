import ExactFormula.Proofs.Relaxed.WrappedValues

/-!
Strings in a value with a call, before and after its single quotes become double ones. The scan that turns them knows no
backticks and escapes nothing, so it counts double quotes: the strings come out with their contents exactly where each
single quote that is no delimiter stands behind an odd number of them.
-/

namespace ExactFormula.Relaxed

/-! ## Readings -/

/-- A character outside all strings, or a string up to its own closing quote. -/
inductive Atom
  | char (c : Char) (plain : Text.isQuote c = false)
  | string (quote : Char) (content : List Char) (isQuote : Text.isQuote quote = true) (inside : quote ∉ content)

def Atom.chars : Atom → List Char
  | char c _ => [c]
  | string q content _ _ => q :: (content ++ [q])

def textOf (as : List Atom) : List Char := as.flatMap Atom.chars

/-- The same character, or strings of the same content. Only of a single-quoted one the delimiters may differ. -/
inductive Atom.Same : Atom → Atom → Prop
  | char {c : Char} (plain : Text.isQuote c = false) : Same (.char c plain) (.char c plain)
  | string {q q' : Char} {content : List Char} (isQuote : Text.isQuote q = true) (inside : q ∉ content)
    (isQuote' : Text.isQuote q' = true) (inside' : q' ∉ content) (delimiter : q' = q ∨ q = '\'') :
    Same (.string q content isQuote inside) (.string q' content isQuote' inside')

theorem textOf_cons (a : Atom) (as : List Atom) : textOf (a :: as) = a.chars ++ textOf as := List.flatMap_cons

/-! ## Requoting -/

/-- Whether a text ends behind an odd number of double quotes, when it starts so. -/
def parity : Bool → List Char → Bool
  | odd, [] => odd
  | odd, c :: cs => parity (odd != (c == '"')) cs

/-- Each single quote stands behind an odd number of double quotes. -/
def Held : Bool → List Char → Prop
  | _, [] => True
  | odd, c :: cs => (c = '\'' → odd = true) ∧ Held (odd != (c == '"')) cs

/-- What the scan keeps the content of, behind so many double quotes. Outside their strings, a single-quoted one is
given double quotes. -/
def Atom.Fits (odd : Bool) : Atom → Prop
  | char _ _ => True
  | string q content _ _ => if q = '\'' ∧ odd = false then '"' ∉ content else Held odd (q :: (content ++ [q]))

/-- Each part of the text fits where it stands. -/
def Fit : Bool → List Atom → Prop
  | _, [] => True
  | odd, a :: as => a.Fits odd ∧ Fit (parity odd a.chars) as

variable {odd : Bool} {cs rest rest' : List Char}

/-- Outside single-quoted strings, text is kept where it is held, and only there. -/
theorem requoteSingles_keeps (unescaped : '\\' ∉ cs) : requoteSingles false odd false (cs ++ rest) = cs ++ rest' ↔
    Held odd cs ∧ requoteSingles false (parity odd cs) false rest = rest' := by
  induction cs generalizing odd with
  | nil => simp [Held, parity]
  | cons c cs ih =>
    obtain ⟨first, unescaped⟩ := not_or.1 (List.mem_cons.not.1 unescaped)
    rw [List.cons_append, List.cons_append, Held, parity, and_assoc, ← ih unescaped, requoteSingles]
    by_cases double : c = '"'
    · subst double
      simp
    by_cases single : c = '\''
    · subst single
      cases odd <;> simp
    · have doubles : (c == '"') = false := beq_eq_false_iff_ne.2 double
      simp [doubles, single, Ne.symm first]

/-- A single-quoted string behind an even number of double quotes is given double quotes. -/
theorem requoteSingles_single (inside : '\'' ∉ cs) (unescaped : '\\' ∉ cs) :
    requoteSingles true false false (cs ++ '\'' :: rest) = cs ++ '"' :: requoteSingles false false false rest := by
  induction cs with
  | nil => simp [requoteSingles]
  | cons c cs ih =>
    obtain ⟨first, unescaped⟩ := not_or.1 (List.mem_cons.not.1 unescaped)
    obtain ⟨other, inside⟩ := not_or.1 (List.mem_cons.not.1 inside)
    rw [List.cons_append, requoteSingles, List.cons_append, ← ih inside unescaped]
    simp [Ne.symm first, Ne.symm other]

theorem parity_eq_of_doubleless (h : '"' ∉ cs) : parity odd cs = odd := by
  induction cs with
  | nil => rfl
  | cons c cs ih =>
    obtain ⟨other, h⟩ := not_or.1 (List.mem_cons.not.1 h)
    rw [parity, beq_eq_false_iff_ne.2 (Ne.symm other), Bool.bne_false, ih h]

theorem requoteSingles_quote {q : Char} (isQuote : Text.isQuote q = true) (kept : ¬(q = '\'' ∧ odd = false)) :
    requoteSingles false odd false (q :: cs) = q :: requoteSingles false (odd != (q == '"')) false cs := by
  rcases Text.isQuote_cases isQuote with rfl | rfl | rfl <;> cases odd <;> simp_all [requoteSingles]

/-- One part of the text comes out the same exactly where it fits. -/
theorem Atom.requoteSingles_iff (a : Atom) (unescaped : '\\' ∉ a.chars) :
    (∃ a', a.Same a' ∧ requoteSingles false odd false (a.chars ++ rest) = a'.chars ++ rest') ↔
      a.Fits odd ∧ requoteSingles false (parity odd a.chars) false rest = rest' := by
  cases a with
  | char c plain =>
    have held : Held odd (char c plain).chars := by
      refine ⟨?_, trivial⟩
      rintro rfl
      cases plain
    have keeps : requoteSingles false odd false ((char c plain).chars ++ rest) = (char c plain).chars ++ rest' ↔
        requoteSingles false (parity odd (char c plain).chars) false rest = rest' :=
      (requoteSingles_keeps unescaped).trans (and_iff_right held)
    rw [Fits, true_and, ← keeps]
    refine ⟨?_, fun kept => ⟨_, .char plain, kept⟩⟩
    rintro ⟨_, ⟨⟩, kept⟩
    exact kept
  | string q content isQuote inside =>
    by_cases turned : q = '\'' ∧ odd = false
    · obtain ⟨rfl, rfl⟩ := turned
      have content_unescaped : '\\' ∉ content := fun mem => unescaped (by simp [chars, mem])
      have requoted : requoteSingles false false false ((string '\'' content isQuote inside).chars ++ rest) =
          '"' :: (content ++ '"' :: requoteSingles false false false rest) := by
        rw [← requoteSingles_single inside content_unescaped]
        simp [chars, requoteSingles]
      have kept (doubleless : '"' ∉ content) : parity false (string '\'' content isQuote inside).chars = false :=
        parity_eq_of_doubleless (by simp [chars, doubleless])
      rw [requoted, Fits, if_pos ⟨rfl, rfl⟩]
      constructor
      · rintro ⟨a', sameAs, same⟩
        cases sameAs with
        | string _ _ isQuote' inside' _ =>
        simp only [chars, List.cons_append, List.append_assoc, List.nil_append, List.cons.injEq] at same
        obtain ⟨rfl, behind⟩ := same
        rw [kept inside']
        exact ⟨inside', by simpa using behind⟩
      · rintro ⟨doubleless, rfl⟩
        refine ⟨.string '"' content rfl doubleless, .string _ _ _ _ (.inr rfl), ?_⟩
        rw [kept doubleless]
        simp [chars]
    · rw [Fits, if_neg turned, ← chars.eq_2 q content isQuote inside, ← requoteSingles_keeps unescaped]
      refine ⟨?_, fun kept => ⟨_, .string isQuote inside isQuote inside (.inl rfl), kept⟩⟩
      rintro ⟨a', sameAs, same⟩
      cases sameAs with
      | @string _ q' _ _ _ isQuote' inside' _ =>
      have head : q' = q := by
        rw [chars, List.cons_append, requoteSingles_quote isQuote turned] at same
        exact (List.cons.inj same).1.symm
      subst head
      exact same

/-- The whole text has the same strings exactly where all of it fits. -/
theorem requoteSingles_same_iff (as : List Atom) (unescaped : '\\' ∉ textOf as) :
    (∃ as', requoteSingles false odd false (textOf as) = textOf as' ∧ List.Forall₂ Atom.Same as as') ↔ Fit odd as := by
  induction as generalizing odd with
  | nil => simp [textOf, requoteSingles, Fit]
  | cons a as ih =>
    rw [textOf_cons, List.mem_append, not_or] at unescaped
    obtain ⟨first, unescaped⟩ := unescaped
    rw [Fit, ← ih unescaped]
    constructor
    · rintro ⟨_, same, all⟩
      cases all with
      | @cons _ a' _ as' sameFirst sameRest =>
      rw [textOf_cons, textOf_cons] at same
      obtain ⟨fits, rest⟩ := (a.requoteSingles_iff first).1 ⟨a', sameFirst, same⟩
      exact ⟨fits, as', rest, sameRest⟩
    · rintro ⟨fits, as', rest, sameRest⟩
      obtain ⟨a', sameFirst, same⟩ := (a.requoteSingles_iff first).2 ⟨fits, rest⟩
      refine ⟨a' :: as', ?_, .cons sameFirst sameRest⟩
      rw [textOf_cons, textOf_cons, same]

/-- No single-quoted string holds a double quote, and no string in backticks a quote of another kind. -/
def Atom.Unmixed : Atom → Prop
  | char _ _ => True
  | string q content _ _ => q = '"' ∨ '"' ∉ content ∧ (q = '\'' ∨ '\'' ∉ content)

theorem held_of_singleless (h : '\'' ∉ cs) : Held odd cs := by
  induction cs generalizing odd with
  | nil => trivial
  | cons c cs ih =>
    obtain ⟨other, h⟩ := not_or.1 (List.mem_cons.not.1 h)
    exact ⟨fun same => absurd same.symm other, ih h⟩

theorem held_append : Held odd (cs ++ rest) ↔ Held odd cs ∧ Held (parity odd cs) rest := by
  induction cs generalizing odd with
  | nil => simp [Held, parity]
  | cons c cs ih => rw [List.cons_append, Held, Held, parity, ih, and_assoc]

theorem parity_append : parity odd (cs ++ rest) = parity (parity odd cs) rest := by
  induction cs generalizing odd with
  | nil => rfl
  | cons c cs ih => rw [List.cons_append, parity, parity, ih]

theorem held_of_doubleless (h : '"' ∉ cs) : Held true cs := by
  induction cs with
  | nil => trivial
  | cons c cs ih =>
    obtain ⟨other, h⟩ := not_or.1 (List.mem_cons.not.1 h)
    refine ⟨fun _ => rfl, ?_⟩
    rw [beq_eq_false_iff_ne.2 (Ne.symm other)]
    exact ih h

theorem Atom.Unmixed.fits {a : Atom} (h : a.Unmixed) : a.Fits false ∧ parity false a.chars = false := by
  cases a with
  | char c plain =>
    refine ⟨trivial, parity_eq_of_doubleless ?_⟩
    simp only [chars, List.mem_singleton]
    rintro rfl
    cases plain
  | string q content isQuote inside =>
    by_cases double : q = '"'
    · subst double
      have kept : parity true content = true := parity_eq_of_doubleless inside
      refine ⟨?_, ?_⟩
      · rw [Fits, if_neg (by decide), Held]
        exact ⟨nofun, held_append.2 ⟨held_of_doubleless inside, nofun, trivial⟩⟩
      · rw [chars, parity, parity_append]
        exact congrArg (parity · ['"']) kept
    · obtain ⟨doubleless, single⟩ := h.resolve_left double
      refine ⟨?_, parity_eq_of_doubleless (by simp [chars, doubleless, Ne.symm double])⟩
      rw [Fits]
      split
      case isTrue => exact doubleless
      case isFalse other =>
        have other : q ≠ '\'' := fun same => other ⟨same, rfl⟩
        exact held_of_singleless (by simp [single.resolve_left other, Ne.symm other])

/-- Where strings of different kinds are kept apart, all of the text fits. -/
theorem fit_of_unmixed {as : List Atom} (h : ∀ a ∈ as, a.Unmixed) : Fit false as := by
  induction as with
  | nil => trivial
  | cons a as ih =>
    obtain ⟨first, h⟩ := List.forall_mem_cons.1 h
    obtain ⟨fits, kept⟩ := first.fits
    refine ⟨fits, ?_⟩
    rw [kept]
    exact ih h

/-! ## Values -/

/-- A value that the scan for calls comes to, as far as it takes it. -/
structure ValueAt (marker text before : List Char) (s : WrapState) (segment rest : List Char) : Prop where
  reached : Text.Reaches (wrapStep marker) ⟨[], false, false⟩ text before s (segment ++ rest)
  due : s.atKey = false ∧ s.atValue = true
  starts : ∃ c ∈ segment.head?, isSpace c = false ∧ isStructural c = false
  ends : valueLength 0 0 0 0 (segment ++ rest) = segment.length

/-- A value with a call and a literal is stored with its strings exactly where all of it fits. -/
theorem ValueAt.wrapCalls_strings {marker text before segment rest : List Char} {s : WrapState}
    (h : ValueAt marker text before s segment rest) {as : List Atom} (reading : Text.trim segment = textOf as)
    (calls : Calls (textOf as)) (literal : '{' ∈ textOf as ∨ '[' ∈ textOf as) (unescaped : '\\' ∉ textOf as) :
    wrapCalls marker text = before ++ (Text.quote (marker ++ stored (textOf as)) ++
        wrapFrom marker { s with atKey := s.inObject, atValue := false } rest) ∧
      ((∃ as', stored (textOf as) = textOf as' ∧ List.Forall₂ Atom.Same as as') ↔ Fit false as) := by
  obtain ⟨reached, ⟨key, value⟩, ⟨c, first, space, structural⟩, ends⟩ := h
  obtain ⟨segment, rfl⟩ := List.head?_eq_some_iff.1 first
  have wrapped : wrapFrom marker s (c :: (segment ++ rest)) = Text.quote (marker ++ stored (textOf as)) ++
      wrapFrom marker { s with atKey := s.inObject, atValue := false } rest := by
    rw [wrapFrom_value key value space structural ends, reading, if_pos calls.hasCall_eq, wrapValue_eq_stored]
  have turned : stored (textOf as) = requoteSingles false false false (textOf as) := by
    refine if_pos (List.any_eq_true.2 ?_)
    rcases literal with mem | mem
    · exact ⟨_, mem, rfl⟩
    · exact ⟨_, mem, rfl⟩
  refine ⟨reached.scan_eq.trans (congrArg _ wrapped), ?_⟩
  rw [turned]
  exact requoteSingles_same_iff as unescaped

/-- The characters as they are, quotes left out. -/
def charAtoms (text : List Char) : List Atom :=
  text.flatMap fun c => if plain : Text.isQuote c = false then [.char c plain] else []

def stringAtoms (quote : Char) (content : List Char) : List Atom :=
  if string : Text.isQuote quote = true ∧ quote ∉ content then [.string quote content string.1 string.2] else []

/-- `f(['x', "y"])` -/
def listed : List Atom :=
  charAtoms "f([".toList ++ stringAtoms '\'' ['x'] ++ charAtoms ", ".toList ++ stringAtoms '"' ['y'] ++
    charAtoms "])".toList

/-- `` f([`it's`]) `` -/
def possessive : List Atom :=
  charAtoms "f([".toList ++ stringAtoms '`' ['i', 't', '\'', 's'] ++ charAtoms "])".toList

theorem valueAt_member {value : List Char} (starts : ∃ c ∈ value.head?, isSpace c = false ∧ isStructural c = false)
    (ends : valueLength 0 0 0 0 (value ++ ['}']) = value.length) :
    ValueAt ['#'] ('{' :: 'a' :: ':' :: (value ++ ['}'])) ['{', 'a', ':'] ⟨[true], false, true⟩ value ['}'] where
  reached := by
    have brace (cs : List Char) : wrapStep ['#'] ⟨[], false, false⟩ '{' cs = .swallow ['{'] 0 ⟨[true], true, false⟩ :=
      rfl
    have name (cs : List Char) : wrapStep ['#'] ⟨[true], true, false⟩ 'a' cs = .swallow ['a'] 0 ⟨[true], true, false⟩ :=
      rfl
    have colon (cs : List Char) :
        wrapStep ['#'] ⟨[true], true, false⟩ ':' cs = .swallow [':'] 0 ⟨[true], false, true⟩ :=
      rfl
    exact .next (brace _) (.next (name _) (.next (colon _) (.here _ _)))
  due := ⟨rfl, rfl⟩
  starts := starts
  ends := ends

theorem wrapCalls_strings_listed : String.ofList (textOf listed) = "f(['x', \"y\"])" ∧
    ValueAt ['#'] ('{' :: 'a' :: ':' :: (textOf listed ++ ['}'])) ['{', 'a', ':'] ⟨[true], false, true⟩ (textOf listed)
      ['}'] ∧
    Text.trim (textOf listed) = textOf listed ∧ Calls (textOf listed) ∧ '[' ∈ textOf listed ∧ '\\' ∉ textOf listed ∧
    ∃ as', stored (textOf listed) = textOf as' ∧ List.Forall₂ Atom.Same listed as' := by
  have place : ValueAt ['#'] ('{' :: 'a' :: ':' :: (textOf listed ++ ['}'])) ['{', 'a', ':'] ⟨[true], false, true⟩
      (textOf listed) ['}'] := valueAt_member ⟨'f', rfl, rfl, rfl⟩ (by decide)
  have reading : Text.trim (textOf listed) = textOf listed := by decide
  have calls : Calls (textOf listed) := by decide
  have literal : '[' ∈ textOf listed := by decide
  have unescaped : '\\' ∉ textOf listed := by decide
  have fit : Fit false listed := fit_of_unmixed (by simp [listed, charAtoms, stringAtoms, Atom.Unmixed, Text.isQuote])
  exact ⟨by decide, place, reading, calls, literal, unescaped,
    (place.wrapCalls_strings reading calls (.inr literal) unescaped).2.2 fit⟩

theorem eq_of_same {as as' : List Atom} (h : List.Forall₂ Atom.Same as as')
    (other : ∀ a ∈ as, a.chars.head? ≠ some '\'') : as' = as := by
  induction h with
  | nil => rfl
  | @cons a a' as as' first _ ih =>
    obtain ⟨single, other⟩ := List.forall_mem_cons.1 other
    rw [ih other]
    cases first with
    | char => rfl
    | string _ _ _ _ delimiter =>
      have delimiter := delimiter.resolve_right fun same => single (congrArg some same)
      subst delimiter
      rfl

/-- The single quote inside the backticks is turned as well. -/
theorem wrapCalls_possessive : ¬∀ (marker text before segment rest : List Char) (s : WrapState) (as : List Atom),
    ValueAt marker text before s segment rest → Text.trim segment = textOf as → Calls (textOf as) →
      '{' ∈ textOf as ∨ '[' ∈ textOf as → '\\' ∉ textOf as → ∃ as', List.Forall₂ Atom.Same as as' ∧
        wrapCalls marker text = before ++ (Text.quote (marker ++ textOf as') ++
          wrapFrom marker { s with atKey := s.inObject, atValue := false } rest) := by
  intro kept
  have place : ValueAt ['#'] ('{' :: 'a' :: ':' :: (textOf possessive ++ ['}'])) ['{', 'a', ':'] ⟨[true], false, true⟩
      (textOf possessive) ['}'] := valueAt_member ⟨'f', rfl, rfl, rfl⟩ (by decide)
  obtain ⟨as', same, wrapped⟩ := kept _ _ _ _ _ _ possessive place (by decide) (by decide)
    (.inr (by decide)) (by decide)
  rw [eq_of_same same (by decide)] at wrapped
  exact absurd wrapped (by decide)

end ExactFormula.Relaxed
