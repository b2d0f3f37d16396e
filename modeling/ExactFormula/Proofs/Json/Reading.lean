import ExactFormula.Json.Reader
import ExactFormula.Proofs.Json.Written

/-!
What the JSON reader makes of text whose numbers are strings. `Reads` says that a text is one value
wherever a value may stand, with anything behind it; it has one rule a construct.
-/

namespace ExactFormula.Json

/-! ## Tokens -/

def Blank (cs : List Char) : Prop := ∀ c ∈ cs, isSpace c = true

theorem tokens_blank {w : List Char} (h : Blank w) (cs : List Char) : tokens (w ++ cs) = tokens cs := by
  induction w with
  | nil => rfl
  | cons c w ih =>
    obtain ⟨space, h⟩ := List.forall_mem_cons.1 h
    rw [List.cons_append, tokens, Text.scan_cons, tokenStep, space]
    exact ih h

theorem tokens_punctuation {c : Char} {t : Token} (h : punctuation? c = some t) (cs : List Char) :
    tokens (c :: cs) = t :: tokens cs := by
  have kinds : c = '{' ∨ c = '}' ∨ c = '[' ∨ c = ']' ∨ c = ':' ∨ c = ',' := by
    unfold punctuation? at h
    split at h
    case h_7 => cases h
    all_goals decide
  rw [tokens, Text.scan_cons]
  rcases kinds with rfl | rfl | rfl | rfl | rfl | rfl <;> cases h <;> rfl

theorem tokens_string {raw text : List Char} (h : Written '"' raw text) (cs : List Char) :
    tokens ('"' :: (raw ++ '"' :: cs)) = .string (.ok text) :: tokens cs := by
  have step : tokenStep () '"' (raw ++ '"' :: cs) = .swallow [.string (.ok text)] (raw.length + 1) () := by
    have space : isSpace '"' = false := rfl
    simp only [tokenStep, space, h.stringLength_eq cs, h.content_eq cs]
    rfl
  have rest : (raw ++ '"' :: cs).drop (raw.length + 1) = cs := by simp
  rw [tokens, Text.scan_cons, step]
  dsimp only [Text.Step.swallow]
  rw [rest]
  rfl

theorem tokens_null (cs : List Char) : tokens (nullChars ++ cs) = .null :: tokens cs := by
  rw [nullChars, List.cons_append, tokens, Text.scan_cons]
  rfl

theorem tokens_bool (b : Bool) (cs : List Char) : tokens (boolChars b ++ cs) = .bool b :: tokens cs := by
  cases b <;> rw [boolChars] <;> simp only [Bool.false_eq_true, ↓reduceIte] <;>
    rw [List.cons_append, tokens, Text.scan_cons] <;> rfl

/-- No token starts with the character, and it is no space. -/
structure Stray (c : Char) : Prop where
  space : isSpace c = false
  quote : c ≠ '"'
  number : c ≠ '-' ∧ c.isDigit = false
  punctuation : punctuation? c = none
  word : word? c = none

theorem Stray.tokens_eq {c : Char} (h : Stray c) (cs : List Char) :
    tokens (c :: cs) = [.broken false .malformed .malformed] := by
  have step : tokenStep () c cs = .stop [.broken false .malformed .malformed] := by
    simp [tokenStep, h.space, h.quote, h.number, h.punctuation, h.word]
  rw [tokens, Text.scan_cons, step]
  rfl

/-! ## Values -/

variable {limit : Nat}

theorem readFrom_step {e : Expect} {outer : List Frame} {t : Token} {ts : List Token} {place : Place}
    (h : step limit e outer t = .ok place) (unfinished : outer = [] → ∀ v, e ≠ .next v) :
    readFrom limit (e, outer) (t :: ts) = readFrom limit place ts := by
  rw [readFrom]
  · rw [h]
  · rintro v rfl rfl
    exact unfinished rfl v rfl

/-- A value may come next. -/
def Expect.IsValue (e : Expect) : Prop := e = .value ∨ e = .firstItem

/-- A member may come next. -/
def Expect.IsKey (e : Expect) : Prop := e = .key ∨ e = .firstKey

/-- The text is this value, which nests at most `depth` deep, wherever a value may stand. -/
def Reads (limit depth : Nat) (cs : List Char) (j : Json) : Prop :=
  ∀ (e : Expect) (outer : List Frame) (rest : List Char), e.IsValue → outer.length + depth < limit →
    readFrom limit (e, outer) (tokens (cs ++ rest)) = readFrom limit (.next j, outer) (tokens rest)

/-- The text holds these items, at least one, and closes the array around them. -/
def ReadsItems (limit depth : Nat) (cs : List Char) (js : List Json) : Prop :=
  ∀ (e : Expect) (acc : List Json) (outer : List Frame) (rest : List Char), e.IsValue →
    outer.length + 1 + depth < limit →
      readFrom limit (e, .array acc :: outer) (tokens (cs ++ rest)) =
        readFrom limit (.next (.array (acc.reverse ++ js)), outer) (tokens rest)

/-- The text holds at least one member, puts its members to those before, and closes the object. -/
def ReadsMembers (limit depth : Nat) (cs : List Char) (put : Entries Json → Entries Json) : Prop :=
  ∀ (e : Expect) (acc : Entries Json) (outer : List Frame) (rest : List Char), e.IsKey →
    outer.length + 1 + depth < limit →
      readFrom limit (e, .object acc "" :: outer) (tokens (cs ++ rest)) =
        readFrom limit (.next (.object (put acc)), outer) (tokens rest)

variable {depth : Nat} {j : Json} {js : List Json} {put : Entries Json → Entries Json}
  {cs cs' w w' raw text : List Char}

theorem Reads.mono {d : Nat} (h : Reads limit d cs j) (le : d ≤ depth) : Reads limit depth cs j :=
  fun e outer rest value shallow => h e outer rest value (by omega)

theorem ReadsItems.mono {d : Nat} (h : ReadsItems limit d cs js) (le : d ≤ depth) :
    ReadsItems limit depth cs js :=
  fun e acc outer rest value shallow => h e acc outer rest value (by omega)

theorem ReadsMembers.mono {d : Nat} (h : ReadsMembers limit d cs put) (le : d ≤ depth) :
    ReadsMembers limit depth cs put :=
  fun e acc outer rest value shallow => h e acc outer rest value (by omega)

/-! ### Scalars -/

/-- Nothing but a closing bracket is read as something else than a value. -/
theorem step_value {e : Expect} (h : e.IsValue) (outer : List Frame) (t : Token) (open_ : t ≠ .closeBracket) :
    step limit e outer t = startValue limit outer t := by
  rcases h with rfl | rfl
  · rfl
  · unfold step
    split <;> simp_all

theorem readFrom_value {e : Expect} (h : e.IsValue) {outer : List Frame} {t : Token} {ts : List Token}
    {place : Place} (open_ : t ≠ .closeBracket) (start : startValue limit outer t = .ok place) :
    readFrom limit (e, outer) (t :: ts) = readFrom limit place ts := by
  refine readFrom_step ((step_value h outer t open_).trans start) ?_
  rcases h with rfl | rfl <;> exact fun _ _ => nofun

theorem Reads.string (h : Written '"' raw text) :
    Reads limit depth ('"' :: (raw ++ ['"'])) (.string (String.ofList text)) := by
  intro e outer rest value _
  rw [List.cons_append, List.append_assoc, List.singleton_append, tokens_string h]
  exact readFrom_value value nofun rfl

theorem Reads.null : Reads limit depth nullChars .null := by
  intro e outer rest value _
  rw [tokens_null]
  exact readFrom_value value nofun rfl

theorem Reads.bool (b : Bool) : Reads limit depth (boolChars b) (.bool b) := by
  intro e outer rest value _
  rw [tokens_bool]
  exact readFrom_value value nofun rfl

/-! ### Arrays -/

theorem readFrom_openBracket {e : Expect} (h : e.IsValue) {outer : List Frame} (room : outer.length + 1 < limit)
    (ts : List Token) : readFrom limit (e, outer) (.openBracket :: ts) =
      readFrom limit (.firstItem, .array [] :: outer) ts :=
  readFrom_value h nofun (if_neg (Nat.not_le.2 room))

theorem readFrom_nextItem (acc : List Json) (outer : List Frame) (ts : List Token) :
    readFrom limit (.next j, .array acc :: outer) (.comma :: ts) =
      readFrom limit (.value, .array (j :: acc) :: outer) ts :=
  readFrom_step rfl nofun

theorem readFrom_closeBracket (acc : List Json) (outer : List Frame) (ts : List Token) :
    readFrom limit (.next j, .array acc :: outer) (.closeBracket :: ts) =
      readFrom limit (.next (.array (acc.reverse ++ [j])), outer) ts := by
  rw [← List.reverse_cons]
  exact readFrom_step rfl nofun

theorem Reads.emptyArray (blank : Blank w) : Reads limit 1 ('[' :: (w ++ [']'])) (.array []) := by
  intro e outer rest value room
  rw [List.cons_append, List.append_assoc, List.singleton_append, tokens_punctuation rfl,
    readFrom_openBracket value room, tokens_blank blank, tokens_punctuation rfl]
  exact readFrom_step rfl nofun

theorem Reads.array (h : ReadsItems limit depth cs js) :
    Reads limit (depth + 1) ('[' :: cs) (.array js) := by
  intro e outer rest value shallow
  rw [List.cons_append, tokens_punctuation rfl, readFrom_openBracket value (by omega),
    h .firstItem [] outer rest (.inr rfl) (by omega)]
  rfl

theorem ReadsItems.last (before : Blank w) (h : Reads limit depth cs j) (after : Blank w') :
    ReadsItems limit depth (w ++ (cs ++ (w' ++ [']']))) [j] := by
  intro e acc outer rest value shallow
  simp only [List.append_assoc, List.singleton_append]
  rw [tokens_blank before, h e (.array acc :: outer) _ value shallow, tokens_blank after,
    tokens_punctuation rfl, readFrom_closeBracket]

theorem ReadsItems.more (before : Blank w) (h : Reads limit depth cs j) (after : Blank w')
    (hs : ReadsItems limit depth cs' js) :
    ReadsItems limit depth (w ++ (cs ++ (w' ++ ',' :: cs'))) (j :: js) := by
  intro e acc outer rest value shallow
  simp only [List.append_assoc, List.cons_append]
  rw [tokens_blank before, h e (.array acc :: outer) _ value shallow, tokens_blank after,
    tokens_punctuation rfl, readFrom_nextItem, hs .value (j :: acc) outer rest (.inl rfl) shallow,
    List.reverse_cons, List.append_assoc, List.singleton_append]

/-! ### Objects -/

theorem readFrom_openBrace {e : Expect} (h : e.IsValue) {outer : List Frame} (room : outer.length + 1 < limit)
    (ts : List Token) : readFrom limit (e, outer) (.openBrace :: ts) =
      readFrom limit (.firstKey, .object [] "" :: outer) ts :=
  readFrom_value h nofun (if_neg (Nat.not_le.2 room))

theorem readFrom_nextMember (acc : Entries Json) (key : String) (outer : List Frame) (ts : List Token) :
    readFrom limit (.next j, .object acc key :: outer) (.comma :: ts) =
      readFrom limit (.key, .object (acc.put key j) "" :: outer) ts :=
  readFrom_step rfl nofun

theorem readFrom_closeBrace (acc : Entries Json) (key : String) (outer : List Frame) (ts : List Token) :
    readFrom limit (.next j, .object acc key :: outer) (.closeBrace :: ts) =
      readFrom limit (.next (.object (acc.put key j)), outer) ts :=
  readFrom_step rfl nofun

theorem Reads.emptyObject (blank : Blank w) : Reads limit 1 ('{' :: (w ++ ['}'])) (.object []) := by
  intro e outer rest value room
  rw [List.cons_append, List.append_assoc, List.singleton_append, tokens_punctuation rfl,
    readFrom_openBrace value room, tokens_blank blank, tokens_punctuation rfl]
  exact readFrom_step rfl nofun

theorem Reads.object (h : ReadsMembers limit depth cs put) :
    Reads limit (depth + 1) ('{' :: cs) (.object (put [])) := by
  intro e outer rest value shallow
  rw [List.cons_append, tokens_punctuation rfl, readFrom_openBrace value (by omega),
    h .firstKey [] outer rest (.inr rfl) (by omega)]

/-- A key with its colon, and blanks around both. -/
def keyChars (w raw w₁ w₂ : List Char) : List Char := w ++ '"' :: (raw ++ '"' :: (w₁ ++ ':' :: w₂))

theorem readFrom_key {w₁ w₂ : List Char} {e : Expect} (key : e.IsKey) (before : Blank w)
    (written : Written '"' raw text) (colon : Blank w₁) (after : Blank w₂) (acc : Entries Json)
    (outer : List Frame) (cs : List Char) :
    readFrom limit (e, .object acc "" :: outer) (tokens (keyChars w raw w₁ w₂ ++ cs)) =
      readFrom limit (.value, .object acc (String.ofList text) :: outer) (tokens cs) := by
  have start : step limit e (.object acc "" :: outer) (.string (.ok text)) =
      .ok (.colon, .object acc (String.ofList text) :: outer) := by
    rcases key with rfl | rfl <;> rfl
  have unfinished : ∀ v, e ≠ .next v := by
    rcases key with rfl | rfl <;> nofun
  simp only [keyChars, List.append_assoc, List.cons_append]
  rw [tokens_blank before, tokens_string written, readFrom_step start fun _ => unfinished, tokens_blank colon,
    tokens_punctuation rfl, ← tokens_blank after cs]
  exact readFrom_step rfl nofun

theorem ReadsMembers.last {w₁ w₂ : List Char} (before : Blank w) (written : Written '"' raw text)
    (colon : Blank w₁) (between : Blank w₂) (h : Reads limit depth cs j) (after : Blank w') :
    ReadsMembers limit depth (keyChars w raw w₁ w₂ ++ (cs ++ (w' ++ ['}'])))
      (Entries.put (String.ofList text) j) := by
  intro e acc outer rest key shallow
  simp only [List.append_assoc, List.singleton_append]
  rw [readFrom_key key before written colon between,
    h .value (.object acc _ :: outer) _ (.inl rfl) shallow, tokens_blank after, tokens_punctuation rfl,
    readFrom_closeBrace]

theorem ReadsMembers.more {w₁ w₂ : List Char} (before : Blank w) (written : Written '"' raw text)
    (colon : Blank w₁) (between : Blank w₂) (h : Reads limit depth cs j) (after : Blank w')
    (hs : ReadsMembers limit depth cs' put) :
    ReadsMembers limit depth (keyChars w raw w₁ w₂ ++ (cs ++ (w' ++ ',' :: cs')))
      (fun acc => put (acc.put (String.ofList text) j)) := by
  intro e acc outer rest key shallow
  simp only [List.append_assoc, List.cons_append]
  rw [readFrom_key key before written colon between,
    h .value (.object acc _ :: outer) _ (.inl rfl) shallow, tokens_blank after, tokens_punctuation rfl,
    readFrom_nextMember, hs .key _ outer rest (.inl rfl) shallow]

/-- Behind a value inside a structure, nothing but a comma or a closing bracket goes on. -/
theorem readFrom_strayBehind {c : Char} (stray : Stray c) (v : Json) (frame : Frame) (outer : List Frame)
    (cs : List Char) : readFrom limit (.next v, frame :: outer) (tokens (c :: cs)) = .error .malformed := by
  rw [stray.tokens_eq]
  cases frame <;> rfl

/-! ### Whole texts -/

theorem Reads.ofChars_eq (h : Reads nestingLimit depth cs j) (shallow : depth < nestingLimit)
    (before : Blank w) (after : Blank w') : ofChars (w ++ (cs ++ w')) = .ok j := by
  have ended : tokens w' = [] := by
    rw [← List.append_nil w', tokens_blank after]
    rfl
  have read : readValue nestingLimit (tokens (w ++ (cs ++ w'))) = .ok (j, []) := by
    rw [tokens_blank before, readValue, h .value [] w' (.inl rfl) (by simpa using shallow), ended]
    rfl
  rw [ofChars, ofTokens, read]

theorem ofChars_stray {w₁ w₂ : List Char} {c : Char} (before : Blank w) (written : Written '"' raw text)
    (colon : Blank w₁) (between : Blank w₂) (h : Reads nestingLimit depth cs j) (shallow : depth + 1 < nestingLimit)
    (after : Blank w') (stray : Stray c) (rest : List Char) :
    ofChars ('{' :: (keyChars w raw w₁ w₂ ++ (cs ++ (w' ++ c :: rest)))) = .error .malformed := by
  rw [ofChars, ofTokens, readValue, tokens_punctuation rfl, readFrom_openBrace (.inl rfl) (by decide),
    readFrom_key (.inr rfl) before written colon between,
    h .value _ _ (.inl rfl) (by simpa [Nat.add_comm] using shallow), tokens_blank after, readFrom_strayBehind stray]

/-! ### Limits -/

/-- What is read is read below any higher limit. -/
theorem startValue_mono {limit' : Nat} (le : limit ≤ limit') {outer : List Frame} {t : Token} {place : Place}
    (h : startValue limit outer t = .ok place) : startValue limit' outer t = .ok place := by
  cases t with
  | openBracket | openBrace =>
    simp only [startValue] at h ⊢
    split at h
    case isTrue => cases h
    case isFalse room => rwa [if_neg (by omega)]
  | string content => cases content <;> exact h
  | _ => exact h

theorem step_mono {limit' : Nat} (le : limit ≤ limit') {e : Expect} {outer : List Frame} {t : Token} {place : Place}
    (h : step limit e outer t = .ok place) : step limit' e outer t = .ok place := by
  unfold step at h ⊢
  split at h
  all_goals first | exact startValue_mono le h | exact h

theorem readFrom_mono {limit' : Nat} (le : limit ≤ limit') {place : Place} {ts : List Token}
    {result : Json × List Token} (h : readFrom limit place ts = .ok result) :
    readFrom limit' place ts = .ok result := by
  fun_induction readFrom limit place ts with
  | case1 v ts => rwa [readFrom]
  | case2 => cases h
  | case3 e outer t ts unfinished next stepped ih =>
    rw [readFrom_step (step_mono le stepped) (by rintro rfl v rfl; exact unfinished v rfl rfl)]
    exact ih h
  | case4 => cases h

/-- Where a text is one value if it nests deep enough, nothing else is read in it. -/
theorem eq_of_ofChars (h : ∀ limit, Reads limit depth cs j) {j' : Json} (read : ofChars cs = .ok j') : j' = j := by
  have deep : readValue (max nestingLimit (depth + 1)) (tokens (cs ++ [])) = .ok (j, []) := by
    rw [readValue, h _ .value [] [] (.inl rfl) (Nat.lt_of_lt_of_le (by simp) (Nat.le_max_right ..))]
    rfl
  rw [List.append_nil] at deep
  rw [ofChars, ofTokens] at read
  split at read
  case h_1 v found =>
    have same := (readFrom_mono (Nat.le_max_left ..) found).symm.trans deep
    cases read
    cases same
    rfl
  all_goals cases read

end ExactFormula.Json
