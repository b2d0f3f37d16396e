import ExactFormula.Proofs.Relaxed.Forms

/-!
Texts between single quotes or backticks, with a backslash in front of each backslash and of each quote of that kind.
As a value and as a name, such a text is read as itself, whatever it holds.
-/

namespace ExactFormula.Relaxed

/-! ## Writing -/

/-- A text without control characters, to stand between single quotes or backticks. -/
structure Escaped where
  quote : Char
  text : List Char
  isQuote : quote = '\'' ∨ quote = '`'
  shown : ∀ c ∈ text, 0x20 ≤ c.toNat

def escapeFor (quote c : Char) : List Char := if c = '\\' ∨ c = quote then ['\\', c] else [c]

theorem written_escapeFor (q : Char) {text : List Char} (shown : ∀ c ∈ text, 0x20 ≤ c.toNat) :
    Json.Written q (text.flatMap (escapeFor q)) text := by
  induction text with
  | nil => exact .nil
  | cons c text ih =>
    obtain ⟨control, shown⟩ := List.forall_mem_cons.1 shown
    rw [List.flatMap_cons, escapeFor]
    by_cases backslash : c = '\\'
    · rw [if_pos (.inl backslash), backslash]
      exact .named (by decide) (ih shown)
    · by_cases quote : c = q
      · rw [if_pos (.inr quote), quote]
        exact .quote (ih shown)
      · rw [if_neg (not_or.2 ⟨backslash, quote⟩)]
        exact .plain control quote backslash (ih shown)

def Escaped.quotation (e : Escaped) : Quotation where
  quote := e.quote
  raw := e.text.flatMap (escapeFor e.quote)
  text := e.text
  isQuote := by rcases e.isQuote with quote | quote <;> rw [quote] <;> rfl
  written := written_escapeFor e.quote e.shown

/-! ## Nesting and names -/

/-- The names of an object as they are written. -/
def Outline.Members.names {κ α γ δ : Type} : Outline.Members κ α γ δ → List κ
  | .close _ => []
  | .last name _ => [name]
  | .more name _ rest => name :: rest.names

mutual
theorem Keeps.depth_eq : {d : Draft} → {v : Source} → Keeps d v → v.depth = d.depth
  | _, _, .quoted string after => by rw [Source.depth, Outline.depth]
  | _, _, .bare text after v flat => by rw [flat, Outline.depth]
  | _, _, .array h after => by rw [Source.depth, Outline.depth, h.depth_eq]
  | _, _, .object h after => by rw [Source.depth, Outline.depth, h.depth_eq]

theorem KeepsItems.depth_eq : {items : Outline.Items Key Scrap Gap Gap} → {items' : Items} →
    KeepsItems items items' → items'.depth = items.depth
  | _, _, .close gap gap' => by rw [Items.depth, Outline.Items.depth]
  | _, _, .last before before' after h => by rw [Items.depth, Outline.Items.depth, h.depth_eq]
  | _, _, .more before before' after h hs => by rw [Items.depth, Outline.Items.depth, h.depth_eq, hs.depth_eq]

theorem KeepsMembers.depth_eq : {members : Outline.Members Key Scrap Gap Gap} → {members' : Members} →
    KeepsMembers members members' → members'.depth = members.depth
  | _, _, .close gap gap' => by rw [Members.depth, Outline.Members.depth]
  | _, _, .last key after h => by rw [Members.depth, Outline.Members.depth, h.depth_eq]
  | _, _, .more key after h hs => by rw [Members.depth, Outline.Members.depth, h.depth_eq, hs.depth_eq]
end

/-- A name is added where it comes first. -/
def addName (names : List String) (name : String) : List String := if name ∈ names then names else names ++ [name]

theorem mem_foldl_addName (more : List String) (names : List String) (name : String) :
    name ∈ more.foldl addName names ↔ name ∈ names ∨ name ∈ more := by
  induction more generalizing names with
  | nil => simp
  | cons first more ih =>
    rw [List.foldl_cons, ih, addName]
    split
    case isTrue known =>
      constructor
      · exact Or.imp_right (List.mem_cons_of_mem _)
      · rintro (mem | mem)
        · exact .inl mem
        · rcases List.mem_cons.1 mem with rfl | mem
          · exact .inl known
          · exact .inr mem
    case isFalse => simp [or_assoc]

variable (bare : List Char → Json)

/-- The names of an object are those that are written, each where it comes first. -/
theorem KeepsMembers.names_putAll : {members : Outline.Members Key Scrap Gap Gap} → {members' : Members} →
    KeepsMembers members members' → ∀ es : Entries Json, (members'.putAll bare es).names =
      (members.names.map (·.name.text)).foldl addName es.names
  | _, _, .close gap gap', es => by rw [Members.putAll]; rfl
  | _, _, .last key after h, es => by rw [Members.putAll, Entries.names_put]; rfl
  | _, _, .more key after h hs, es => by rw [Members.putAll, hs.names_putAll, Entries.names_put]; rfl

/-! ## Reading -/

variable {bare}

/-- Each place of a draft is one of the value that is read, where the same stands. -/
theorem Keeps.follow_value {d d' : Draft} {v : Source} (h : Keeps d v) {path : List Spot}
    (found : follow Draft.child? path d = some d') :
    ∃ v', follow Json.child? path (v.value bare) = some (v'.value bare) ∧ Keeps d' v' := by
  obtain ⟨_, place, v', rfl, keeps⟩ := follow_simulates
    (R := fun d j => ∃ v : Source, j = v.value bare ∧ Keeps d v)
    (fun d j related spot d' first => by
      obtain ⟨v, rfl, keeps⟩ := related
      obtain ⟨v', first', keeps⟩ := keeps.child? bare first
      exact ⟨_, first', v', rfl, keeps⟩) path ⟨v, rfl, h⟩ found
  exact ⟨v', place, keeps⟩

variable {ι : Type} {page left : Page ι}

/-- Wherever a form with its slots is left of a page, an escaped text is read as itself: as the value at its place, and
as a name of the object at its place, whose names are those that are written, each where it comes first. -/
theorem parse_escaped {fill : ι → Escaped} {marker : String} {wrap : Bool}
    (leaves : Leaves (fun i => (fill i).quotation) marker.toList page wrap left) (root : left.root.isLeaf = false)
    (readable : left.root.Readable) (shallow : left.root.depth < Json.nestingLimit) :
    ∃ j, Relaxed.parse (String.ofList (page.text fun i => (fill i).quotation)) marker wrap = .ok j ∧
      (∀ path (e : Escaped) after,
        follow Draft.child? path (left.root.filled fun i => (fill i).quotation) =
            some (.leaf (.quoted e.quotation after)) →
          follow Json.child? path j = some (.string (String.ofList e.text))) ∧
      ∀ path members after,
        follow Draft.child? path (left.root.filled fun i => (fill i).quotation) = some (.object members after) →
          ∃ es : Entries Json, follow Json.child? path j = some (.object es) ∧
            Entries.names es = (members.names.map (·.name.text)).foldl addName [] ∧
            ∀ key ∈ members.names, ∀ e : Escaped, key.name = .quoted e.quotation →
              String.ofList e.text ∈ Entries.names es := by
  obtain ⟨v, keeps, strict⟩ := leaves.normalizeChars_eq root readable
  have nests : v.depth < Json.nestingLimit := by rwa [keeps.depth_eq, Form.filled, Outline.depth_map]
  have read : parseChars marker.toList wrap (page.text fun i => (fill i).quotation) =
      .ok (v.value (bareJson marker.toList)) := by rw [parseChars, strict, v.ofChars_strict nests]
  refine ⟨_, by rw [parse, String.toList_ofList, read], fun path e after found => ?_,
    fun path members after found => ?_⟩
  · obtain ⟨v', place, keeps⟩ := keeps.follow_value found
    cases keeps with
    | quoted =>
      rw [Source.value] at place
      exact place
  · obtain ⟨v', place, keeps⟩ := keeps.follow_value found
    cases keeps with
    | object h =>
      rw [Source.value] at place
      refine ⟨_, place, h.names_putAll _ [], fun key mem e named => ?_⟩
      rw [h.names_putAll, mem_foldl_addName]
      have text : String.ofList e.text = key.name.text := by rw [named]; rfl
      exact .inr (text ▸ List.mem_map_of_mem mem)

/-- A text that looks like a call beside a comment and a brace. -/
def callText : Escaped := ⟨'`', "f(x) // `\\` \x7b".toList, .inr rfl, by simp⟩

def possessiveText : Escaped := ⟨'\'', "it's, \"a\"".toList, .inl rfl, by simp⟩

/-- A slot as a name and one as a value, beside a call, a value with brackets and a comment. -/
def escapedForm (value : Scrap) : Form Bool :=
  .object (.more (.slot [] true [] oneSpace) (.leaf (.given value))
    (.last (.given ⟨oneSpace, .bare (.ofLetter 'n' rfl), [], oneSpace⟩)
      (.array (.more [] (.leaf (.given (.bare "b[0]".toList [])))
        (.last (oneSpace ++ (.block " c ".toList (closed_of_starless (by decide)) :: oneSpace))
          (.leaf (.slot false [])))) []))) []

/-- With the call as it is written. -/
def callPage : Page Bool where
  root := escapedForm (.bare "f(x,y)".toList [])
  ending := some " end".toList

/-- With the call wrapped. -/
def wrappedForm : Form Bool := escapedForm (.quoted (.ofText "#f(x,y)".toList) [])

def escapedTexts : Bool → Escaped
  | true => possessiveText
  | false => callText

theorem callPage_leaves : Leaves (fun i => (escapedTexts i).quotation) "#".toList callPage true
    { callPage with root := wrappedForm } :=
  .scanned (apart_of_quoteless (by decide)) (by decide)

theorem wrappedForm_readable : wrappedForm.Readable := by
  have taken : Taken "b[0]".toList [] := {
    starts := ⟨'b', rfl, rfl, rfl⟩
    ends := ⟨']', rfl, by decide⟩
    whole := by decide
    undivided := fun date found => by cases found }
  exact ⟨⟨trivial, trivial, trivial, ⟨trivial, taken, trivial, trivial⟩, trivial⟩, trivial⟩

theorem wrappedForm_names : (Name.quoted possessiveText.quotation).text = "it's, \"a\"" ∧
    (Name.bare (.ofLetter 'n' rfl)).text = "n" := ⟨by decide, by decide⟩

theorem wrappedForm_value : follow Draft.child? [.member "n", .item 1]
    (wrappedForm.filled fun i => (escapedTexts i).quotation) = some (.leaf (.quoted callText.quotation [])) := by
  have name : "n" = (Name.bare (.ofLetter 'n' rfl)).text := wrappedForm_names.2.symm
  simp only [follow, Draft.child?, Form.filled, wrappedForm, escapedForm, Outline.map, Outline.Members.map,
    Heading.filled, Outline.Members.get?, if_pos name]
  rfl

theorem parse_escaped_beside_call :
    String.ofList (callPage.text fun i => (escapedTexts i).quotation) =
        "\x7b'it\\'s, \"a\"': f(x,y), n: [b[0], /* c */ `f(x) // \\`\\\\\\` \x7b`]\x7d// end" ∧
      Leaves (fun i => (escapedTexts i).quotation) "#".toList callPage true { callPage with root := wrappedForm } ∧
      wrappedForm.isLeaf = false ∧ wrappedForm.Readable ∧ wrappedForm.depth < Json.nestingLimit ∧
      ∃ es : Entries Json, Relaxed.parse (String.ofList (callPage.text fun i => (escapedTexts i).quotation)) "#" true =
          .ok (.object es) ∧
        Entries.names es = ["it's, \"a\"", "n"] ∧
        follow Json.child? [.member "n", .item 1] (.object es) = some (.string "f(x) // `\\` \x7b") := by
  have shallow : wrappedForm.depth < Json.nestingLimit := by decide
  obtain ⟨j, read, values, objects⟩ := parse_escaped callPage_leaves rfl wrappedForm_readable shallow
  obtain ⟨es, root, names, -⟩ := objects [] _ _ rfl
  have value := values [.member "n", .item 1] callText [] wrappedForm_value
  cases root
  have added : [(Name.quoted possessiveText.quotation).text, (Name.bare (.ofLetter 'n' rfl)).text].foldl addName [] =
      ["it's, \"a\"", "n"] := by
    rw [wrappedForm_names.1, wrappedForm_names.2]
    decide
  exact ⟨by decide, callPage_leaves, rfl, wrappedForm_readable, shallow, es, read, names.trans added, value⟩

/-! ## Strings that are not read -/

/-- The text that is read at a place. -/
def textAt (wrap : Bool) (text : String) (path : List Spot) : Option String :=
  match (Relaxed.parse text "#" wrap).toOption.bind (follow Json.child? path) with
  | some (.string s) => some s
  | _ => none

theorem textAt_malformed {wrap : Bool} {text : List Char} (h : (parseChars ['#'] wrap text).toOption = none)
    (path : List Spot) : textAt wrap (String.ofList text) path = none := by
  rw [textAt, parse, String.toList_ofList, String.toList_ofList, h]
  rfl

/-- The string stands in the text at the place, and is not read there. -/
structure Misread (wrap : Bool) (form : Form Unit) (text : String) (path : List Spot) (e : Escaped) : Prop where
  root : form.isLeaf = false
  written : String.ofList (form.filled fun _ => e.quotation).text = text
  place : follow Draft.child? path (form.filled fun _ => e.quotation) = some (.leaf (.quoted e.quotation []))
  misread : textAt wrap text path ≠ some (String.ofList e.text)

/-- A slot inside so many arrays. -/
def nestedSlot : Nat → Form Unit
  | 0 => .leaf (.slot () [])
  | n + 1 => .array (.last [] (nestedSlot n)) []

theorem nestedSlot_place (fill : Unit → Quotation) (n : Nat) :
    follow Draft.child? (List.replicate n (.item 0)) ((nestedSlot n).filled fill) =
      some (.leaf (.quoted (fill ()) [])) := by
  induction n with
  | zero => rfl
  | succ n ih =>
    rw [List.replicate_succ, follow]
    exact ih

theorem nestedSlot_text (fill : Unit → Quotation) (n : Nat) : ((nestedSlot n).filled fill).text =
    List.replicate n '[' ++ ((fill ()).chars ++ List.replicate n ']') := by
  induction n with
  | zero =>
    rw [List.replicate_zero, List.nil_append]
    rfl
  | succ n ih =>
    have nested : ((nestedSlot (n + 1)).filled fill).text =
        '[' :: (((nestedSlot n).filled fill).text ++ [']'] ++ []) := rfl
    rw [nested, ih, List.append_nil, List.replicate_succ, List.replicate_succ', List.cons_append, List.append_assoc,
      List.append_assoc]

/-- A slot as the value of `n`, with a comment in front. -/
def besideComment (comment : List Char) (starless : '*' ∉ comment) : Form Unit :=
  .object (.last (.given ⟨[], .bare (.ofLetter 'n' rfl), [],
    oneSpace ++ (.block comment (closed_of_starless starless) :: oneSpace)⟩) (.leaf (.slot () []))) []

theorem besideComment_place (fill : Unit → Quotation) (comment : List Char) (starless : '*' ∉ comment) :
    follow Draft.child? [.member "n"] ((besideComment comment starless).filled fill) =
      some (.leaf (.quoted (fill ()) [])) := rfl

/-- A slot behind a bare value of an array. -/
def behindValue (text : List Char) : Form Unit :=
  .array (.more [] (.leaf (.given (.bare text []))) (.last oneSpace (.leaf (.slot () [])))) []

def letterText : Escaped := ⟨'\'', ['v'], .inl rfl, by simp⟩

def shortCall : Escaped := ⟨'\'', "f(y)".toList, .inl rfl, by simp⟩

/-- Bare values that are not taken as one: with a blank at the end that is no white space of JSON, with a quotation,
with a comment, with a bracket that is not closed, and with a date that is cut from it. -/
def brokenValues : List String := ["b\u00a0", "b\"c\"", "b/* c */d", "b(", "2024-01-01 : x"]

/-- Strings are not read at the limit of nesting; behind a bare value that is not taken as one; where a comment with a
call is wrapped along with the string; where a wrapped value is cut at its bracket; where a quotation that a comment
opens runs over the string; and where a later member has the same name. -/
theorem escaped_misread :
    (∃ text, Misread false (nestedSlot 128) text (List.replicate 128 (.item 0)) letterText) ∧
      (∀ value ∈ brokenValues,
        Misread false (behindValue value.toList) ("[" ++ value ++ ", 'v']") [.item 1] letterText) ∧
      Misread true (besideComment " f(x) ".toList (by decide)) "\x7bn: /* f(x) */ 'v'\x7d" [.member "n"] letterText ∧
      Misread true (behindValue "f(x)[0]".toList) "[f(x)[0], 'v']" [.item 1] letterText ∧
      Misread true (besideComment " it's ".toList (by decide)) "\x7bn: /* it's */ 'f(y)'\x7d" [.member "n"] shortCall ∧
      textAt false "\x7bn: 'v', n: 'w'\x7d" [.member "n"] = some "w" := by
  have broken : ∀ value ∈ brokenValues,
      String.ofList ((behindValue value.toList).filled fun _ => letterText.quotation).text = "[" ++ value ++ ", 'v']" ∧
        textAt false ("[" ++ value ++ ", 'v']") [.item 1] ≠ some (String.ofList letterText.text) := by decide +kernel
  have malformed :
      (parseChars ['#'] false ((nestedSlot 128).filled fun _ => letterText.quotation).text).toOption = none := by
    rw [nestedSlot_text]
    decide
  have unread (path : List Spot) := textAt_malformed malformed path
  refine ⟨⟨_, rfl, rfl, nestedSlot_place _ 128, fun read => ?_⟩, fun value mem => ?_,
    ⟨rfl, ?_, besideComment_place _ _ _, ?_⟩, ⟨rfl, ?_, rfl, ?_⟩, ⟨rfl, ?_, besideComment_place _ _ _, ?_⟩, ?_⟩
  · cases (unread _).symm.trans read
  · exact ⟨rfl, (broken value mem).1, rfl, (broken value mem).2⟩
  all_goals decide +kernel

end ExactFormula.Relaxed
