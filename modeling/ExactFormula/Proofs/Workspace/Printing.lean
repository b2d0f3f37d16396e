import ExactFormula.Proofs.Reading.Braces
import ExactFormula.Proofs.Relaxed.Printed
import ExactFormula.Proofs.Workspace.Isolation

/-!
Printed objects read back. The written form of an object is one embedded literal, and the tree of that
holds the values that were written, where no string of them says something else.
-/

namespace ExactFormula

namespace Value

mutual
/-- The property of the value and of all values inside it. -/
def All (p : Value → Prop) : Value → Prop
  | null => p null
  | bool b => p (bool b)
  | number d => p (number d)
  | string s => p (string s)
  | array items => p (array items) ∧ ItemsAll p items
  | object members => p (object members) ∧ MembersAll p members

def ItemsAll (p : Value → Prop) : List Value → Prop
  | [] => True
  | v :: vs => v.All p ∧ ItemsAll p vs

def MembersAll (p : Value → Prop) : List (String × Value) → Prop
  | [] => True
  | (_, v) :: ms => v.All p ∧ MembersAll p ms
end

/-- The members of an object have names of their own. -/
def Distinct : Value → Prop
  | object members => (Entries.names members).Nodup
  | _ => True

/-- A string neither reads as a decimal nor starts with the marker of formulas. -/
def Unmistakable : Value → Prop
  | string s => Decimal.isNumeral s.toList = false ∧ ¬literalMarker <+: s.toList
  | _ => True

/-! ## Braces -/

theorem passed_quote (text : List Char) : Lexeme.Passed (Text.quote text) :=
  Lexeme.passed_quotation rfl ((Json.Written.flatMap_escape text).closingLength?_eq rfl)

theorem passed_bareValue (token : Relaxed.BareValue) : Lexeme.Passed token.text := by
  refine Lexeme.passed_plain fun c mem => ?_
  obtain ⟨quote, other⟩ := token.plain c mem
  simp only [List.mem_cons, List.not_mem_nil, or_false, not_or] at other
  exact ⟨quote, by simp [Lexeme.isOpener, other], by simp [Lexeme.isCloser, other]⟩

theorem passed_mark {c : Char} (h : c = ',' ∨ c = ':') {text : List Char} (passed : Lexeme.Passed text) :
    Lexeme.Passed (c :: ' ' :: text) := by
  rcases h with rfl | rfl <;> exact .cons (by decide) (.cons (by decide) passed)

mutual
theorem passed_chars : (v : Value) → Lexeme.Passed v.chars
  | null => by rw [chars]; exact passed_bareValue (.ofWord Json.nullChars rfl)
  | bool b => by rw [chars]; exact passed_bareValue (.ofWord (Json.boolChars b) (by cases b <;> rfl))
  | number d => by rw [chars]; exact passed_bareValue (.ofNumber d.chars d.isNumber_chars)
  | string s => by rw [chars]; exact passed_quote s.toList
  | array items => by rw [chars]; exact .group (c := '[') rfl (passed_itemChars items)
  | object members => by rw [chars]; exact .group (c := '{') rfl (passed_memberChars members)

theorem passed_itemChars : (items : List Value) → Lexeme.Passed (itemChars items)
  | [] => by rw [itemChars]; exact .nil
  | [v] => by rw [itemChars]; exact passed_chars v
  | v :: w :: vs => by
    rw [itemChars_more]
    exact (passed_chars v).append (passed_mark (.inl rfl) (passed_itemChars (w :: vs)))

theorem passed_memberChars : (members : List (String × Value)) → Lexeme.Passed (memberChars members)
  | [] => by rw [memberChars]; exact .nil
  | [(k, v)] => by
    rw [memberChars]
    exact (passed_quote k.toList).append (passed_mark (.inr rfl) (passed_chars v))
  | (k, v) :: m :: ms => by
    rw [memberChars_more]
    have rest := passed_mark (.inl rfl) (passed_memberChars (m :: ms))
    exact (passed_quote k.toList).append (passed_mark (.inr rfl) ((passed_chars v).append rest))
end

/-! ## Trees -/

variable {nested : Direct.Nested}

theorem ofJson_string {s : String} (unmistakable : Unmistakable (string s)) :
    Direct.ofJson nested (.string s) = .ok (.value (string s)) := by
  obtain ⟨numeral, unmarked⟩ := unmistakable
  have unmarked : Literal.marked? s = none := by
    rw [Literal.marked?, if_neg (by rwa [List.isPrefixOf_iff_prefix])]
  have plain : Literal.plainValue s = string s := by
    rw [Literal.plainValue, numeral]
    rfl
  rw [Direct.ofJson, unmarked, plain]

theorem ofJson_number (d : Decimal) :
    Direct.ofJson nested (.string (String.ofList d.chars)) = .ok (.value (number d)) := by
  have numeral := d.isNumber_chars.isNumeral
  have unmarked : Literal.marked? (String.ofList d.chars) = none := by
    rw [Literal.marked?, String.toList_ofList, if_neg]
    rw [List.isPrefixOf_iff_prefix]
    exact fun marker => Relaxed.not_mem_number d.isNumber_chars rfl (marker.subset List.mem_cons_self)
  have plain : Literal.plainValue (String.ofList d.chars) = number d := by
    rw [Literal.plainValue, String.toList_ofList, numeral, Decimal.parse, String.toList_ofList, d.parseChars_chars]
    rfl
  rw [Direct.ofJson, unmarked, plain]

theorem strictJson_number (d : Decimal) : Relaxed.strictJson d.chars = .string (String.ofList d.chars) := by
  rw [Relaxed.strictJson, Relaxed.jsonWord?_number d.isNumber_chars]
  rfl

mutual
theorem ofJson_writtenJson : (v : Value) → v.All Distinct → v.All Unmistakable →
    ∃ l, Direct.ofJson nested v.writtenJson = .ok l ∧ ∀ ctx, l.evaluate ctx = .ok v
  | null, _, _ => by
    refine ⟨.value null, ?_, fun ctx => by rw [Literal.evaluate]⟩
    rw [writtenJson, source, Relaxed.Source.value]
    rfl
  | bool b, _, _ => by
    refine ⟨.value (bool b), ?_, fun ctx => by rw [Literal.evaluate]⟩
    rw [writtenJson, source, Relaxed.Source.value]
    cases b <;> rfl
  | number d, _, _ => by
    refine ⟨.value (number d), ?_, fun ctx => by rw [Literal.evaluate]⟩
    rw [writtenJson, source, Relaxed.Source.value]
    exact (congrArg (Direct.ofJson nested) (strictJson_number d)).trans (ofJson_number d)
  | string s, _, unmistakable => by
    rw [All] at unmistakable
    refine ⟨.value (string s), ?_, fun ctx => by rw [Literal.evaluate]⟩
    have text : String.ofList (Relaxed.Quotation.ofText s.toList).text = s := String.ofList_toList
    rw [writtenJson, source, Relaxed.Source.value, text]
    exact ofJson_string unmistakable
  | array items, distinct, unmistakable => by
    rw [All] at distinct unmistakable
    obtain ⟨ls, read, evaluated⟩ := ofItems_writtenJson items distinct.2 unmistakable.2
    refine ⟨.array ls, ?_, fun ctx => ?_⟩
    · rw [writtenJson, source, Relaxed.Source.value, values_itemSources, Direct.ofJson, read]
      rfl
    · rw [Literal.evaluate, evaluated]
      rfl
  | object members, distinct, unmistakable => by
    rw [All] at distinct unmistakable
    obtain ⟨ls, read, evaluated⟩ := ofMembers_writtenJson members distinct.2 unmistakable.2
    refine ⟨.object ls, ?_, fun ctx => ?_⟩
    · have put := @putAll_memberSources [] members [] distinct.1 nofun
      rw [writtenJson, source, Relaxed.Source.value, put, Direct.ofJson, List.nil_append, read]
      rfl
    · rw [Literal.evaluate, evaluated]
      rfl

theorem ofItems_writtenJson : (items : List Value) → ItemsAll Distinct items → ItemsAll Unmistakable items →
    ∃ ls, Direct.ofItems nested (items.map writtenJson) = .ok ls ∧
      ∀ ctx, Outcome.all (Literal.evaluateAll ctx ls) = .ok items
  | [], _, _ => ⟨[], rfl, fun ctx => by rw [Literal.evaluateAll]; rfl⟩
  | v :: vs, distinct, unmistakable => by
    rw [ItemsAll] at distinct unmistakable
    obtain ⟨l, read, evaluated⟩ := ofJson_writtenJson v distinct.1 unmistakable.1
    obtain ⟨ls, reads, evaluateds⟩ := ofItems_writtenJson vs distinct.2 unmistakable.2
    refine ⟨l :: ls, ?_, fun ctx => ?_⟩
    · rw [List.map_cons, Direct.ofItems, read, reads]
      rfl
    · rw [Literal.evaluateAll, Outcome.all, evaluated, evaluateds]
      rfl

theorem ofMembers_writtenJson : (members : List (String × Value)) → MembersAll Distinct members →
    MembersAll Unmistakable members →
    ∃ ls, Direct.ofMembers nested (members.map fun (k, v) => (k, v.writtenJson)) = .ok ls ∧
      ∀ ctx, Outcome.allMembers (Literal.evaluateMembers ctx ls) = .ok members
  | [], _, _ => ⟨[], rfl, fun ctx => by rw [Literal.evaluateMembers]; rfl⟩
  | (k, v) :: ms, distinct, unmistakable => by
    rw [MembersAll] at distinct unmistakable
    obtain ⟨l, read, evaluated⟩ := ofJson_writtenJson v distinct.1 unmistakable.1
    obtain ⟨ls, reads, evaluateds⟩ := ofMembers_writtenJson ms distinct.2 unmistakable.2
    refine ⟨(k, l) :: ls, ?_, fun ctx => ?_⟩
    · rw [List.map_cons, Direct.ofMembers, read, reads]
      rfl
    · rw [Literal.evaluateMembers, Outcome.allMembers, evaluated, evaluateds]
      rfl
end

/-- The written form of an object is strict JSON, which is read as its members, whatever engine reads it. -/
theorem formula_display {s : Settings} {members : List (String × Value)} (distinct : (object members).All Distinct)
    (unmistakable : (object members).All Unmistakable) (shallow : (object members).depth < Json.nestingLimit)
    (n : Nat) :
    ∃ f, Direct.formula s (n + 1) (object members).display.toList = .ok f ∧
      ∀ ctx, f.evaluate ctx = .ok (object members) := by
  obtain ⟨l, read, evaluated⟩ := @ofJson_writtenJson (Direct.formula s n) (object members) distinct unmistakable
  let d : Relaxed.Document := ⟨[], (object members).source, [], none, by simp⟩
  have strict : d.IsStrict := ⟨isStrict_nil, isStrict_source _, isStrict_nil, rfl⟩
  have text : d.chars = (object members).chars := by
    have whole : d.chars = d.root.chars ++ [] := rfl
    rw [whole, List.append_nil, chars_source]
  have parsed := strict.parseChars_eq literalMarker (by rwa [depth_source]) s.wrapCalls
  rw [text, chars] at parsed
  rw [display, String.toList_ofList, chars]
  obtain ⟨f, formula, same⟩ := Direct.formula_braces (passed_memberChars members) parsed read
  exact ⟨f, formula, fun ctx => (same ctx).trans (evaluated ctx)⟩

end Value

namespace Session

/-- Printed objects read back. -/
theorem read_display (history : List Action) {e : Engine} (mem : e ∈ (after history).engines)
    {members : List (String × Value)} (distinct : (Value.object members).All Value.Distinct)
    (unmistakable : (Value.object members).All Value.Unmistakable)
    (shallow : (Value.object members).depth < Json.nestingLimit) :
    ∃ f, (after history).read e (Value.object members).display = .ok f ∧
      ∀ ctx, f.evaluate ctx = .ok (.object members) :=
  read_of_direct history mem fun n _ => Value.formula_display distinct unmistakable shallow n

theorem read_display_order : ⟨1, {}, 0⟩ ∈ (after literalHistory).engines ∧
    ∃ f, (after literalHistory).read ⟨1, {}, 0⟩
        (Value.object [("b \x7b", .array [.string "x//", .null]), ("a", .number ⟨-15⟩)]).display = .ok f ∧
      ∀ ctx, f.evaluate ctx = .ok (.object [("b \x7b", .array [.string "x//", .null]), ("a", .number ⟨-15⟩)]) :=
  ⟨literalHistory_engine, read_display literalHistory literalHistory_engine
    (by simp [Value.All, Value.MembersAll, Value.ItemsAll, Value.Distinct, Entries.names])
    (by simp only [Value.All, Value.MembersAll, Value.ItemsAll, Value.Unmistakable]; decide)
    (by decide)⟩

end Session

end ExactFormula
