import ExactFormula.Proofs.Decimal.Text
import ExactFormula.Proofs.Relaxed.Strict
import ExactFormula.Value

/-!
The written form of a value is strict JSON.
-/

namespace ExactFormula

open Relaxed (Gap Source Items Members Key BareValue Quotation oneSpace)

namespace Value

mutual
def source : Value → Source
  | null => .bare (.ofWord Json.nullChars rfl)
  | bool b => .bare (.ofWord (Json.boolChars b) (by cases b <;> rfl))
  | number d => .bare (.ofNumber d.chars d.isNumber_chars)
  | string s => .quoted (.ofText s.toList)
  | array items => .array (itemSources [] items)
  | object members => .object (memberSources [] members)

def itemSources (before : Gap) : List Value → Items
  | [] => .close before
  | [v] => .last before v.source []
  | v :: w :: vs => .more before v.source [] (itemSources oneSpace (w :: vs))

def memberSources (before : Gap) : List (String × Value) → Members
  | [] => .close before
  | [(k, v)] => .last ⟨before, .quoted (.ofText k.toList), [], oneSpace⟩ v.source []
  | (k, v) :: m :: ms =>
    .more ⟨before, .quoted (.ofText k.toList), [], oneSpace⟩ v.source [] (memberSources oneSpace (m :: ms))
end

theorem isClose_itemSources (v : Value) (vs : List Value) : (itemSources oneSpace (v :: vs)).isClose = false := by
  cases vs <;> rw [itemSources] <;> rfl

theorem isClose_memberSources (m : String × Value) (ms : List (String × Value)) :
    (memberSources oneSpace (m :: ms)).isClose = false := by
  cases ms <;> rw [memberSources] <;> rfl

theorem itemChars_more (v w : Value) (vs : List Value) :
    itemChars (v :: w :: vs) = v.chars ++ ',' :: ' ' :: itemChars (w :: vs) := by
  rw [itemChars]
  nofun

theorem memberChars_more (k : String) (v : Value) (m : String × Value) (ms : List (String × Value)) :
    memberChars ((k, v) :: m :: ms) =
      Text.quote k.toList ++ ':' :: ' ' :: (v.chars ++ ',' :: ' ' :: memberChars (m :: ms)) := by
  rw [memberChars]
  nofun

theorem chars_oneSpace : oneSpace.chars = [' '] := rfl

/-- A name with its colon and one space behind it. -/
theorem chars_key (before : Gap) (k : String) :
    Key.chars ⟨before, .quoted (.ofText k.toList), [], oneSpace⟩ =
      before.chars ++ (Text.quote k.toList ++ [':', ' ']) := rfl

mutual
theorem chars_source : (v : Value) → v.source.chars = v.chars
  | null => by rw [source, chars, Source.chars]; rfl
  | bool b => by rw [source, chars, Source.chars]; rfl
  | number d => by rw [source, chars, Source.chars]; rfl
  | string s => by rw [source, chars, Source.chars]; rfl
  | array items => by rw [source, chars, Source.chars, chars_itemSources]; rfl
  | object members => by rw [source, chars, Source.chars, chars_memberSources]; rfl

theorem chars_itemSources (before : Gap) : (items : List Value) →
    (itemSources before items).chars = before.chars ++ (itemChars items ++ [']'])
  | [] => by rw [itemSources, itemChars, Items.chars]; rfl
  | [v] => by rw [itemSources, itemChars, Items.chars, chars_source v]; rfl
  | v :: w :: vs => by
    rw [itemSources, itemChars_more, Items.chars, chars_source v, chars_itemSources oneSpace (w :: vs), chars_oneSpace]
    simp [Gap.chars]

theorem chars_memberSources (before : Gap) : (members : List (String × Value)) →
    (memberSources before members).chars = before.chars ++ (memberChars members ++ ['}'])
  | [] => by rw [memberSources, memberChars, Members.chars]; rfl
  | [(k, v)] => by
    rw [memberSources, memberChars, Members.chars, chars_source v, chars_key]
    simp [Gap.chars]
  | (k, v) :: m :: ms => by
    rw [memberSources, memberChars_more, Members.chars, chars_source v, chars_memberSources oneSpace (m :: ms),
      chars_key, chars_oneSpace]
    simp [Gap.chars]
end

/-! ## Strictness -/

theorem isStrict_oneSpace : oneSpace.IsStrict := by
  simp [oneSpace, Gap.IsStrict, Relaxed.Filler.IsStrict]

theorem isStrict_nil : Gap.IsStrict [] := nofun

mutual
theorem isStrict_source : (v : Value) → v.source.IsStrict
  | null => by rw [source, Source.IsStrict]; exact BareValue.ofWord_isStrict rfl
  | bool b => by rw [source, Source.IsStrict]; exact BareValue.ofWord_isStrict (by cases b <;> rfl)
  | number d => by rw [source, Source.IsStrict]; exact BareValue.ofNumber_isStrict d.isNumber_chars
  | string s => by rw [source, Source.IsStrict]; rfl
  | array items => by rw [source, Source.IsStrict]; exact isStrict_itemSources isStrict_nil items
  | object members => by rw [source, Source.IsStrict]; exact isStrict_memberSources isStrict_nil members

theorem isStrict_itemSources {before : Gap} (h : before.IsStrict) : (items : List Value) →
    (itemSources before items).IsStrict
  | [] => by rw [itemSources, Items.IsStrict]; exact h
  | [v] => by rw [itemSources, Items.IsStrict]; exact ⟨h, isStrict_source v, isStrict_nil⟩
  | v :: w :: vs => by
    rw [itemSources, Items.IsStrict]
    exact ⟨h, isStrict_source v, isStrict_nil, isClose_itemSources _ _,
      isStrict_itemSources isStrict_oneSpace (w :: vs)⟩

theorem isStrict_memberSources {before : Gap} (h : before.IsStrict) : (members : List (String × Value)) →
    (memberSources before members).IsStrict
  | [] => by rw [memberSources, Members.IsStrict]; exact h
  | [(k, v)] => by
    rw [memberSources, Members.IsStrict]
    exact ⟨⟨h, rfl, isStrict_nil, isStrict_oneSpace⟩, isStrict_source v, isStrict_nil⟩
  | (k, v) :: m :: ms => by
    rw [memberSources, Members.IsStrict]
    exact ⟨⟨h, rfl, isStrict_nil, isStrict_oneSpace⟩, isStrict_source v, isStrict_nil, isClose_memberSources _ _,
      isStrict_memberSources isStrict_oneSpace (m :: ms)⟩
end

/-! ## Depth and value -/

mutual
/-- How deep arrays and objects nest. -/
def depth : Value → Nat
  | array items => itemsDepth items + 1
  | object members => membersDepth members + 1
  | null => 0
  | bool _ => 0
  | number _ => 0
  | string _ => 0

def itemsDepth : List Value → Nat
  | [] => 0
  | v :: vs => max v.depth (itemsDepth vs)

def membersDepth : List (String × Value) → Nat
  | [] => 0
  | (_, v) :: ms => max v.depth (membersDepth ms)
end

mutual
theorem depth_source : (v : Value) → v.source.depth = v.depth
  | null => by rw [source, Source.depth, depth]
  | bool b => by rw [source, Source.depth, depth]
  | number d => by rw [source, Source.depth, depth]
  | string s => by rw [source, Source.depth, depth]
  | array items => by rw [source, Source.depth, depth, depth_itemSources]
  | object members => by rw [source, Source.depth, depth, depth_memberSources]

theorem depth_itemSources (before : Gap) : (items : List Value) → (itemSources before items).depth = itemsDepth items
  | [] => by rw [itemSources, Items.depth, itemsDepth]
  | [v] => by rw [itemSources, Items.depth, itemsDepth, itemsDepth, depth_source v, Nat.max_zero]
  | v :: w :: vs => by
    rw [itemSources, Items.depth, itemsDepth, depth_source v, depth_itemSources oneSpace (w :: vs)]

theorem depth_memberSources (before : Gap) : (members : List (String × Value)) →
    (memberSources before members).depth = membersDepth members
  | [] => by rw [memberSources, Members.depth, membersDepth]
  | [(k, v)] => by rw [memberSources, Members.depth, membersDepth, membersDepth, depth_source v, Nat.max_zero]
  | (k, v) :: m :: ms => by
    rw [memberSources, Members.depth, membersDepth, depth_source v, depth_memberSources oneSpace (m :: ms)]
end

/-- The JSON value of the written form, in which numbers are their text. -/
def writtenJson (v : Value) : Json := v.source.value Relaxed.strictJson

theorem values_itemSources (before : Gap) (items : List Value) :
    (itemSources before items).values Relaxed.strictJson = items.map writtenJson := by
  induction items generalizing before with
  | nil => rw [itemSources, Items.values]; rfl
  | cons v vs ih =>
    cases vs with
    | nil => rw [itemSources, Items.values]; rfl
    | cons w vs => rw [itemSources, Items.values, ih]; rfl

theorem text_ofText (k : String) : (Relaxed.Name.quoted (.ofText k.toList)).text = k := String.ofList_toList

/-- Members with names of their own stand in the order in which they were written. -/
theorem putAll_memberSources (before : Gap) {members : List (String × Value)} {es : Entries Json}
    (distinct : (Entries.names members).Nodup) (apart : ∀ k ∈ Entries.names members, k ∉ Entries.names es) :
    (memberSources before members).putAll Relaxed.strictJson es =
      es ++ members.map fun (k, v) => (k, v.writtenJson) := by
  induction members generalizing before es with
  | nil => rw [memberSources, Members.putAll, List.map_nil, List.append_nil]
  | cons m ms ih =>
    obtain ⟨k, v⟩ := m
    obtain ⟨other, distinct⟩ := List.nodup_cons.1 distinct
    obtain ⟨new, apart⟩ := List.forall_mem_cons.1 apart
    have put : Entries.put k v.writtenJson es = es ++ [(k, v.writtenJson)] := Entries.put_of_not_mem new _
    cases ms with
    | nil =>
      rw [memberSources, Members.putAll, text_ofText]
      exact put
    | cons m ms =>
      have apart : ∀ n ∈ Entries.names (m :: ms), n ∉ Entries.names (es ++ [(k, v.writtenJson)]) := by
        intro n mem before
        rw [Entries.names, List.map_append, List.mem_append] at before
        rcases before with before | here
        · exact apart n mem before
        · rw [List.mem_singleton.1 here] at mem
          exact other mem
      have later := ih oneSpace distinct apart
      rw [memberSources, Members.putAll, text_ofText]
      rw [← put] at later
      refine later.trans ?_
      rw [put, List.append_assoc]
      rfl

end Value

end ExactFormula
