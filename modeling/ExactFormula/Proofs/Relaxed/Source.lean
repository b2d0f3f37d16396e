import ExactFormula.Proofs.Json.Written
import ExactFormula.Proofs.Text.Trimming
import ExactFormula.Relaxed.Document

/-!
The grammar of relaxed documents, as trees that keep everything that was written: spaces, comments,
quotes, trailing commas. A tree has its text, the strict text that normalizing is to give, and the JSON
value that the document stands for.
-/

namespace ExactFormula.Relaxed

/-! ## Between tokens -/

/-- A space or a comment. A line comment is ended by its line, a block comment by the first `*/`. -/
inductive Filler
  | space (c : Char) (h : isSpace c = true)
  | line (text : List Char) (h : '\n' ∉ text)
  | block (text : List Char) (h : ¬['*', '/'] <:+: text)

theorem closed_of_starless {text : List Char} (h : '*' ∉ text) : ¬['*', '/'] <:+: text :=
  fun infix_ => h (infix_.subset List.mem_cons_self)

def Filler.chars : Filler → List Char
  | space c _ => [c]
  | line text _ => '/' :: '/' :: (text ++ ['\n'])
  | block text _ => '/' :: '*' :: (text ++ ['*', '/'])

/-- What strict text keeps of it. -/
def Filler.spaces : Filler → List Char
  | space c _ => [c]
  | line _ _ => ['\n']
  | block _ _ => []

abbrev Gap := List Filler

def Gap.chars (g : Gap) : List Char := g.flatMap Filler.chars

def Gap.spaces (g : Gap) : List Char := g.flatMap Filler.spaces

/-- One space, as it stands behind colons and commas. -/
def oneSpace : Gap := [.space ' ' rfl]

/-! ## Tokens -/

/-- No comment starts in the text, nor with its last character. -/
structure Uncommented (text : List Char) : Prop where
  line : ¬['/', '/'] <:+: text
  block : ¬['/', '*'] <:+: text
  slash : ¬['/'] <:+ text

structure BareKey where
  text : List Char
  nonempty : text ≠ []
  plain : ∀ c ∈ text, isSpace c = false ∧ isStructural c = false ∧ Text.isQuote c = false
  uncommented : Uncommented text

/-- A bare value. Colons are for timestamps. -/
structure BareValue where
  text : List Char
  solid : Text.Solid text
  plain : ∀ c ∈ text, Text.isQuote c = false ∧ c ∉ ['(', ')', '{', '}', '[', ']', ',']
  colon : ':' ∈ text → isDate text = true
  uncommented : Uncommented text

/-- `raw` stands between the quotes and denotes `text`. -/
structure Quotation where
  quote : Char
  raw : List Char
  text : List Char
  isQuote : Text.isQuote quote = true
  written : Json.Written quote raw text

inductive Name
  | bare (key : BareKey)
  | quoted (string : Quotation)

/-- The name of a member with its colon, and what stands around both. -/
structure Key where
  before : Gap
  name : Name
  colon : Gap
  after : Gap

/-! ## Documents -/

mutual
inductive Source
  | bare (token : BareValue)
  | quoted (string : Quotation)
  | array (items : Items)
  | object (members : Members)

/-- What stands behind an opening bracket or a comma of an array. Behind a comma, `close` makes that a
trailing one. -/
inductive Items
  | close (gap : Gap)
  | last (before : Gap) (value : Source) (after : Gap)
  | more (before : Gap) (value : Source) (after : Gap) (rest : Items)

inductive Members
  | close (gap : Gap)
  | last (key : Key) (value : Source) (after : Gap)
  | more (key : Key) (value : Source) (after : Gap) (rest : Members)
end

/-- A value with what stands around it, and perhaps a line comment that only the text ends. -/
structure Document where
  before : Gap
  root : Source
  after : Gap
  ending : Option (List Char) := none
  oneLine : ∀ text ∈ ending, '\n' ∉ text := by simp

/-! ## Text -/

def Quotation.chars (q : Quotation) : List Char := q.quote :: (q.raw ++ [q.quote])

def Name.chars : Name → List Char
  | bare key => key.text
  | quoted string => string.chars

def Key.chars (k : Key) : List Char :=
  k.before.chars ++ (k.name.chars ++ (k.colon.chars ++ ':' :: k.after.chars))

mutual
def Source.chars : Source → List Char
  | .bare token => token.text
  | .quoted string => string.chars
  | .array items => '[' :: items.chars
  | .object members => '{' :: members.chars

def Items.chars : Items → List Char
  | .close gap => gap.chars ++ [']']
  | .last before value after => before.chars ++ (value.chars ++ (after.chars ++ [']']))
  | .more before value after rest => before.chars ++ (value.chars ++ (after.chars ++ ',' :: rest.chars))

def Members.chars : Members → List Char
  | .close gap => gap.chars ++ ['}']
  | .last key value after => key.chars ++ (value.chars ++ (after.chars ++ ['}']))
  | .more key value after rest => key.chars ++ (value.chars ++ (after.chars ++ ',' :: rest.chars))
end

def Document.chars (d : Document) : List Char :=
  d.before.chars ++ (d.root.chars ++ (d.after.chars ++ d.ending.elim [] ('/' :: '/' :: ·)))

def Document.text (d : Document) : String := String.ofList d.chars

/-! ## Strict text -/

def Quotation.strict (q : Quotation) : List Char :=
  if q.quote = '"' then q.chars else '"' :: ((requote q.quote (q.raw ++ [q.quote])).1 ++ ['"'])

def Name.strict : Name → List Char
  | bare key => Text.quote key.text
  | quoted string => string.strict

def Key.strict (k : Key) : List Char :=
  k.before.spaces ++ (k.name.strict ++ (k.colon.spaces ++ ':' :: k.after.spaces))

def Items.isClose : Items → Bool
  | .close _ => true
  | _ => false

def Members.isClose : Members → Bool
  | .close _ => true
  | _ => false

variable (marker : List Char)

mutual
def Source.strict : Source → List Char
  | .bare token => strictValue marker token.text
  | .quoted string => string.strict
  | .array items => '[' :: items.strict
  | .object members => '{' :: members.strict

/-- A trailing comma goes, with what stands behind it. -/
def Items.strict : Items → List Char
  | .close gap => gap.spaces ++ [']']
  | .last before value after => before.spaces ++ (value.strict ++ (after.spaces ++ [']']))
  | .more before value after rest =>
    before.spaces ++ (value.strict ++ (after.spaces ++ if rest.isClose then [']'] else ',' :: rest.strict))

def Members.strict : Members → List Char
  | .close gap => gap.spaces ++ ['}']
  | .last key value after => key.strict ++ (value.strict ++ (after.spaces ++ ['}']))
  | .more key value after rest =>
    key.strict ++ (value.strict ++ (after.spaces ++ if rest.isClose then ['}'] else ',' :: rest.strict))
end

/-! ## Values -/

def Name.text : Name → String
  | bare key => String.ofList key.text
  | quoted string => String.ofList string.text

/-- The words that JSON has of its own. -/
def jsonWord? (text : List Char) : Option Json :=
  if text = Json.nullChars then some .null
  else if text = Json.boolChars true then some (.bool true)
  else if text = Json.boolChars false then some (.bool false)
  else none

/-- What a bare value stands for: a decimal and a date are their text, the decimal without gaps and plus
sign; a word of JSON is itself; everything else is text behind the marker. -/
def bareJson (text : List Char) : Json :=
  if Decimal.isNumeral text then .string (String.ofList (plainNumeral text))
  else if isDate text then .string (String.ofList text)
  else (jsonWord? text).getD (.string (String.ofList (marker ++ text)))

section

variable (bare : List Char → Json)

mutual
/-- The value, where bare ones are as given. -/
def Source.value : Source → Json
  | .bare token => bare token.text
  | .quoted string => .string (String.ofList string.text)
  | .array items => .array items.values
  | .object members => .object (members.putAll [])

def Items.values : Items → List Json
  | .close _ => []
  | .last _ value _ => [value.value]
  | .more _ value _ rest => value.value :: rest.values

/-- A later member of a name replaces an earlier one. -/
def Members.putAll : Members → Entries Json → Entries Json
  | .close _, es => es
  | .last key value _, es => es.put key.name.text value.value
  | .more key value _ rest, es => rest.putAll (es.put key.name.text value.value)
end

end

mutual
/-- How deep arrays and objects nest. -/
def Source.depth : Source → Nat
  | .bare _ => 0
  | .quoted _ => 0
  | .array items => items.depth + 1
  | .object members => members.depth + 1

def Items.depth : Items → Nat
  | .close _ => 0
  | .last _ value _ => value.depth
  | .more _ value _ rest => max value.depth rest.depth

def Members.depth : Members → Nat
  | .close _ => 0
  | .last _ value _ => value.depth
  | .more _ value _ rest => max value.depth rest.depth
end

end ExactFormula.Relaxed
