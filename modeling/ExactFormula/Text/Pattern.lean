import ExactFormula.Text.Blank
import ExactFormula.Text.WordChar

/-!
Regular expressions searched in a text: characters, classes, `.`, `\d \w \s`, anchors, groups,
alternatives and the repetitions `* + ?`.
-/

namespace ExactFormula.Text

inductive CharSet
  | range (low high : Char)
  | digit
  | word
  | blank
  | except (set : CharSet)
  | union (a b : CharSet)
  | none
  deriving DecidableEq, Repr

def CharSet.contains : CharSet → Char → Bool
  | range low high, c => low ≤ c && c ≤ high
  | digit, c => isDecimalDigit c
  | word, c => isWordChar c
  | blank, c => isBlank c
  | except set, c => !set.contains c
  | union a b, c => a.contains c || b.contains c
  | none, _ => false

inductive Regex
  | empty
  | one (set : CharSet)
  | atStart
  | atEnd
  | seq (a b : Regex)
  | either (a b : Regex)
  | star (a : Regex)
  deriving DecidableEq, Repr

namespace Regex

/-- Positions reached from those in `seen` by any number of steps, at most `rounds` of them new. -/
def closure (next : Nat → List Nat) : (rounds : Nat) → List Nat → List Nat
  | 0, seen => seen
  | rounds + 1, seen =>
    match (seen.flatMap next).eraseDups.filter (!seen.contains ·) with
    | [] => seen
    | new => closure next rounds (seen ++ new)

/-- Where a match that begins at `start` can end. -/
def ends (text : List Char) : Regex → (start : Nat) → List Nat
  | empty, i => [i]
  | one set, i => if (text[i]?).any set.contains then [i + 1] else []
  | atStart, i => if i = 0 then [i] else []
  | atEnd, i => if i = text.length then [i] else []
  | seq a b, i => ((a.ends text i).flatMap (b.ends text)).eraseDups
  | either a b, i => (a.ends text i ++ b.ends text i).eraseDups
  | star a, i => closure (a.ends text) text.length [i]

def foundIn (r : Regex) (text : List Char) : Bool :=
  (List.range (text.length + 1)).any fun i => !(r.ends text i).isEmpty

end Regex

/-! ## Reading a pattern -/

/-- An open group: its finished alternatives and the items of the current one, last first. -/
structure Group where
  alternatives : List Regex
  items : List Regex

namespace Group

def start : Group := ⟨[], []⟩

def sequence (items : List Regex) : Regex := items.foldl (fun tail item => .seq item tail) .empty

def add (g : Group) (item : Regex) : Group := { g with items := item :: g.items }

def branch (g : Group) : Group := ⟨sequence g.items :: g.alternatives, []⟩

def close (g : Group) : Regex :=
  g.alternatives.foldl (fun tail branch => .either branch tail) (sequence g.items)

end Group

def classEscape? (c : Char) : Option CharSet :=
  match c with
  | 'd' => some .digit
  | 'D' => some (.except .digit)
  | 'w' => some .word
  | 'W' => some (.except .word)
  | 's' => some .blank
  | 'S' => some (.except .blank)
  | _ => none

def charEscape? (c : Char) : Option Char :=
  match c with
  | 'n' => some '\n'
  | 't' => some '\t'
  | 'r' => some '\r'
  | _ => if c.toNat < 0x80 && !c.isAlphanum && !isBlank c then some c else none

/-- Reads the members of a class up to its closing bracket; gives the set and the count of characters
read, the bracket included. -/
def classMembers (first : Bool) (set : CharSet) : List Char → Option (CharSet × Nat)
  | [] => none
  | '[' :: _ => none
  | ']' :: cs =>
    if first then (classMembers false (.union set (.range ']' ']')) cs).map fun (s, n) => (s, n + 1)
    else some (set, 1)
  | '\\' :: c :: cs =>
    match classEscape? c, charEscape? c with
    | some s, _ => (classMembers false (.union set s) cs).map fun (s, n) => (s, n + 2)
    | none, some c => (classMembers false (.union set (.range c c)) cs).map fun (s, n) => (s, n + 2)
    | none, none => none
  | low :: '-' :: ']' :: _ => some (.union set (.union (.range low low) (.range '-' '-')), 3)
  | low :: '-' :: high :: cs =>
    if high == '\\' || high == '[' || high < low then none
    else (classMembers false (.union set (.range low high)) cs).map fun (s, n) => (s, n + 3)
  | c :: cs => (classMembers false (.union set (.range c c)) cs).map fun (s, n) => (s, n + 1)

def classSet : List Char → Option (CharSet × Nat)
  | '^' :: cs => (classMembers true .none cs).map fun (s, n) => (.except s, n + 1)
  | cs => classMembers true .none cs

/-- What a repetition makes of the item before it; a `?` behind a repetition changes no match. -/
def repetition? (c : Char) : Option (Regex → Regex) :=
  match c with
  | '*' => some .star
  | '+' => some fun r => .seq r (.star r)
  | '?' => some fun r => .either r .empty
  | _ => none

/-- Reads a pattern with the groups open around the current place, the innermost first. `skip` counts
characters that are already read, `lazy` tells whether a repetition has just been read. -/
def readRegex : (skip : Nat) → (lazy : Bool) → Group → List Group → List Char → Option Regex
  | _, _, g, [], [] => some g.close
  | _, _, _, _ :: _, [] => none
  | skip + 1, lazy, g, outer, _ :: cs => readRegex skip lazy g outer cs
  | 0, lazy, g, outer, c :: cs =>
    match repetition? c, g.items with
    | some _, [] => none
    | some f, item :: items =>
      if lazy && c == '?' then readRegex 0 false g outer cs
      else readRegex 0 true { g with items := f item :: items } outer cs
    | none, _ =>
      match c, outer with
      | '(', _ =>
        if cs.head? == some '?' then
          if cs.take 2 == ['?', ':'] then readRegex 2 false .start (g :: outer) cs else none
        else readRegex 0 false .start (g :: outer) cs
      | ')', [] => none
      | ')', parent :: outer => readRegex 0 false (parent.add g.close) outer cs
      | '|', _ => readRegex 0 false g.branch outer cs
      | '^', _ => readRegex 0 false (g.add .atStart) outer cs
      | '$', _ => readRegex 0 false (g.add .atEnd) outer cs
      | '.', _ => readRegex 0 false (g.add (.one (.except (.range '\n' '\n')))) outer cs
      | '{', _ => none
      | '[', _ =>
        match classSet cs with
        | some (set, n) => readRegex n false (g.add (.one set)) outer cs
        | none => none
      | '\\', _ =>
        match cs.head?.bind classEscape?, cs.head?.bind charEscape? with
        | some set, _ => readRegex 1 false (g.add (.one set)) outer cs
        | none, some c => readRegex 1 false (g.add (.one (.range c c))) outer cs
        | none, none => none
      | _, _ => readRegex 0 false (g.add (.one (.range c c))) outer cs

/-- A pattern keeps the text that it was read from. -/
structure Pattern where
  source : String
  regex : Regex
  deriving DecidableEq, Repr

namespace Pattern

/-- There is no pattern where the text is malformed, and none where it is written with what is not known here: a counted
repetition such as `a{2}`, flags or a named group, one class inside another, a word boundary, a class or a character by
name or by number. -/
def compile? (source : String) : Option Pattern :=
  (readRegex 0 false .start [] source.toList).map fun regex => ⟨source, regex⟩

def foundIn (p : Pattern) (text : String) : Bool := p.regex.foundIn text.toList

example : ["(unclosed", "(", "[a-", "[", ")", "*a"].all (compile? · |>.isNone) = true := by rfl
example : (["^[A-Z][0-9]+$", "^a", "", "x|b", "(?:ab)*1$"].map fun p =>
    ((compile? p).map fun p => ["A10", "a1", "b", "abab1"].map p.foundIn).getD [])
    = [[true, false, false, false], [false, true, false, true], [true, true, true, true],
      [false, false, true, true], [false, true, false, true]] := by decide +kernel

end Pattern

end ExactFormula.Text
