import FactorPlan.Text.Lines
import FactorPlan.Text.UnicodeData

/-!
Names in characters of all scripts. Characters that stand for others are replaced, and marks are
put in order and composed with the characters that they are put on (`normal`), so that one name is
written in one way: the normal form that Unicode calls NFKC.

Correspondence:
  `normalize('NFKC', name)` ↔ `normal`
  `str.isidentifier`        ↔ `startsName`, `continuesName`
-/

namespace FactorPlan

namespace Text

namespace Unicode

/-! ## Tables -/

/-- The number that hexadecimal digits write. -/
def hex (cs : List Char) : Nat :=
  cs.foldl (fun n c => 16 * n + if c.isDigit then c.toNat - '0'.toNat else c.toNat - 'A'.toNat + 10) 0

/-- A range of characters, with what is said of them. -/
structure Entry where
  first : Nat
  last : Nat
  values : List (List Nat)

namespace Entry

/-- The entry that a word of a table writes. -/
def ofWord (word : List Char) : Entry :=
  let (range, values) := match pieces '=' word with
    | [range, values] => (range, (pieces ',' values).map fun v => (pieces '.' v).map hex)
    | _ => (word, [])
  match (pieces '-' range).map hex with
  | [a, b] => ⟨a, b, values⟩
  | as => let a := as.headD 0; ⟨a, a + (values.length - 1), values⟩

/-- What an entry says of a character in it: its own value, or the one value moved on from the first
character. -/
def valueAt (e : Entry) (c : Nat) : List Nat :=
  match e.values with
  | [[v]] => [v + (c - e.first)]
  | vs => vs.getD (c - e.first) []

end Entry

/-- The entries of a table. -/
def entries (table : List String) : List Entry :=
  table.flatMap fun line => (pieces ' ' line.toList).map Entry.ofWord

/-- The entry of a character. -/
def entryOf (es : List Entry) (c : Nat) : Option Entry := es.find? fun e => e.first ≤ c && c ≤ e.last

def startEntries : List Entry := entries nameStarts

def partEntries : List Entry := entries nameParts

def replacementEntries : List Entry := entries replacements

def compositionEntries : List Entry := entries compositions

def markEntries : List Entry := entries markClasses

/-- Whether a character beyond ASCII begins names. -/
def startsName (c : Char) : Bool := (entryOf startEntries c.toNat).isSome

/-- Whether a character beyond ASCII may only go on with a name. -/
def continuesName (c : Char) : Bool := (entryOf partEntries c.toNat).isSome

/-- The class of a mark; other characters have the class zero. -/
def markClass (c : Nat) : Nat :=
  match entryOf markEntries c with
  | some e => (e.values.headD []).headD 0
  | none => 0

/-! ## Syllables -/

/-- The letters of a Hangul syllable: it is numbered by its letters. -/
def syllable? (c : Nat) : Option (List Nat) :=
  if 0xAC00 ≤ c && c ≤ 0xD7A3 then
    let n := c - 0xAC00
    let letters := [0x1100 + n / 588, 0x1161 + n % 588 / 28]
    some (if n % 28 = 0 then letters else letters ++ [0x11A7 + n % 28])
  else none

/-- The syllable of two letters, or of a syllable without an end and a letter that ends it. -/
def joinedSyllable? (a b : Nat) : Option Nat :=
  if 0x1100 ≤ a && a < 0x1113 && 0x1161 ≤ b && b < 0x1176 then
    some (0xAC00 + ((a - 0x1100) * 21 + (b - 0x1161)) * 28)
  else if 0xAC00 ≤ a && a ≤ 0xD7A3 && (a - 0xAC00) % 28 = 0 && 0x11A7 < b && b < 0x11C3 then
    some (a + (b - 0x11A7))
  else none

/-! ## Normal form -/

/-- What a character is composed of. -/
def composition (c : Nat) : List Nat :=
  match syllable? c with
  | some letters => letters
  | none => match entryOf compositionEntries c with
    | some e => e.valueAt c
    | none => [c]

/-- What a character stands for and is composed of. -/
def decomposed (c : Nat) : List Nat :=
  match entryOf replacementEntries c with
  | some e => (e.valueAt c).flatMap composition
  | none => composition c

/-- The character composed of a character and a mark. -/
def composed? (a b : Nat) : Option Nat :=
  match joinedSyllable? a b with
  | some c => some c
  | none =>
    let whole := composition a ++ [b]
    compositionEntries.findSome? fun e =>
      (List.range (e.last + 1 - e.first)).findSome? fun i =>
        if e.valueAt (e.first + i) = whole then some (e.first + i) else none

/-- Puts a character before others whose marks are in order: a mark goes behind those of smaller
classes. -/
def place (c : Nat) : List Nat → List Nat
  | [] => [c]
  | d :: ds => if 0 < markClass d && markClass d < markClass c then d :: place c ds else c :: d :: ds

/-- The characters with their marks in order. -/
def ordered : List Nat → List Nat
  | [] => []
  | c :: cs => place c (ordered cs)

/-- Composes a character with the marks after it. A mark that is not composed, the last of which has
the class `last`, keeps those of its class and of smaller ones from the character. -/
def composeFrom (c : Nat) (marks : List Nat) (last : Nat) : List Nat → List Nat
  | [] => c :: marks.reverse
  | d :: ds =>
    let k := markClass d
    match if marks.isEmpty || last < k then composed? c d else none with
    | some e => composeFrom e marks last ds
    | none =>
      if k = 0 then c :: (marks.reverse ++ composeFrom d [] 0 ds)
      else composeFrom c (d :: marks) k ds

/-- Composes characters. -/
def composeAll : List Nat → List Nat
  | [] => []
  | c :: cs => if markClass c = 0 then composeFrom c [] 0 cs else c :: composeAll cs

/-- The normal form of a name. -/
def normal (cs : List Char) : List Char :=
  if cs.all (fun c => c.toNat < 128) then cs
  else (composeAll (ordered (cs.flatMap fun c => decomposed c.toNat))).map Char.ofNat

end Unicode

end Text

end FactorPlan
