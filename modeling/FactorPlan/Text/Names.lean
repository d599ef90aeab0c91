import FactorPlan.Text.Lines

/-!
Lists of names in short. Names are divided by commas and blanks, and a range such as
`x:z` or `0:3` in a name stands for several names, one for each letter or number in
it. A separator after a backslash belongs to the name.

Correspondence:
  `symbols`                        ↔ `names?`
  the ranges of `symbols`          ↔ `expand?`, `choices?`
  the marks for escaped separators ↔ `Marked`
-/

namespace FactorPlan

namespace Text

/-! ## Separators that belong to a name -/

/-- Whether the character occurs after a backslash. -/
def isEscaped (sep : Char) : List Char → Bool
  | [] => false
  | c :: rest => (c = '\\' && rest.head? = some sep) || isEscaped sep rest

/-- Puts `mark` for the character with a backslash before it. -/
def hide (sep mark : Char) : List Char → List Char
  | [] => []
  | [c] => [c]
  | c :: d :: rest => if c = '\\' ∧ d = sep then mark :: hide sep mark rest else c :: hide sep mark (d :: rest)

/-- The first number from `n` on whose character does not occur, within `fuel`
steps. -/
def freeMark (cs : List Char) : Nat → Nat → Nat
  | 0, n => n
  | fuel + 1, n => if Char.ofNat n ∈ cs then freeMark cs fuel (n + 1) else n

/-- A text with marks for separators that belong to names. -/
structure Marked where
  text : List Char
  /-- The marks with the characters that they stand for. -/
  marks : List (Char × Char) := []
  /-- The number of the next mark. -/
  next : Nat := 0

namespace Marked

/-- Hides a separator where it belongs to a name. -/
def hideAll (m : Marked) (sep : Char) : Marked :=
  if isEscaped sep m.text then
    let n := freeMark m.text (m.text.length + 1) m.next
    { text := hide sep (Char.ofNat n) m.text
      marks := m.marks ++ [(Char.ofNat n, sep)]
      next := n + 1 }
  else m

/-- A text with its separators hidden where they belong to names. -/
def ofText (cs : List Char) : Marked := [',', ':', ' '].foldl hideAll { text := cs }

/-- A name with the characters that its marks stand for. -/
def restore (m : Marked) (name : List Char) : List Char :=
  m.marks.foldl (fun cs p => cs.map (fun c => if c = p.1 then p.2 else c)) name

end Marked

/-! ## Ranges -/

/-- A range of letters at the beginning of a text, and what follows it. -/
def letterRange? : List Char → Option (List Char × List Char)
  | ':' :: b :: rest => if b.isAlpha then some ([':', b], rest) else none
  | a :: ':' :: b :: rest => if a.isAlpha && b.isAlpha then some ([a, ':', b], rest) else none
  | _ => none

/-- A range at the beginning of a text, of numbers or of letters, and what follows
it. -/
def range? (cs : List Char) : Option (List Char × List Char) :=
  match cs.dropWhile Char.isDigit with
  | ':' :: rest =>
    if (rest.takeWhile Char.isDigit).isEmpty then letterRange? cs
    else some (cs.takeWhile Char.isDigit ++ ':' :: rest.takeWhile Char.isDigit, rest.dropWhile Char.isDigit)
  | _ => letterRange? cs

/-- What stands between ranges and the ranges, in turn; `current` is what is being
read, in reverse. -/
def cutRanges : Nat → List Char → List Char → List (List Char)
  | 0, current, cs => [current.reverse ++ cs]
  | _ + 1, current, [] => [current.reverse]
  | fuel + 1, current, c :: cs =>
    match range? (c :: cs) with
    | some (r, rest) => current.reverse :: r :: cutRanges fuel [] rest
    | none => cutRanges fuel (c :: current) cs

/-- Takes off the parentheses around a range, one pair for each. `before` is what
stands before the next range. -/
def unwrapRanges (before : List Char) : List (List Char) → List (List Char)
  | r :: after :: rest =>
    if before.getLast? = some '(' ∧ after.head? = some ')' then
      before.dropLast :: r :: unwrapRanges after.tail rest
    else before :: r :: unwrapRanges after rest
  | rest => before :: rest

/-- The digits of a number, in which single underscores may stand between digits. -/
def digits? : List Char → Option (List Char)
  | [] => none
  | [c] => if c.isDigit then some [c] else none
  | c :: '_' :: rest => if c.isDigit then (digits? rest).map (c :: ·) else none
  | c :: rest => if c.isDigit then (digits? rest).map (c :: ·) else none

/-- The whole number that a text is. -/
def whole? : List Char → Option Int
  | '-' :: cs => (digits? cs).map (fun ds => -(ofDigits ds : Int))
  | '+' :: cs => (digits? cs).map (fun ds => (ofDigits ds : Int))
  | cs => (digits? cs).map (fun ds => (ofDigits ds : Int))
where
  ofDigits (ds : List Char) : Nat := ds.foldl (fun n c => 10 * n + (c.toNat - '0'.toNat)) 0

/-- The letters in the order of ranges. -/
def letters : List Char := "abcdefghijklmnopqrstuvwxyzABCDEFGHIJKLMNOPQRSTUVWXYZ".toList

/-- The place of a letter. -/
def letterPlace? : List Char → Option Nat
  | [c] => letters.idxOf? c
  | _ => none

/-- What a piece of a name stands for: itself, or what its range goes through. -/
def choices? (s : List Char) : Option (List (List Char)) :=
  if ':' ∉ s then some [s]
  else
    match pieces ':' s with
    | [a, b] =>
      match b.getLast? with
      | none => none
      | some c =>
        if c.isDigit then do
          let i ← if a.isEmpty then some 0 else whole? a
          let j ← whole? b
          return (List.range (j - i).toNat).map (fun (k : Nat) => (toString (i + (k : Int))).toList)
        else do
          let i ← letterPlace? (if a.isEmpty then ['a'] else a)
          let j ← letterPlace? b
          return ((letters.take (j + 1)).drop i).map ([·])
    | _ => none

/-- The names that pieces make together, the last piece varying first. A range
without elements makes no names, whatever follows it. -/
def combine? : List (List Char) → Option (List (List Char))
  | [] => some [[]]
  | s :: rest => do
    let cs ← choices? s
    if cs.isEmpty then return []
    let ns ← combine? rest
    return cs.flatMap (fun c => ns.map (c ++ ·))

/-- The names that a name with ranges stands for. -/
def expand? (name : List Char) : Option (List (List Char)) :=
  match cutRanges (name.length + 1) [] name with
  | before :: rest => combine? (unwrapRanges before rest)
  | [] => none

/-- The names that words stand for, and whether a range has made some of them. -/
def expandAll? : List (List Char) → Option (List (List Char) × Bool)
  | [] => some ([], false)
  | w :: ws =>
    if ':' ∈ w then do
      let ns ← expand? w
      let (rest, ranged) ← expandAll? ws
      return (ns ++ rest, ranged || !ns.isEmpty)
    else do
      let (rest, ranged) ← expandAll? ws
      return (w :: rest, ranged)

/-- The names in a text, and whether the text asks for a sequence of them, by a comma
at its end or by a range. There is none where a name is missing or a range has no
end. -/
def names? (cs : List Char) : Option (List (List Char) × Bool) :=
  let m := Marked.ofText cs
  let t := trim m.text
  let sequence := t.getLast? = some ','
  let ps := (pieces ',' (if sequence then trim t.dropLast else t)).map trim
  if ps.any (·.isEmpty) then none
  else (expandAll? (ps.flatMap words)).map (fun r => (r.1.map m.restore, sequence || r.2))

end Text

end FactorPlan
