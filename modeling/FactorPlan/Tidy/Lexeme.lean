import FactorPlan.Text.Lines

/-!
Lexemes of a script, with their spelling, and the entries that they form: blank
lines, comments, and lines of code, which go on while a bracket is open.

Correspondence:
  the tokenizer of `format_str` ↔ `entries`
  `generate_comments`           ↔ the comments among `Entry`
-/

namespace FactorPlan

namespace Tidy

/-- A lexeme with its spelling. -/
inductive Lexeme where
  | name (s : String)
  | number (s : String)
  /-- A quoted text with its quotes. -/
  | text (s : String)
  | sign (s : String)
  | comment (s : String)
  deriving DecidableEq, Repr

/-- An entry of a script. -/
inductive Entry where
  | blank
  | comment (s : String)
  /-- Code that begins in a column. -/
  | code (column : Nat) (lexemes : List Lexeme)
  deriving DecidableEq, Repr

/-- Whether a character can stand in a name. -/
def isNameChar (c : Char) : Bool :=
  !Text.isSpace c && !"#()[]\x7b\x7d+-*/!@$%^&=|;:'\",.<>?`~\\".toList.contains c

/-- Signs, longer ones before the shorter ones that they begin with. -/
def signs : List String :=
  ["**=", "//=", ">>=", "<<=", "**", "//", ">>", "<<", "<>", "!=", "->", ":=", "+=", "-=", "*=", "/=", "%=",
   "&=", "@=", "|=", "^=", "<=", ">=", "==", "(", ")", "[", "]", "\x7b", "\x7d", "+", "-", "*", "/", "%", "&",
   "@", "|", "^", "=", "<", ">", "~", ",", ";", ":", "."]

/-- The sign that a text begins with, and the rest. -/
def signRun (cs : List Char) : Option (String × List Char) :=
  (signs.find? (fun s => s.toList.isPrefixOf cs)).map (fun s => (s, cs.drop s.length))

/-- The exponent that a text begins with, which may be none. -/
def exponentRun (cs : List Char) : List Char × List Char :=
  match cs with
  | e :: s :: d :: rest =>
    if e.toLower = 'e' then
      if (s = '+' ∨ s = '-') ∧ d.isDigit then
        (e :: s :: (d :: rest).takeWhile Char.isDigit, rest.dropWhile Char.isDigit)
      else if s.isDigit then
        (e :: (s :: d :: rest).takeWhile Char.isDigit, (s :: d :: rest).dropWhile Char.isDigit)
      else ([], cs)
    else ([], cs)
  | [e, d] => if e.toLower = 'e' ∧ d.isDigit then ([e, d], []) else ([], cs)
  | cs => ([], cs)

/-- The number that a text begins with, and the rest. -/
def numberRun (cs : List Char) : List Char × List Char :=
  let whole := cs.takeWhile Char.isDigit
  let rest := cs.dropWhile Char.isDigit
  let (part, rest) := match rest with
    | '.' :: rest => ('.' :: rest.takeWhile Char.isDigit, rest.dropWhile Char.isDigit)
    | rest => ([], rest)
  let (exponent, rest) := exponentRun rest
  (whole ++ part ++ exponent, rest)

/-- The quoted text after its opening quotes, with the closing ones, and the rest. A
text with one quote at each end stands on one line. -/
def quotedRun (quotes : List Char) : List Char → Option (List Char × List Char)
  | [] => none
  | '\\' :: c :: rest => (quotedRun quotes rest).map (fun r => ('\\' :: c :: r.1, r.2))
  | c :: rest =>
    if quotes.isPrefixOf (c :: rest) then some (quotes, (c :: rest).drop quotes.length)
    else if c = '\n' ∧ quotes.length = 1 then none
    else (quotedRun quotes rest).map (fun r => (c :: r.1, r.2))

/-- The quoted text that a text begins with, and the rest. -/
def textRun : List Char → Option (List Char × List Char)
  | a :: b :: c :: rest =>
    if (a = '\'' ∨ a = '"') ∧ b = a ∧ c = a then
      (quotedRun [a, a, a] rest).map (fun r => (a :: a :: a :: r.1, r.2))
    else if a = '\'' ∨ a = '"' then (quotedRun [a] (b :: c :: rest)).map (fun r => (a :: r.1, r.2))
    else none
  | a :: rest =>
    if a = '\'' ∨ a = '"' then (quotedRun [a] rest).map (fun r => (a :: r.1, r.2)) else none
  | [] => none

/-- Marks that can stand before a quoted text. -/
def textMarks : List String := ["r", "u", "b", "f", "rb", "br", "ur", "fr", "rf"]

/-- The number of open brackets after a sign. -/
def depthAfter (depth : Nat) (s : String) : Nat :=
  if s = "(" ∨ s = "[" ∨ s = "\x7b" then depth + 1
  else if s = ")" ∨ s = "]" ∨ s = "\x7d" then depth - 1
  else depth

/-- The lexemes up to the end of a line of code, and the rest after it. -/
def lineLexemes : Nat → Nat → List Char → Option (List Lexeme × List Char)
  | 0, _, _ => none
  | _ + 1, depth, [] => if depth = 0 then some ([], []) else none
  | fuel + 1, depth, c :: rest =>
    let next (l : Lexeme) (depth : Nat) (rest : List Char) : Option (List Lexeme × List Char) :=
      (lineLexemes fuel depth rest).map (fun r => (l :: r.1, r.2))
    if c = '\n' then if depth = 0 then some ([], rest) else lineLexemes fuel depth rest
    else if Text.isSpace c then lineLexemes fuel depth rest
    else if c = '#' then
      next (.comment (String.ofList ((c :: rest).takeWhile (· ≠ '\n')))) depth (rest.dropWhile (· ≠ '\n'))
    else if c.isDigit || (c == '.' && (rest.head?.map Char.isDigit).getD false) then
      let (n, rest) := numberRun (c :: rest)
      next (.number (String.ofList n)) depth rest
    else if c = '\'' ∨ c = '"' then
      match textRun (c :: rest) with
      | some (t, rest) => next (.text (String.ofList t)) depth rest
      | none => none
    else if isNameChar c then
      let n := (c :: rest).takeWhile isNameChar
      let after := (c :: rest).dropWhile isNameChar
      if textMarks.contains (String.ofList n).toLower && (after.head? == some '\'' || after.head? == some '"') then
        match textRun after with
        | some (t, rest) => next (.text (String.ofList (n ++ t))) depth rest
        | none => none
      else next (.name (String.ofList n)) depth after
    else
      match signRun (c :: rest) with
      | some (s, rest) => next (.sign s) (depthAfter depth s) rest
      | none => none

/-- The entries of a text. -/
def entriesFrom : Nat → List Char → Option (List Entry)
  | 0, _ => none
  | _ + 1, [] => some []
  | fuel + 1, cs =>
    let column := (cs.takeWhile (· = ' ')).length
    match cs.dropWhile (· = ' ') with
    | [] => some []
    | '\n' :: rest => (entriesFrom fuel rest).map (Entry.blank :: ·)
    | '#' :: rest =>
      let after := (rest.dropWhile (· ≠ '\n')).drop 1
      (entriesFrom fuel after).map (Entry.comment (String.ofList ('#' :: rest.takeWhile (· ≠ '\n'))) :: ·)
    | cs =>
      match lineLexemes (cs.length + 1) 0 cs with
      | none => none
      | some (ls, rest) => (entriesFrom fuel rest).map (Entry.code column ls :: ·)

/-- The entries of a text; none if a part of it is no lexeme. -/
def entries (s : String) : Option (List Entry) := entriesFrom (s.length + 1) s.toList

end Tidy

end FactorPlan
