import FactorPlan.Number.Double
import FactorPlan.Text.Unicode

/-!
Tokens of formula text: names, numbers, quoted text and operators. Blanks and
comments separate tokens; a line end counts only outside brackets. A name is taken
in its normal form. What stands in a quoted text with fields is read later.

Correspondence:
  the tokens `NAME`, `NUMBER`, `STRING`, `OP` ↔ `Token`
  the tokenizer                               ↔ `tokens`
  the escapes of a quoted text                ↔ `unescape`
-/

namespace FactorPlan

namespace Formula

/-- The marks around the parts of a quoted text with fields. -/
inductive FormatMark where
  | begin
  /-- A field begins, the value of which is written in the given way. -/
  | field (conversion : Option Char)
  /-- The format of a field begins. -/
  | spec
  | fieldEnd
  | finish
  deriving DecidableEq, Repr

/-- A token of a formula. -/
inductive Token where
  | name (s : String)
  | int (n : Nat)
  | float (x : Double)
  | imaginary (x : Double)
  | text (s : String)
  | bytes (bs : List Nat)
  /-- Quoted text with fields, as it is written between the quotes. -/
  | formatted (raw : Bool) (body : String)
  | format (m : FormatMark)
  | op (s : String)
  | newline
  /-- A line begins with blanks. -/
  | indent
  deriving DecidableEq, Repr

/-- Why a text is no formula. -/
inductive ReadError where
  /-- The text does not follow the grammar. -/
  | malformed
  /-- A line starts with blanks. -/
  | indented
  deriving DecidableEq, Repr

/-! ## Characters -/

/-- Whether a character may start a name. -/
def isNameStart (c : Char) : Bool :=
  c.isAlpha || c == '_' || (128 ≤ c.toNat && Text.Unicode.startsName c)

/-- Whether a character may stand in a name. -/
def isNameChar (c : Char) : Bool :=
  isNameStart c || c.isDigit || (128 ≤ c.toNat && Text.Unicode.continuesName c)

/-- The characters with one kind of line end. -/
def joinLineEnds : List Char → List Char
  | [] => []
  | '\r' :: '\n' :: rest => '\n' :: joinLineEnds rest
  | c :: rest => (if c = '\r' then '\n' else c) :: joinLineEnds rest

/-- Blanks between tokens of a line. -/
def isBlank (c : Char) : Bool := c == ' ' || c == '\t' || c.toNat == 12

/-! ## Numbers -/

/-- The value of a digit in bases up to sixteen. -/
def digitValue (c : Char) : Nat :=
  if c.isDigit then c.toNat - '0'.toNat
  else if 'a' ≤ c ∧ c ≤ 'f' then c.toNat - 'a'.toNat + 10
  else if 'A' ≤ c ∧ c ≤ 'F' then c.toNat - 'A'.toNat + 10
  else 16

/-- The number written by digits of a base. -/
def digitsValue (base : Nat) (cs : List Char) : Nat :=
  cs.foldl (fun n c => n * base + digitValue c) 0

/-- Whether no two underscores follow each other. -/
def singleUnderscores : List Char → Bool
  | '_' :: '_' :: _ => false
  | _ :: cs => singleUnderscores cs
  | [] => true

/-- Digits of a base with single underscores between them, which are dropped, and
the text after them. None when an underscore is misplaced. -/
def digitRun (base : Nat) (cs : List Char) : Option (List Char × List Char) :=
  let inRun (c : Char) : Bool := digitValue c < base || c == '_'
  let run := cs.takeWhile inRun
  if run.head? = some '_' then some ([], cs)
  else if run.getLast? = some '_' || !singleUnderscores run then none
  else some (run.filter (· ≠ '_'), cs.dropWhile inRun)

/-- A whole number in base 2, 8 or 16, after its two leading characters. -/
def radixToken (base : Nat) (cs : List Char) : Option (Token × List Char) :=
  let cs := match cs with
    | '_' :: rest => rest
    | cs => cs
  match digitRun base cs with
  | some (d :: ds, rest) => some (.int (digitsValue base (d :: ds)), rest)
  | _ => none

/-- The exponent of a decimal number, if there is one. -/
def exponentRun (cs : List Char) : Option (Option Int × List Char) :=
  match cs with
  | c :: rest =>
    if c == 'e' || c == 'E' then
      let (sign, digits) := match rest with
        | '-' :: r => ((-1 : Int), r)
        | '+' :: r => (1, r)
        | r => (1, r)
      match digitRun 10 digits with
      | some (d :: ds, rest') => some (some (sign * digitsValue 10 (d :: ds)), rest')
      | _ => some (none, cs)
    else some (none, cs)
  | [] => some (none, cs)

/-- The value of a decimal number with a point or an exponent. -/
def decimalValue (whole fraction : List Char) (exponent : Int) : Double :=
  let n := digitsValue 10 (whole ++ fraction)
  if n = 0 then .zero
  else
    let e : Int := exponent - fraction.length
    let size : Int := e + decimalLength n
    if 400 < size then .inf false
    else if size < -400 then .zero
    else .ofRat ((n : Rat) * tenPow e)

/-- The digits after a point, if there is one. -/
def fractionRun : List Char → Option (Option (List Char) × List Char)
  | '.' :: rest => (digitRun 10 rest).map fun p => (some p.1, p.2)
  | rest => some (none, rest)

/-- A number in base 10. One with a point or an exponent is not whole, and a whole number does not
begin with a zero. -/
def decimalToken (cs : List Char) : Option (Token × List Char) := do
  let (whole, rest) ← digitRun 10 cs
  let (fraction, rest) ← fractionRun rest
  let (exponent, rest) ← exponentRun rest
  let value := decimalValue whole (fraction.getD []) (exponent.getD 0)
  if rest.head? = some 'j' ∨ rest.head? = some 'J' then return (.imaginary value, rest.drop 1)
  if fraction.isSome || exponent.isSome then return (.float value, rest)
  if whole.head? = some '0' ∧ whole.any (· ≠ '0') then none
  return (.int (digitsValue 10 whole), rest)

/-- A number may not run into a name, but into a word that is none. -/
def endsNumber (rest : List Char) : Bool :=
  !(rest.head?.any isNameChar) ||
    ["if", "else", "and", "or", "in", "is", "not", "for"].contains (String.ofList (rest.takeWhile isNameChar))

/-- A number at the start of the text. -/
def numberToken (cs : List Char) : Option (Token × List Char) :=
  let result := match cs with
    | '0' :: 'x' :: rest => radixToken 16 rest
    | '0' :: 'X' :: rest => radixToken 16 rest
    | '0' :: 'o' :: rest => radixToken 8 rest
    | '0' :: 'O' :: rest => radixToken 8 rest
    | '0' :: 'b' :: rest => radixToken 2 rest
    | '0' :: 'B' :: rest => radixToken 2 rest
    | cs => decimalToken cs
  result.filter (endsNumber ·.2)

/-! ## Quoted text -/

/-- The character of a number; what is no character is shown as such. -/
def charOf (n : Nat) : Char := if n.isValidChar then Char.ofNat n else Char.ofNat 0xFFFD

/-- Escapes of one character. -/
def simpleEscapes : List (Char × Nat) :=
  [('a', 7), ('b', 8), ('f', 12), ('n', 10), ('r', 13), ('t', 9), ('v', 11), ('\\', 92), ('\'', 39), ('"', 34)]

/-- The number of just so many hexadecimal digits, and what follows them. -/
def hexRun (count : Nat) (cs : List Char) : Option (Nat × List Char) :=
  let digits := cs.take count
  if digits.length = count && digits.all (digitValue · < 16) then some (digitsValue 16 digits, cs.drop count)
  else none

/-- What an escape stands for, without its backslash, and what follows it. A backslash that ends the
text stands for itself, and of an escape by name only the form is looked at. -/
def escape? (bytes : Bool) : List Char → Option (List Nat × List Char)
  | [] => some ([92], [])
  | '\n' :: rest => some ([], rest)
  | c :: rest =>
    match simpleEscapes.lookup c with
    | some n => some ([n], rest)
    | none =>
      if digitValue c < 8 then
        let digits := ((c :: rest).take 3).takeWhile (digitValue · < 8)
        some ([digitsValue 8 digits], (c :: rest).drop digits.length)
      else if c = 'x' then (hexRun 2 rest).map fun p => ([p.1], p.2)
      else if bytes then some ([92, c.toNat], rest)
      else if c = 'u' then (hexRun 4 rest).map fun p => ([p.1], p.2)
      else if c = 'U' then (hexRun 8 rest).bind fun p => if p.1 < 0x110000 then some ([p.1], p.2) else none
      else if c = 'N' then
        match rest with
        | '\x7b' :: more =>
          let name := more.takeWhile (· ≠ '\x7d')
          if name.isEmpty || name.length = more.length then none
          else some ([0xFFFD], more.drop (name.length + 1))
        | _ => none
      else some ([92, c.toNat], rest)

/-- The characters that are written with escapes, `fuel` of them at most. -/
def unescape (bytes : Bool) : Nat → List Char → Option (List Nat)
  | _, [] => some []
  | 0, _ => none
  | fuel + 1, c :: rest =>
    if c = '\\' then
      match escape? bytes rest with
      | some (ns, rest) => (unescape bytes fuel rest).map (ns ++ ·)
      | none => none
    else (unescape bytes fuel rest).map (c.toNat :: ·)

/-- The text that is written between quotes. -/
def written (raw : Bool) (cs : List Char) : Option String :=
  if raw then some (String.ofList cs)
  else (unescape false cs.length cs).map fun ns => String.ofList (ns.map charOf)

/-- What stands before the closing quote, and after it. A line end inside is no
quoted text. -/
def quotedRun (quote : Char) : List Char → Option (List Char × List Char)
  | [] => none
  | '\\' :: c :: rest => (quotedRun quote rest).map (fun p => ('\\' :: c :: p.1, p.2))
  | c :: rest =>
    if c = quote then some ([], rest)
    else if c = '\n' then none
    else (quotedRun quote rest).map (fun p => (c :: p.1, p.2))

/-- What stands before triple quotes, and after them; it may hold line ends. -/
def tripleRun (quote : Char) : List Char → Option (List Char × List Char)
  | [] => none
  | '\\' :: c :: rest => (tripleRun quote rest).map (fun p => ('\\' :: c :: p.1, p.2))
  | a :: b :: c :: rest =>
    if a = quote ∧ b = quote ∧ c = quote then some ([], rest)
    else (tripleRun quote (b :: c :: rest)).map (fun p => (a :: p.1, p.2))
  | _ => none

/-- What stands between the quotes at the start of the text, and after them. -/
def quoted : List Char → Option (List Char × List Char)
  | a :: b :: c :: rest =>
    if a = b ∧ b = c then tripleRun a rest else quotedRun a (b :: c :: rest)
  | a :: rest => quotedRun a rest
  | [] => none

/-- The letters that may stand before a quote, in either case. -/
def quoteLetters : List (Char × Char) :=
  [('r', 'r'), ('R', 'r'), ('u', 'u'), ('U', 'u'), ('b', 'b'), ('B', 'b'), ('f', 'f'), ('F', 'f')]

/-- The letters that may stand together before a quote. -/
def quotePrefixes : List (List Char) :=
  [[], ['r'], ['u'], ['b'], ['f'], ['b', 'r'], ['r', 'b'], ['f', 'r'], ['r', 'f']]

/-- The letters before the quote that the text begins with, if it does; so many may follow those that
have been met. -/
def quoteStart? (letters : List Char) : Nat → List Char → Option (List Char)
  | _, [] => none
  | count, c :: rest =>
    if c = '"' || c = '\'' then (if quotePrefixes.contains letters then some letters else none)
    else match count, quoteLetters.lookup c with
      | count + 1, some l => quoteStart? (letters ++ [l]) count rest
      | _, _ => none

/-- Quoted text after the letters before it. -/
def textToken (letters : List Char) (cs : List Char) : Option (Token × List Char) :=
  match quoted cs with
  | none => none
  | some (body, rest) =>
    let raw := letters.contains 'r'
    if letters.contains 'f' then some (.formatted raw (String.ofList body), rest)
    else if letters.contains 'b' then
      if body.any (128 ≤ ·.toNat) then none
      else if raw then some (.bytes (body.map Char.toNat), rest)
      else (unescape true body.length body).map fun bs => (.bytes (bs.map (· % 256)), rest)
    else (written raw body).map fun s => (.text s, rest)

/-! ## Operators -/

/-- The operators, longer ones first. -/
def operators : List String :=
  ["**=", "//=", ">>=", "<<=", "...",
   "**", "//", "<<", ">>", "<=", ">=", "==", "!=", ":=", "->", "+=", "-=", "*=", "/=", "%=",
   "&=", "|=", "^=", "@=",
   "+", "-", "*", "/", "%", "@", "&", "|", "^", "~", "<", ">",
   "(", ")", "[", "]", "\x7b", "\x7d", ",", ":", ".", "=", ";"]

/-- The operator at the start of the text. -/
def operatorToken (cs : List Char) : Option (String × List Char) :=
  (operators.find? (fun o => o.toList.isPrefixOf cs)).map (fun o => (o, cs.drop o.length))

/-- How an operator changes the depth of brackets. -/
def depthAfter (depth : Nat) (o : String) : Nat :=
  if o = "(" || o = "[" || o = "\x7b" then depth + 1
  else if o = ")" || o = "]" || o = "\x7d" then depth - 1
  else depth

/-! ## Reading tokens -/

/-- Whether a line begins with blanks; `blank` says whether there were any since the line began, and
`joined` whether there were any before it was joined with the next. Lines with a comment only do not
count. -/
def beginsIndented (blank joined : Bool) : List Char → Bool
  | [] => blank || joined
  | '\n' :: _ => false
  | '#' :: _ => false
  | '\\' :: '\n' :: rest => !rest.isEmpty && beginsIndented blank (blank || joined) rest
  | '\\' :: _ => false
  | c :: rest =>
    if c.toNat = 12 then beginsIndented false joined rest
    else if c = ' ' || c = '\t' then beginsIndented true joined rest
    else blank || joined

/-- The tokens of a text, `fuel` characters at most, inside `depth` brackets. -/
def tokens : Nat → Nat → List Char → Option (List Token)
  | 0, _, [] => some []
  | 0, _, _ => none
  | fuel + 1, depth, cs =>
    match cs with
    | [] => some []
    | '\n' :: rest =>
      if depth = 0 then
        -- nothing is read of a line that begins with blanks
        if beginsIndented false false rest then some [.newline, .indent]
        else (tokens fuel depth rest).map (.newline :: ·)
      else tokens fuel depth rest
    | '\\' :: '\n' :: rest => if rest.isEmpty then none else tokens fuel depth rest
    | '#' :: rest => tokens fuel depth (rest.dropWhile (· ≠ '\n'))
    | c :: rest =>
      if isBlank c then tokens fuel depth rest
      else match quoteStart? [] 2 cs with
      | some letters =>
        match textToken letters (cs.drop letters.length) with
        | some (t, rest) => (tokens fuel depth rest).map (t :: ·)
        | none => none
      | none =>
        if isNameStart c then
          let word := Text.Unicode.normal (cs.takeWhile isNameChar)
          (tokens fuel depth (cs.dropWhile isNameChar)).map (.name (String.ofList word) :: ·)
        else if c.isDigit || (c = '.' && (rest.head?.map Char.isDigit).getD false) then
          match numberToken cs with
          | some (t, rest) => (tokens fuel depth rest).map (t :: ·)
          | none => none
        else
          match operatorToken cs with
          | some (o, rest) => (tokens fuel (depthAfter depth o) rest).map (.op o :: ·)
          | none => none

end Formula

end FactorPlan
