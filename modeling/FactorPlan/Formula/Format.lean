import FactorPlan.Formula.Token

/-!
Quoted text with fields. A field holds a formula between braces, with a way of writing its value and a
format after it; the format is quoted text with fields once more, but not deeper. The tokens of the
formulas are put between marks in place of the text (`readFields`), so that what follows reads tokens
only.

Correspondence:
  the fields of `f'..'`            ↔ `formatParts`
  the tokens of a text with fields ↔ `readFields`
-/

namespace FactorPlan

namespace Formula

/-- The text before the next field, with a doubled brace for a brace where it is in no field, and what
follows it. A closing brace ends it in a field, and is out of place elsewhere. -/
def literalRun (raw nested : Bool) : List Char → Option (List Char × List Char)
  | [] => some ([], [])
  | c :: rest =>
    if c = '\\' && !raw then
      match rest with
      | 'N' :: '\x7b' :: more => named ['\x7b', 'N', '\\'] more
      | d :: more =>
        if d = '\x7b' || d = '\x7d' then (literalRun raw nested (d :: more)).map fun p => (c :: p.1, p.2)
        else (literalRun raw nested more).map fun p => (c :: d :: p.1, p.2)
      | [] => some ([c], [])
    else if c = '\x7b' || c = '\x7d' then
      match rest with
      | d :: more =>
        if d = c && !nested then (literalRun raw nested more).map fun p => (c :: p.1, p.2)
        else if c = '\x7d' && !nested then none
        else some ([], c :: rest)
      | [] => if c = '\x7d' && !nested then none else some ([], [c])
    else (literalRun raw nested rest).map fun p => (c :: p.1, p.2)
where
  /-- The rest of an escape by name; what was read of it stands before, in reverse. -/
  named (before : List Char) : List Char → Option (List Char × List Char)
    | [] => some (before.reverse, [])
    | c :: rest =>
      if c = '\x7d' then (literalRun raw nested rest).map fun p => (before.reverse ++ c :: p.1, p.2)
      else named (c :: before) rest

/-- The bracket that closes another. -/
def closing (c : Char) : Char := if c = '(' then ')' else if c = '[' then ']' else '\x7d'

/-- The formula of a field, within quoted text `quote` (and whether by triple quotes) and open brackets
`stack`, and what follows it: a closing brace, a way of writing the value, or a format. -/
def fieldRun : Option (Char × Bool) → List Char → List Char → Option (List Char × List Char)
  | _, _, [] => none
  | some (q, triple), stack, c :: rest =>
    if c = '\\' then none
    else if c = q then
      if triple then
        match rest with
        | a :: b :: more =>
          if a = q && b = q then (fieldRun none stack more).map fun p => (c :: a :: b :: p.1, p.2)
          else (fieldRun (some (q, triple)) stack (a :: b :: more)).map fun p => (c :: p.1, p.2)
        | rest => (fieldRun (some (q, triple)) stack rest).map fun p => (c :: p.1, p.2)
      else (fieldRun none stack rest).map fun p => (c :: p.1, p.2)
    else (fieldRun (some (q, triple)) stack rest).map fun p => (c :: p.1, p.2)
  | none, stack, c :: rest =>
    if c = '\\' || c = '#' then none
    else if c = '\'' || c = '"' then
      match rest with
      | a :: b :: more =>
        if a = c && b = c then (fieldRun (some (c, true)) stack more).map fun p => (c :: a :: b :: p.1, p.2)
        else (fieldRun (some (c, false)) stack (a :: b :: more)).map fun p => (c :: p.1, p.2)
      | rest => (fieldRun (some (c, false)) stack rest).map fun p => (c :: p.1, p.2)
    else if c = '(' || c = '[' || c = '\x7b' then
      (fieldRun none (closing c :: stack) rest).map fun p => (c :: p.1, p.2)
    else if stack.isEmpty && ['!', ':', '\x7d', '=', '>', '<'].contains c then
      match rest with
      | '=' :: more =>
        if c = '!' || c = '=' || c = '<' || c = '>' then
          (fieldRun none stack more).map fun p => (c :: '=' :: p.1, p.2)
        else some ([], c :: rest)
      | rest =>
        if c = '>' || c = '<' then (fieldRun none stack rest).map fun p => (c :: p.1, p.2)
        else some ([], c :: rest)
    else if c = ')' || c = ']' || c = '\x7d' then
      if stack.head? = some c then (fieldRun none stack.tail rest).map fun p => (c :: p.1, p.2) else none
    else (fieldRun none stack rest).map fun p => (c :: p.1, p.2)

/-- The blanks that a formula in a field may not consist of. -/
def isFieldBlank (c : Char) : Bool := isBlank c || c = '\n'

/-- The text of a field that shows its formula, and what follows it: the sign that asks for it and
the blanks after that. -/
def shownFormula (formula : List Char) : List Char → List Char × List Char
  | '=' :: rest =>
    let blanks := rest.takeWhile fun c => c = ' ' || (9 ≤ c.toNat && c.toNat ≤ 13)
    (formula ++ '=' :: blanks, rest.drop blanks.length)
  | rest => ([], rest)

/-- The way of writing a value, and what follows it. -/
def conversion? : List Char → Option (Option Char × List Char)
  | '!' :: c :: rest => if c = 's' || c = 'r' || c = 'a' then some (some c, rest) else none
  | '!' :: [] => none
  | rest => some (none, rest)

/-- A token of text, if there is any. -/
def textPiece (cs : List Char) : List Token := if cs.isEmpty then [] else [.text (String.ofList cs)]

mutual
/-- The tokens with those of fields in place of the text that holds them. -/
def readFields : Nat → List Token → Option (List Token)
  | _, [] => some []
  | 0, _ => none
  | fuel + 1, t :: ts =>
    match t with
    | .formatted raw body =>
      match formatParts fuel raw 0 body.toList with
      | some (parts, []) => (readFields fuel ts).map (fun ts => .format .begin :: parts ++ .format .finish :: ts)
      | _ => none
    | t => (readFields fuel ts).map (t :: ·)

/-- The tokens of a text with fields, `level` fields deep, and what follows it. -/
def formatParts : Nat → Bool → Nat → List Char → Option (List Token × List Char)
  | 0, _, _, _ => none
  | fuel + 1, raw, level, cs => do
    let (literal, rest) ← literalRun raw (0 < level) cs
    let text ← written raw literal
    let before := textPiece text.toList
    match rest with
    | '\x7b' :: rest =>
      if 2 ≤ level then none
      let (formula, rest) ← fieldRun none [] rest
      if formula.all isFieldBlank then none
      -- brackets around the formula join its lines
      let ts ← tokens (formula.length + 3) 0 ('(' :: formula ++ [')'])
      let ts ← readFields fuel ts
      let (shown, rest) := shownFormula formula rest
      let (conversion, rest) ← conversion? rest
      let (spec, rest) ← match rest with
        | ':' :: rest =>
          (formatParts fuel raw (level + 1) rest).map fun p => (.format .spec :: p.1, p.2)
        | rest => some ([], rest)
      -- a formula that is shown is followed by its value as it is written in a formula
      let conversion := if !shown.isEmpty && spec.isEmpty && conversion.isNone then some 'r' else conversion
      match rest with
      | '\x7d' :: rest =>
        let (more, rest) ← formatParts fuel raw level rest
        some (before ++ textPiece shown ++ .format (.field conversion) :: ts ++ spec ++ .format .fieldEnd :: more, rest)
      | _ => none
    | rest => some (before, rest)
end

/-- The tokens of a formula, or why it has none. -/
def readTokens (s : String) : Except ReadError (List Token) :=
  let cs := joinLineEnds s.toList
  if cs.contains '\x00' then .error .malformed
  else if beginsIndented false false cs then .error .indented
  else match tokens (cs.length + 1) 0 cs with
    | some ts =>
      match readFields (4 * (cs.length + 1)) ts with
      | some ts => .ok ts
      | none => .error .malformed
    | none => .error .malformed

end Formula

end FactorPlan
