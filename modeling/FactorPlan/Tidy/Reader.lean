import FactorPlan.Tidy.Code
import FactorPlan.Tidy.Lexeme

/-!
Reading the lexemes of a line of code as a statement.

Correspondence:
  the parser of `format_str` ↔ `readStatement`
  the rules of its grammar   ↔ `readCode`, `readPower`, `readAtom`
-/

namespace FactorPlan

namespace Tidy

/-- Words that are no names. -/
def keywords : List String :=
  ["and", "as", "assert", "break", "class", "continue", "def", "del", "elif", "else", "except", "finally", "for",
   "from", "global", "if", "import", "in", "is", "lambda", "nonlocal", "not", "or", "pass", "raise", "return",
   "try", "while", "with", "yield"]

/-- Operators between operands. -/
def operators : List String :=
  ["+", "-", "*", "/", "//", "%", "@", "&", "|", "^", "<<", ">>", "<", ">", "<=", ">=", "==", "!=", "<>"]

/-- The quoted texts that lexemes begin with, and the rest. -/
def textsRun : List Lexeme → List String × List Lexeme
  | .text s :: rest => let (ss, rest) := textsRun rest; (s :: ss, rest)
  | rest => ([], rest)

/-- The comments that lexemes begin with, and the rest. -/
def commentsRun : List Lexeme → List String × List Lexeme
  | .comment s :: rest => let (ss, rest) := commentsRun rest; (s :: ss, rest)
  | rest => ([], rest)

/-- The names up to a colon, and the rest after it. -/
def paramNames : List Lexeme → Option (List String × List Lexeme)
  | .sign ":" :: rest => some ([], rest)
  | .name n :: .sign ":" :: rest => some ([n], rest)
  | .name n :: .sign "," :: rest => (paramNames rest).map (fun r => (n :: r.1, r.2))
  | _ => none

mutual
/-- An expression. -/
def readCode : Nat → List Lexeme → Option (Code × List Lexeme)
  | 0, _ => none
  | fuel + 1, .name "lambda" :: rest => do
    let (ps, rest) ← paramNames rest
    let (b, rest) ← readCode fuel rest
    return (.lambda ps b, rest)
  | fuel + 1, ls => do
    let (c, rest) ← readOperand fuel ls
    let (more, rest) ← readChain fuel rest
    return (if more.isEmpty then c else .chain c more, rest)

/-- Operators with their operands. -/
def readChain : Nat → List Lexeme → Option (List (String × Code) × List Lexeme)
  | 0, _ => none
  | fuel + 1, .sign o :: rest =>
    if operators.contains o then do
      let (c, rest) ← readOperand fuel rest
      let (more, rest) ← readChain fuel rest
      return ((o, c) :: more, rest)
    else some ([], .sign o :: rest)
  | _ + 1, ls => some ([], ls)

/-- An operand: signs before a power or an atom with what follows it. -/
def readOperand : Nat → List Lexeme → Option (Code × List Lexeme)
  | 0, _ => none
  | fuel + 1, .sign o :: rest =>
    if o = "-" ∨ o = "+" ∨ o = "~" then do
      let (c, rest) ← readOperand fuel rest
      return (.sign o c, rest)
    else readPower fuel (.sign o :: rest)
  | fuel + 1, ls => readPower fuel ls

/-- An atom with what follows it, and perhaps an exponent. -/
def readPower : Nat → List Lexeme → Option (Code × List Lexeme)
  | 0, _ => none
  | fuel + 1, ls => do
    let (a, rest) ← readAtom fuel ls
    let (c, rest) ← readTrailers fuel a rest
    match rest with
    | .sign "**" :: rest => do
      let (e, rest) ← readOperand fuel rest
      return (.power c e, rest)
    | rest => return (c, rest)

/-- An atom. -/
def readAtom : Nat → List Lexeme → Option (Code × List Lexeme)
  | 0, _ => none
  | _ + 1, .name s :: rest => if keywords.contains s then none else some (.name s, rest)
  | _ + 1, .number s :: rest => some (.number s, rest)
  | _ + 1, .text s :: rest => let (ss, rest) := textsRun rest; some (.texts (s :: ss), rest)
  | fuel + 1, .sign "(" :: rest => do
    let (cs, comma, rest) ← readItems fuel ")" false rest
    return (.parens cs comma, rest)
  | fuel + 1, .sign "[" :: rest => do
    let (cs, comma, rest) ← readItems fuel "]" false rest
    return (.list cs comma, rest)
  | _ + 1, _ => none

/-- Attributes, calls and indices after an expression. -/
def readTrailers : Nat → Code → List Lexeme → Option (Code × List Lexeme)
  | 0, _, _ => none
  | fuel + 1, c, .sign "." :: .name n :: rest =>
    if keywords.contains n then none else readTrailers fuel (.attribute c n) rest
  | _ + 1, _, .sign "." :: _ => none
  | fuel + 1, c, .sign "(" :: rest => do
    let (cs, comma, rest) ← readItems fuel ")" true rest
    readTrailers fuel (.call c cs comma) rest
  | fuel + 1, c, .sign "[" :: rest => do
    let (cs, _, rest) ← readItems fuel "]" false rest
    if cs.isEmpty then none else readTrailers fuel (.index c cs) rest
  | _ + 1, c, ls => some (c, ls)

/-- Items up to a closing bracket, whether a comma stands after the last one, and the
rest. Items can have names if they are arguments. -/
def readItems : Nat → String → Bool → List Lexeme → Option (List Code × Bool × List Lexeme)
  | 0, _, _, _ => none
  | fuel + 1, close, args, ls =>
    match ls with
    | .sign s :: rest =>
      if s = close then some ([], false, rest) else readSome fuel close args ls
    | _ => readSome fuel close args ls

/-- At least one item, and further ones after commas. -/
def readSome : Nat → String → Bool → List Lexeme → Option (List Code × Bool × List Lexeme)
  | 0, _, _, _ => none
  | fuel + 1, close, args, ls => do
    let (notes, ls) := commentsRun ls
    let (c, rest) ← readCode fuel ls
    let (c, rest) ← match args, rest with
      | true, .sign "=" :: rest => (readCode fuel rest).map (fun r => (Code.keyword c r.1, r.2))
      | _, rest => some (c, rest)
    let c := if notes.isEmpty then c else Code.noted notes c
    match rest with
    | .sign "," :: .sign s :: rest =>
      if s = close then return ([c], true, rest)
      let (cs, comma, rest) ← readSome fuel close args (.sign s :: rest)
      return (c :: cs, comma, rest)
    | .sign "," :: rest =>
      let (cs, comma, rest) ← readSome fuel close args rest
      return (c :: cs, comma, rest)
    | .sign s :: rest => if s = close then return ([c], false, rest) else none
    | _ => none
end

/-- An expression that all of the lexemes spell, with fuel for every one of them. -/
def readAll (ls : List Lexeme) : Option (Code × List Lexeme) := readCode (8 * ls.length + 8) ls

/-- Parameters up to a closing parenthesis, and the rest. -/
def readParams : Nat → List Lexeme → Option (List Param × List Lexeme)
  | 0, _ => none
  | _ + 1, .sign ")" :: rest => some ([], rest)
  | fuel + 1, .name n :: rest => do
    if keywords.contains n then none
    let (type, rest) ← match rest with
      | .sign ":" :: rest => (readAll rest).map (fun r => (some r.1, r.2))
      | rest => some (none, rest)
    let (value, rest) ← match rest with
      | .sign "=" :: rest => (readAll rest).map (fun r => (some r.1, r.2))
      | rest => some (none, rest)
    let p : Param := { name := n, type := type, value := value }
    match rest with
    | .sign "," :: rest =>
      let (ps, rest) ← readParams fuel rest
      return (p :: ps, rest)
    | .sign ")" :: rest => return ([p], rest)
    | _ => none
  | _ + 1, _ => none

/-- The words of an import; dotted names are one word. -/
def importWords : List Lexeme → Option (List String)
  | [] => some []
  | .name a :: rest => do
    let ws ← importWords rest
    match rest, ws with
    | .sign "." :: _, w :: ws => return (a ++ w) :: ws
    | _, ws => return a :: ws
  | .sign "." :: rest => do
    match ← importWords rest with
    | w :: ws => return ("." ++ w) :: ws
    | [] => none
  | _ => none

/-- The expressions of an assignment, in order. -/
def readTargets : Nat → List Lexeme → Option (List Code)
  | 0, _ => none
  | fuel + 1, ls => do
    let (c, rest) ← readAll ls
    match rest with
    | [] => return [c]
    | .sign "=" :: rest => return c :: (← readTargets fuel rest)
    | _ => none

/-- The statement that lexemes spell. -/
def readStatement (ls : List Lexeme) : Option Statement :=
  match ls with
  | .name "import" :: _ => (importWords ls).map .imports
  | .name "from" :: _ => (importWords ls).map .imports
  | .name "return" :: [] => some (.give none)
  | .name "return" :: rest => do
    let (c, rest) ← readAll rest
    if rest.isEmpty then return .give (some c) else none
  | .name "def" :: .name n :: .sign "(" :: rest => do
    if keywords.contains n then none
    let (ps, rest) ← readParams (rest.length + 1) rest
    match rest with
    | [.sign ":"] => return .define n ps none
    | .sign "->" :: rest =>
      let (r, rest) ← readAll rest
      if rest = [.sign ":"] then return .define n ps (some r) else none
    | _ => none
  | ls => do
    let cs ← readTargets (ls.length + 1) ls
    match cs.reverse with
    | [] => none
    | c :: ts => return .assign ts.reverse c

end Tidy

end FactorPlan
