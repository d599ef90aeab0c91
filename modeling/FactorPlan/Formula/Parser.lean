import FactorPlan.Formula.Format
import FactorPlan.Formula.Scoping

/-!
Reading a formula: from tokens to its tree, by precedence. Every function takes
the tokens that are left and gives those it did not use; `fuel` bounds the depth
of calls and grows with the number of tokens, so that it never runs out on a
well-formed text.

Correspondence:
  `compile(string)` in mode `eval`                   ↔ `parse`
  the rules `expression`, `disjunction`, `inversion` ↔ `expression`, `disjunction`, `inversion`
  `comparison`, `bitwise_or` .. `power`              ↔ `moreComparisons`, `binary`, `prefixed`, `powers`
  `primary`, `atom`, `slices`, `args`                ↔ `primary`, `atom`, `positions`, `arguments`
  `lambda_params`                                    ↔ `parameters`
  `for_if_clauses`                                   ↔ `clauses`
-/

namespace FactorPlan

namespace Formula

/-- The words that are no names. -/
def keywords : List String :=
  ["False", "None", "True", "and", "as", "assert", "async", "await", "break", "class", "continue",
   "def", "del", "elif", "else", "except", "finally", "for", "from", "global", "if", "import", "in",
   "is", "lambda", "nonlocal", "not", "or", "pass", "raise", "return", "try", "while", "with", "yield",
   "__debug__"]

/-- A tree and the tokens after it. -/
abbrev Parsed := Option (Tree × List Token)

/-- Takes one given operator. -/
def expect (o : String) : List Token → Option (List Token)
  | .op p :: rest => if p = o then some rest else none
  | _ => none

/-- Takes one given word. -/
def expectWord (w : String) : List Token → Option (List Token)
  | .name v :: rest => if v = w then some rest else none
  | _ => none

/-- The comparison at the start of the tokens. -/
def compareToken : List Token → Option (CompareOp × List Token)
  | .op "<" :: r => some (.lt, r)
  | .op "<=" :: r => some (.le, r)
  | .op ">" :: r => some (.gt, r)
  | .op ">=" :: r => some (.ge, r)
  | .op "==" :: r => some (.eq, r)
  | .op "!=" :: r => some (.ne, r)
  | .name "in" :: r => some (.isIn, r)
  | .name "not" :: .name "in" :: r => some (.notIn, r)
  | .name "is" :: .name "not" :: r => some (.notSame, r)
  | .name "is" :: r => some (.same, r)
  | _ => none

/-- The binary operators by level, loosest first. -/
def binaryLevels : List (List (String × BinaryOp)) :=
  [[("|", .bitOr)], [("^", .bitXor)], [("&", .bitAnd)], [("<<", .shiftLeft), (">>", .shiftRight)],
   [("+", .add), ("-", .sub)],
   [("*", .mul), ("/", .div), ("//", .floorDiv), ("%", .mod), ("@", .matMul)]]

/-- The operator of a level at the start of the tokens. -/
def levelToken (level : List (String × BinaryOp)) : List Token → Option (BinaryOp × List Token)
  | .op o :: rest => (level.lookup o).map (·, rest)
  | _ => none

/-- The words that begin a clause of a comprehension, and whether it is one that waits. -/
def clauseStart? : List Token → Option (Bool × List Token)
  | .name "for" :: rest => some (false, rest)
  | .name "async" :: .name "for" :: rest => some (true, rest)
  | _ => none

/-- Whether a tree is items in place of one. -/
def isStarred : Tree → Bool
  | .starred _ => true
  | _ => false

/-- One item as it is, and other items as a tuple. The flag says whether there was a comma. -/
def single? (es : List Tree) (comma : Bool) : Option Tree :=
  match es, comma with
  | [], _ => none
  | [e], false => if isStarred e then none else some e
  | es, _ => some (.tuple es)

/-- Whether tokens that begin with an item may begin with a key: the items of a value and a name that
is given a value may not. -/
def mayBeKey : List Token → Bool
  | .op "*" :: _ => false
  | .name _ :: .op ":=" :: _ => false
  | _ => true

/-- The items of a list or a set. -/
def collection (kind : Collection) (es : List Tree) : Tree :=
  match kind with
  | .set => .set es
  | _ => .list es

/-! ## Parameters -/

/-- What may stand between the parameters of a function written in place. -/
inductive Parameter where
  | plain (n : String) (default : Option Tree)
  /-- The parameters before it are by place only. -/
  | slash
  /-- The parameters after it are by name only. -/
  | star
  | further (n : String)
  | furtherNamed (n : String)

/-- How far the parameters have been put together. -/
inductive ParameterStage where
  | positional
  /-- A parameter by name must follow. -/
  | bare
  | named
  | complete
  deriving DecidableEq

/-- Puts parameters together, with the values of those that need not be given. -/
def parametersOf (stage : ParameterStage) (ps : Parameters) (given givenNamed : List Tree) :
    List Parameter → Option (Parameters × List Tree)
  | [] => if stage = .bare then none else some (ps, given ++ givenNamed)
  | .plain n default :: rest =>
    match stage with
    | .positional =>
      -- after a value that need not be given no other must be
      if default.isNone && !given.isEmpty then none
      else parametersOf stage { ps with positional := ps.positional ++ [n] } (given ++ default.toList) givenNamed rest
    | .complete => none
    | _ => parametersOf .named { ps with named := ps.named ++ [n] } given (givenNamed ++ default.toList) rest
  | .slash :: rest =>
    if stage = .positional ∧ ps.unnamed = 0 ∧ ps.positional ≠ [] then
      parametersOf stage { ps with unnamed := ps.positional.length } given givenNamed rest
    else none
  | .star :: rest => if stage = .positional then parametersOf .bare ps given givenNamed rest else none
  | .further n :: rest =>
    if stage = .positional then parametersOf .named { ps with further := some n } given givenNamed rest else none
  | .furtherNamed n :: rest =>
    if stage = .positional ∨ stage = .named then
      parametersOf .complete { ps with furtherNamed := some n } given givenNamed rest
    else none

/-- How far the arguments of a call have been read. -/
inductive ArgumentStage where
  | positional
  /-- An argument by name has been met. -/
  | keyed
  /-- Further arguments by name have been met. -/
  | spread
  deriving DecidableEq

/-! ## Expressions -/

mutual
/-- An expression. -/
def expression : Nat → List Token → Parsed
  | 0, _ => none
  | fuel + 1, ts =>
    match ts with
    | .name "lambda" :: rest =>
      match parameters fuel rest with
      | some (items, rest) =>
        match parametersOf .positional {} [] [] items with
        | some (ps, defaults) =>
          match expression fuel rest with
          | some (body, rest) =>
            if ps.all.eraseDups.length = ps.all.length then some (.lambda ps defaults body, rest) else none
          | none => none
        | none => none
      | none => none
    | ts =>
      match disjunction fuel ts with
      | some (body, rest) =>
        match expectWord "if" rest with
        | some rest =>
          match disjunction fuel rest with
          | some (test, rest) =>
            match expectWord "else" rest with
            | some rest => (expression fuel rest).map (fun p => (.choice test body p.1, p.2))
            | none => none
          | none => none
        | none => some (body, rest)
      | none => none

/-- The parameters of a function written in place, up to the colon. -/
def parameters : Nat → List Token → Option (List Parameter × List Token)
  | 0, _ => none
  | fuel + 1, ts =>
    match ts with
    | .op ":" :: rest => some ([], rest)
    | ts =>
      match parameter fuel ts with
      | some (p, .op "," :: rest) => (parameters fuel rest).map (fun q => (p :: q.1, q.2))
      | some (p, .op ":" :: rest) => some ([p], rest)
      | _ => none

def parameter : Nat → List Token → Option (Parameter × List Token)
  | 0, _ => none
  | fuel + 1, ts =>
    match ts with
    | .op "/" :: rest => some (.slash, rest)
    | .op "*" :: .name n :: rest => if keywords.contains n then none else some (.further n, rest)
    | .op "*" :: rest => some (.star, rest)
    | .op "**" :: .name n :: rest => if keywords.contains n then none else some (.furtherNamed n, rest)
    | .name n :: .op "=" :: rest =>
      if keywords.contains n then none
      else (expression fuel rest).map (fun p => (.plain n (some p.1), p.2))
    | .name n :: rest => if keywords.contains n then none else some (.plain n none, rest)
    | _ => none

/-- An expression, or a name that an expression is given. -/
def named : Nat → List Token → Parsed
  | 0, _ => none
  | fuel + 1, ts =>
    match ts with
    | .name n :: .op ":=" :: rest =>
      if keywords.contains n then none
      else (expression fuel rest).map (fun p => (.assign n p.1, p.2))
    | ts => expression fuel ts

/-- An item: one value, or the items of a value. -/
def item : Nat → List Token → Parsed
  | 0, _ => none
  | fuel + 1, ts =>
    match ts with
    | .op "*" :: rest => (binary fuel binaryLevels rest).map (fun p => (.starred p.1, p.2))
    | ts => named fuel ts

/-- Alternatives joined by `or`. -/
def disjunction : Nat → List Token → Parsed
  | 0, _ => none
  | fuel + 1, ts =>
    match conjunction fuel ts with
    | some (a, rest) =>
      match moreDisjuncts fuel rest with
      | some ([], rest) => some (a, rest)
      | some (es, rest) => some (.logic false (a :: es), rest)
      | none => none
    | none => none

def moreDisjuncts : Nat → List Token → Option (List Tree × List Token)
  | 0, _ => none
  | fuel + 1, ts =>
    match expectWord "or" ts with
    | some rest =>
      match conjunction fuel rest with
      | some (e, rest) => (moreDisjuncts fuel rest).map (fun p => (e :: p.1, p.2))
      | none => none
    | none => some ([], ts)

/-- Conditions joined by `and`. -/
def conjunction : Nat → List Token → Parsed
  | 0, _ => none
  | fuel + 1, ts =>
    match inversion fuel ts with
    | some (a, rest) =>
      match moreConjuncts fuel rest with
      | some ([], rest) => some (a, rest)
      | some (es, rest) => some (.logic true (a :: es), rest)
      | none => none
    | none => none

def moreConjuncts : Nat → List Token → Option (List Tree × List Token)
  | 0, _ => none
  | fuel + 1, ts =>
    match expectWord "and" ts with
    | some rest =>
      match inversion fuel rest with
      | some (e, rest) => (moreConjuncts fuel rest).map (fun p => (e :: p.1, p.2))
      | none => none
    | none => some ([], ts)

/-- A comparison, or the negation of one. -/
def inversion : Nat → List Token → Parsed
  | 0, _ => none
  | fuel + 1, ts =>
    match expectWord "not" ts with
    | some rest => (inversion fuel rest).map (fun p => (.not p.1, p.2))
    | none =>
      match binary fuel binaryLevels ts with
      | some (a, rest) =>
        match moreComparisons fuel rest with
        | some ([], _, rest) => some (a, rest)
        | some (ops, es, rest) => some (.compare a ops es, rest)
        | none => none
      | none => none

def moreComparisons : Nat → List Token → Option (List CompareOp × List Tree × List Token)
  | 0, _ => none
  | fuel + 1, ts =>
    match compareToken ts with
    | some (o, rest) =>
      match binary fuel binaryLevels rest with
      | some (e, rest) => (moreComparisons fuel rest).map (fun p => (o :: p.1, e :: p.2.1, p.2.2))
      | none => none
    | none => some ([], [], ts)

/-- Operands joined by binary operators of the given levels, from the left. -/
def binary : Nat → List (List (String × BinaryOp)) → List Token → Parsed
  | 0, _, _ => none
  | fuel + 1, [], ts => prefixed fuel ts
  | fuel + 1, level :: levels, ts =>
    match binary fuel levels ts with
    | some (a, rest) => moreOperands fuel level levels a rest
    | none => none

def moreOperands :
    Nat → List (String × BinaryOp) → List (List (String × BinaryOp)) → Tree → List Token → Parsed
  | 0, _, _, _, _ => none
  | fuel + 1, level, levels, a, ts =>
    match levelToken level ts with
    | some (o, rest) =>
      match binary fuel levels rest with
      | some (b, rest) => moreOperands fuel level levels (.binary o a b) rest
      | none => none
    | none => some (a, ts)

/-- An operand with its sign; a power binds tighter than a sign before it. -/
def prefixed : Nat → List Token → Parsed
  | 0, _ => none
  | fuel + 1, ts =>
    match ts with
    | .op "-" :: rest => (prefixed fuel rest).map (fun p => (.unary .minus p.1, p.2))
    | .op "+" :: rest => (prefixed fuel rest).map (fun p => (.unary .plus p.1, p.2))
    | .op "~" :: rest => (prefixed fuel rest).map (fun p => (.unary .invert p.1, p.2))
    | .name "await" :: rest =>
      match primary fuel rest with
      | some (b, rest) => powers fuel (.await b) rest
      | none => none
    | ts =>
      match primary fuel ts with
      | some (b, rest) => powers fuel b rest
      | none => none

/-- The power of an operand, if it is raised. -/
def powers : Nat → Tree → List Token → Parsed
  | 0, _, _ => none
  | fuel + 1, b, ts =>
    match expect "**" ts with
    | some rest => (prefixed fuel rest).map (fun p => (.binary .pow b p.1, p.2))
    | none => some (b, ts)

/-- An atom with the calls, attributes and indices after it. -/
def primary : Nat → List Token → Parsed
  | 0, _ => none
  | fuel + 1, ts =>
    match atom fuel ts with
    | some (a, rest) => trailers fuel a rest
    | none => none

def trailers : Nat → Tree → List Token → Parsed
  | 0, _, _ => none
  | fuel + 1, a, ts =>
    match ts with
    | .op "." :: .name n :: rest =>
      -- the last keyword is a constant, which an attribute may be named after
      if keywords.contains n && n != "__debug__" then none else trailers fuel (.attribute a n) rest
    | .op "(" :: rest =>
      match arguments fuel .positional [] rest with
      | some (args, words, values, rest) =>
        let given := words.filterMap id
        if given.eraseDups.length = given.length then trailers fuel (.call a args words values) rest else none
      | none => none
    | .op "[" :: rest =>
      match positions fuel rest with
      | some (is, comma, rest) =>
        -- the items of a value always make a tuple
        match single? is (comma || is.any isStarred) with
        | some i => trailers fuel (.index a i) rest
        | none => none
      | none => none
    | ts => some (a, ts)

/-- The arguments of a call, after its opening bracket; those by place that have been met are
given. -/
def arguments : Nat → ArgumentStage → List Tree → List Token →
    Option (List Tree × List (Option String) × List Tree × List Token)
  | 0, _, _, _ => none
  | fuel + 1, stage, args, ts =>
    match ts with
    | .op ")" :: rest => some (args, [], [], rest)
    | .op "**" :: rest =>
      match expression fuel rest with
      | some (v, .op "," :: rest) =>
        (arguments fuel .spread args rest).map (fun p => (p.1, none :: p.2.1, v :: p.2.2.1, p.2.2.2))
      | some (v, .op ")" :: rest) => some (args, [none], [v], rest)
      | _ => none
    | .op "*" :: rest =>
      if stage = .spread then none
      else match expression fuel rest with
        | some (e, .op "," :: rest) => arguments fuel stage (args ++ [.starred e]) rest
        | some (e, .op ")" :: rest) => some (args ++ [.starred e], [], [], rest)
        | _ => none
    | .name w :: .op "=" :: rest =>
      if keywords.contains w then none
      else match expression fuel rest with
        | some (v, .op "," :: rest) =>
          (arguments fuel (if stage = .spread then .spread else .keyed) args rest).map
            (fun p => (p.1, some w :: p.2.1, v :: p.2.2.1, p.2.2.2))
        | some (v, .op ")" :: rest) => some (args, [some w], [v], rest)
        | _ => none
    | ts =>
      match named fuel ts with
      | some (e, .op "," :: rest) =>
        if stage = .positional then arguments fuel stage (args ++ [e]) rest else none
      | some (e, .op ")" :: rest) => if stage = .positional then some (args ++ [e], [], [], rest) else none
      | some (e, rest) =>
        if stage = .positional ∧ args = [] then
          match clauses fuel .generator e rest with
          | some (c, .op ")" :: rest) => some ([c], [], [], rest)
          | _ => none
        else none
      | none => none

/-- The items between brackets, after the opening one, up to the given closing
bracket. The flag says whether a comma was met. -/
def items : Nat → String → List Token → Option (List Tree × Bool × List Token)
  | 0, _, _ => none
  | fuel + 1, close, ts =>
    match expect close ts with
    | some rest => some ([], false, rest)
    | none =>
      match item fuel ts with
      | some (e, rest) =>
        match expect "," rest with
        | some rest => (items fuel close rest).map (fun p => (e :: p.1, true, p.2.2))
        | none => (expect close rest).map (fun rest => ([e], false, rest))
      | none => none

/-- The positions between square brackets, after the opening one. -/
def positions : Nat → List Token → Option (List Tree × Bool × List Token)
  | 0, _ => none
  | fuel + 1, ts =>
    match expect "]" ts with
    | some rest => some ([], false, rest)
    | none =>
      match position fuel ts with
      | some (e, rest) =>
        match expect "," rest with
        | some rest => (positions fuel rest).map (fun p => (e :: p.1, true, p.2.2))
        | none => (expect "]" rest).map (fun rest => ([e], false, rest))
      | none => none

/-- A position, a range of positions, or those that a value holds. -/
def position : Nat → List Token → Parsed
  | 0, _ => none
  | fuel + 1, ts =>
    match ts with
    | .op "*" :: rest => (expression fuel rest).map (fun p => (.starred p.1, p.2))
    | .op ":" :: rest => range fuel .none rest
    | .name n :: .op ":=" :: rest => named fuel (.name n :: .op ":=" :: rest)
    | ts =>
      match expression fuel ts with
      | some (e, .op ":" :: rest) => range fuel e rest
      | r => r

/-- The rest of a range after its first bound and a colon. -/
def range : Nat → Tree → List Token → Parsed
  | 0, _, _ => none
  | fuel + 1, first, ts =>
    match bound fuel ts with
    | some (last, .op ":" :: rest) => (bound fuel rest).map (fun p => (.slice first last p.1, p.2))
    | some (last, rest) => some (.slice first last .none, rest)
    | none => none

/-- A bound of a range, which need not be given. -/
def bound : Nat → List Token → Parsed
  | 0, _ => none
  | fuel + 1, ts =>
    match ts with
    | .op ":" :: _ => some (.none, ts)
    | .op "," :: _ => some (.none, ts)
    | .op "]" :: _ => some (.none, ts)
    | ts => expression fuel ts

/-- The clauses of a comprehension with the given element. -/
def clauses : Nat → Collection → Tree → List Token → Parsed
  | 0, _, _, _ => none
  | fuel + 1, kind, e, ts =>
    match clauseStart? ts with
    | some (async, rest) =>
      match clause fuel rest with
      | some (target, source, rest) =>
        (innerClauses fuel rest).map (fun p => (.comprehension kind e async target source p.1, p.2))
      | none => none
    | none => none

/-- The target and the source of a clause. -/
def clause : Nat → List Token → Option (Tree × Tree × List Token)
  | 0, _ => none
  | fuel + 1, ts =>
    match targets fuel ts with
    | some (es, comma, rest) =>
      match single? es comma with
      | some target =>
        if target.isTarget then (disjunction fuel rest).map (fun p => (target, p.1, p.2)) else none
      | none => none
    | none => none

/-- The targets of a clause, up to the word before the source. The flag says whether a comma was
met. -/
def targets : Nat → List Token → Option (List Tree × Bool × List Token)
  | 0, _ => none
  | fuel + 1, ts =>
    match expectWord "in" ts with
    | some rest => some ([], false, rest)
    | none =>
      match target fuel ts with
      | some (e, rest) =>
        match expect "," rest with
        | some rest => (targets fuel rest).map (fun p => (e :: p.1, true, p.2.2))
        | none => (expectWord "in" rest).map (fun rest => ([e], false, rest))
      | none => none

def target : Nat → List Token → Parsed
  | 0, _ => none
  | fuel + 1, ts =>
    match ts with
    | .op "*" :: rest => (primary fuel rest).map (fun p => (.starred p.1, p.2))
    | ts => primary fuel ts

/-- Conditions and further clauses of a comprehension. -/
def innerClauses : Nat → List Token → Option (List Tree × List Token)
  | 0, _ => none
  | fuel + 1, ts =>
    match expectWord "if" ts with
    | some rest =>
      match disjunction fuel rest with
      | some (c, rest) => (innerClauses fuel rest).map (fun p => (c :: p.1, p.2))
      | none => none
    | none =>
      match clauseStart? ts with
      | some (async, rest) =>
        match clause fuel rest with
        | some (target, source, rest) =>
          (innerClauses fuel rest).map (fun p => (.clause async target source :: p.1, p.2))
        | none => none
      | none => some ([], ts)

/-- The entries of a dictionary, up to the closing brace. -/
def entries : Nat → List Token → Option (List Tree × List Token)
  | 0, _ => none
  | fuel + 1, ts =>
    match expect "\x7d" ts with
    | some rest => some ([], rest)
    | none =>
      match entry fuel ts with
      | some (e, .op "," :: rest) => (entries fuel rest).map (fun p => (e :: p.1, p.2))
      | some (e, .op "\x7d" :: rest) => some ([e], rest)
      | _ => none

/-- An entry of a dictionary, or the entries of another. -/
def entry : Nat → List Token → Parsed
  | 0, _ => none
  | fuel + 1, ts =>
    match ts with
    | .op "**" :: rest => (binary fuel binaryLevels rest).map (fun p => (.spread p.1, p.2))
    | ts =>
      match expression fuel ts with
      | some (k, .op ":" :: rest) => (expression fuel rest).map (fun p => (.entry k p.1, p.2))
      | _ => none

/-- A dictionary or a set after its opening brace, or a comprehension of one. -/
def braced : Nat → List Token → Parsed
  | 0, _ => none
  | fuel + 1, ts =>
    match expect "**" ts with
    | some _ => (entries fuel ts).map (fun p => (.dict p.1, p.2))
    | none =>
      match item fuel ts with
      | some (k, .op ":" :: rest) =>
        if mayBeKey ts then
          match expression fuel rest with
          | some (v, .op "," :: rest) => (entries fuel rest).map (fun p => (.dict (.entry k v :: p.1), p.2))
          | some (v, .op "\x7d" :: rest) => some (.dict [.entry k v], rest)
          | some (v, rest) =>
            match clauses fuel .dict (.entry k v) rest with
            | some (c, .op "\x7d" :: rest) => some (c, rest)
            | _ => none
          | none => none
        else none
      | some (e, rest) => collected fuel .set "\x7d" e rest
      | none => none

/-- The rest of a list or a set after its first item, or a comprehension of one. -/
def collected : Nat → Collection → String → Tree → List Token → Parsed
  | 0, _, _, _, _ => none
  | fuel + 1, kind, close, e, ts =>
    match expect close ts with
    | some rest => some (collection kind [e], rest)
    | none =>
      match expect "," ts with
      | some rest => (items fuel close rest).map (fun p => (collection kind (e :: p.1), p.2.2))
      | none =>
        if isStarred e then none
        else match clauses fuel kind e ts with
          | some (c, rest) => (expect close rest).map (c, ·)
          | none => none

/-- A value that is given on the way, after the word for it and up to the closing bracket. -/
def given : Nat → List Token → Parsed
  | 0, _ => none
  | fuel + 1, ts =>
    match expectWord "from" ts with
    | some rest =>
      match expression fuel rest with
      | some (e, .op ")" :: rest) => some (.yieldFrom e, rest)
      | _ => none
    | none =>
      match givenItems fuel ts with
      | some ([], false, rest) => some (.yield .none, rest)
      | some (es, comma, rest) => (single? es comma).map (fun e => (.yield e, rest))
      | none => none

def givenItems : Nat → List Token → Option (List Tree × Bool × List Token)
  | 0, _ => none
  | fuel + 1, ts =>
    match expect ")" ts with
    | some rest => some ([], false, rest)
    | none =>
      match givenItem fuel ts with
      | some (e, rest) =>
        match expect "," rest with
        | some rest => (givenItems fuel rest).map (fun p => (e :: p.1, true, p.2.2))
        | none => (expect ")" rest).map (fun rest => ([e], false, rest))
      | none => none

def givenItem : Nat → List Token → Parsed
  | 0, _ => none
  | fuel + 1, ts =>
    match ts with
    | .op "*" :: rest => (binary fuel binaryLevels rest).map (fun p => (.starred p.1, p.2))
    | ts => expression fuel ts

/-- Quoted texts one after the other, as the parts of one. The flag says whether there was one with
fields. -/
def texts : Nat → List Token → Option (List Tree × Bool × List Token)
  | 0, _ => none
  | fuel + 1, ts =>
    match ts with
    | .text s :: rest => (texts fuel rest).map (fun p => (.text s :: p.1, p.2))
    | .format .begin :: rest =>
      match formatItems fuel rest with
      | some (parts, .format .finish :: rest) => (texts fuel rest).map (fun p => (parts ++ p.1, true, p.2.2))
      | _ => none
    | .bytes _ :: _ => none
    | ts => some ([], false, ts)

/-- The parts of a text with fields. -/
def formatItems : Nat → List Token → Option (List Tree × List Token)
  | 0, _ => none
  | fuel + 1, ts =>
    match ts with
    | .text s :: rest => (formatItems fuel rest).map (fun p => (.text s :: p.1, p.2))
    | .format (.field c) :: rest =>
      -- the formula of a field stands in brackets
      match atom fuel rest with
      | some (e, .format .spec :: rest) =>
        match formatItems fuel rest with
        | some (spec, .format .fieldEnd :: rest) =>
          (formatItems fuel rest).map (fun p => (.field e c spec :: p.1, p.2))
        | _ => none
      | some (e, .format .fieldEnd :: rest) => (formatItems fuel rest).map (fun p => (.field e c [] :: p.1, p.2))
      | _ => none
    | ts => some ([], ts)

/-- An atom. -/
def atom : Nat → List Token → Parsed
  | 0, _ => none
  | fuel + 1, ts =>
    match ts with
    | .int n :: rest => some (.int n, rest)
    | .float x :: rest => some (.float x, rest)
    | .imaginary x :: rest => some (.imaginary x, rest)
    | .text s :: rest => joined (texts fuel (.text s :: rest))
    | .format m :: rest => joined (texts fuel (.format m :: rest))
    | .bytes bs :: rest => bytesRun bs rest
    | .op "..." :: rest => some (.ellipsis, rest)
    | .name "True" :: rest => some (.truth true, rest)
    | .name "False" :: rest => some (.truth false, rest)
    | .name "None" :: rest => some (.none, rest)
    | .name "__debug__" :: rest => some (.truth true, rest)
    | .name n :: rest => if keywords.contains n then none else some (.name n, rest)
    | .op "(" :: .op ")" :: rest => some (.tuple [], rest)
    | .op "(" :: .name "yield" :: rest => given fuel rest
    | .op "(" :: rest =>
      match item fuel rest with
      | some (e, .op ")" :: rest) => if isStarred e then none else some (e, rest)
      | some (e, .op "," :: rest) => (items fuel ")" rest).map (fun p => (.tuple (e :: p.1), p.2.2))
      | some (e, rest) =>
        if isStarred e then none
        else match clauses fuel .generator e rest with
          | some (c, .op ")" :: rest) => some (c, rest)
          | _ => none
      | none => none
    | .op "[" :: .op "]" :: rest => some (.list [], rest)
    | .op "[" :: rest =>
      match item fuel rest with
      | some (e, rest) => collected fuel .list "]" e rest
      | none => none
    | .op "\x7b" :: .op "\x7d" :: rest => some (.dict [], rest)
    | .op "\x7b" :: rest => braced fuel rest
    | _ => none
where
  /-- The text of parts, or the parts where there are fields. -/
  joined : Option (List Tree × Bool × List Token) → Parsed
    | some (parts, true, rest) => some (.format parts, rest)
    | some (parts, false, rest) => some (.text (String.join (parts.map fun p => match p with
      | .text s => s
      | _ => "")), rest)
    | none => none
  /-- Bytes one after the other, which no text may follow. -/
  bytesRun (bs : List Nat) : List Token → Parsed
    | .bytes cs :: rest => bytesRun (bs ++ cs) rest
    | .text _ :: _ => none
    | .format .begin :: _ => none
    | rest => some (.bytes bs, rest)
end

/-- The items of a tuple without brackets, after its first item and a comma. -/
def bareItems (depth : Nat) : Nat → List Token → Option (List Tree × List Token)
  | 0, _ => none
  | fuel + 1, ts =>
    match ts with
    | [] => some ([], [])
    | .newline :: _ => some ([], ts)
    | ts =>
      match expression depth ts with
      | some (e, .op "," :: rest) => (bareItems depth fuel rest).map (fun p => (e :: p.1, p.2))
      | some (e, rest) => some ([e], rest)
      | none => none

/-- The tree of tokens, and those that follow it. -/
def parseTokens (ts : List Token) : Parsed :=
  let fuel := 32 * (ts.length + 1)
  match expression fuel ts with
  | some (e, .op "," :: rest) => (bareItems fuel (ts.length + 1) rest).map (fun p => (.tuple (e :: p.1), p.2))
  | r => r

/-- The tree of a formula. -/
def parse (s : String) : Except ReadError Tree := do
  let ts ← readTokens s
  match ts.dropWhile (· = .newline) with
  | .indent :: _ => .error .indented
  | ts =>
    match parseTokens ts with
    | some (t, rest) =>
      match rest.dropWhile (· = .newline) with
      | [] => if t.wellScoped then .ok t else .error .malformed
      | .indent :: _ => .error .indented
      | _ => .error .malformed
    | none => .error .malformed

end Formula

end FactorPlan
