import FactorPlan.Tidy.Reader

/-!
Tidy scripts: each statement in its tidy text, at an indent of four blanks a level,
with blank lines by one rule throughout.

Correspondence:
  `format_str`                    ↔ `format`
  `EmptyLineTracker`              ↔ `Before`, `blanksBefore`
  the indents of a tokenized text ↔ `indentTo`
-/

namespace FactorPlan

namespace Tidy

/-- What stands on a line. -/
inductive Content where
  | comment (s : String)
  | statement (s : Statement)

/-- A line with its level and the number of blank lines before it. -/
structure Placed where
  level : Nat
  blanks : Nat
  content : Content

/-! ## Levels -/

/-- The columns of the open levels after a line of code in a column, the innermost
first; none if the line is not in place. After the head of a function the code is
further in. -/
def indentTo (opened : Bool) (column : Nat) (columns : List Nat) : Option (List Nat) :=
  match columns with
  | [] => none
  | c :: rest =>
    if opened then if column > c then some (column :: c :: rest) else none
    else if column = c then some (c :: rest)
    else if column < c then indentTo false column rest
    else none

/-- Comments at a level. -/
def placeComments (level : Nat) (notes : List (Nat × String)) : List Placed :=
  notes.map (fun n => { level := level, blanks := n.1, content := .comment n.2 })

/-- Puts entries in place. Comments stand at the level of the code after them. -/
def place (opened : Bool) (columns : List Nat) (notes : List (Nat × String)) (blanks : Nat) :
    List Entry → Option (List Placed)
  | [] => if opened then none else some (placeComments 0 notes)
  | .blank :: rest => place opened columns notes (blanks + 1) rest
  | .comment s :: rest => place opened columns (notes ++ [(blanks, s)]) 0 rest
  | .code column ls :: rest => do
    let columns ← indentTo opened column columns
    let s ← readStatement ls
    let level := columns.length - 1
    let opens := match s with
      | .define _ _ _ => true
      | _ => false
    let more ← place opens columns [] 0 rest
    return placeComments level notes ++ { level := level, blanks := blanks, content := .statement s } :: more

/-! ## Blank lines -/

/-- What matters of the lines before. -/
structure Before where
  /-- The line before, if there is one. -/
  last : Option Placed := none
  /-- The levels of functions that are still open, the innermost first. -/
  defs : List Nat := []

/-- Whether a line is the head of a function. -/
def Placed.isDefine (p : Placed) : Bool :=
  match p.content with
  | .statement (.define _ _ _) => true
  | _ => false

/-- Whether a line is an import. -/
def Placed.isImport (p : Placed) : Bool :=
  match p.content with
  | .statement (.imports _) => true
  | _ => false

/-- Whether a line is a comment. -/
def Placed.isComment (p : Placed) : Bool :=
  match p.content with
  | .comment _ => true
  | _ => false

/-- The number of blank lines between functions and what is around them. -/
def around (level : Nat) : Nat := if level = 0 then 2 else 1

/-- The number of blank lines before a line. -/
def blanksBefore (b : Before) (p : Placed) : Nat :=
  match b.last with
  | none => 0
  | some last =>
    let user := min p.blanks (around p.level)
    let blanks := if b.defs.any (fun l => l ≥ p.level) then around p.level else user
    if p.isDefine then
      if last.isDefine && last.level < p.level then min user 1
      else if last.isComment && last.level = p.level && blanks = 0 then 0
      else around p.level
    else if last.isImport && !p.isImport && last.level = p.level then max blanks 1
    else if last.isDefine then 0
    else blanks

/-- What matters after a line. -/
def Before.next (b : Before) (p : Placed) : Before :=
  let defs := b.defs.filter (fun l => l < p.level)
  { last := some p, defs := if p.isDefine then p.level :: defs else defs }

/-! ## Text -/

/-- The lines of text of a line. -/
def Placed.lines (p : Placed) : List String :=
  let indent := String.ofList (List.replicate (4 * p.level) ' ')
  match p.content with
  | .comment s => [indent ++ commentSpelling s]
  | .statement s => s.lines indent

/-- The lines of text of lines in place. -/
def allLines (b : Before) : List Placed → List String
  | [] => []
  | p :: ps => List.replicate (blanksBefore b p) "" ++ p.lines ++ allLines (b.next p) ps

/-- The tidy text of a script; none if it cannot be read. -/
def format (s : String) : Option String := do
  let es ← entries s
  let ps ← place false [0] [] 0 es
  return String.join ((allLines {} ps).map (· ++ "\n"))

end Tidy

end FactorPlan
