import FactorPlan.Plan.Rows
import FactorPlan.Target.Pandas
import FactorPlan.Target.Polars
import FactorPlan.Text.Quoted

/-!
Scripts: rows of grouped items as functions of a data frame, one for each group,
and the steps that apply them in order.

Correspondence:
  `codegen`, up to the template    ↔ `ofRows`
  `func_code`                      ↔ `groupBody`
  `func_name`                      ↔ `funcName`
  `get_groupby_from_tuple`         ↔ `Step.ofKey`, `Step.text`
  `groupbys['sort']`               ↔ `sorting`, `sortText`
  `funcs`, `groupbys`, `exprs_dst` ↔ the fields of `Script`
-/

namespace FactorPlan

namespace Target

/-- The library that a script is written for. -/
inductive Style where
  | polars
  | pandas
  deriving DecidableEq, Repr

/-- How a style writes expressions. -/
def Style.dialect : Style → Dialect
  | .polars => Target.polars
  | .pandas => Target.pandas

/-- The style of a name. -/
def Style.ofName? : String → Option Style
  | "polars" => some .polars
  | "pandas" => some .pandas
  | _ => none

/-- Why a script cannot be written. -/
inductive ScriptError where
  | print (e : PrintError)
  /-- A key without a way of grouping, or a key over time without its columns. -/
  | shortKey
  /-- A key with more or fewer columns than its way of grouping has. -/
  | wrongKey
  /-- A layout that is not there. -/
  | noLayout (name : String)
  deriving DecidableEq, Repr

/-! ## Functions -/

/-- A line in the body of a function. -/
inductive BodyLine where
  /-- Sorts the frame by a column. -/
  | sort (column : String)
  /-- Divides items that depend on each other. -/
  | rule
  /-- Begins a block of assignments. -/
  | begin
  /-- Ends a block of assignments. -/
  | close
  /-- Assigns a column, with the expression as a comment. -/
  | assign (column shown code : String)
  deriving DecidableEq, Repr

namespace BodyLine

/-- A long dash. -/
def dash : String := String.ofList (List.replicate 40 '=')

/-- The text of a line. -/
def text : Style → BodyLine → String
  | .polars, .sort c => "    df = df.sort(by=[\"" ++ c ++ "\"])"
  | .pandas, .sort c => "    df = df.sort_values(by=[\"" ++ c ++ "\"])"
  | .polars, .rule => "# " ++ dash
  | .pandas, .rule => "    # " ++ dash
  | _, .begin => "    df = df.with_columns("
  | _, .close => "    )"
  | .polars, .assign c s t => "# " ++ c ++ " = " ++ s ++ "\n" ++ c ++ "=(" ++ t ++ "),"
  | .pandas, .assign c s t => "    # " ++ c ++ " = " ++ s ++ "\n    df['" ++ c ++ "'] = " ++ t

end BodyLine

variable {α : Type}

/-- How the values of items are written: as a comment, and as code. -/
structure Writer (α : Type) where
  shown : α → String
  code : α → Except PrintError String

/-- The assignment of an item. -/
def assignment (w : Writer α) (x : String × α) : Except ScriptError BodyLine :=
  match w.code x.2 with
  | .ok t => .ok (.assign x.1 (w.shown x.2) t)
  | .error e => .error (.print e)

/-- The lines of a group. In a style with blocks of assignments, a separator ends one
block and begins another. -/
def groupLines (style : Style) (w : Writer α) : Group (String × α) → Except ScriptError (List BodyLine)
  | [] => .ok []
  | none :: rest => do
    let lines ← groupLines style w rest
    return match style with
      | .polars => .close :: .rule :: .begin :: lines
      | .pandas => .rule :: lines
  | some x :: rest => do
    let line ← assignment w x
    return line :: (← groupLines style w rest)

/-- The body of a group's function without sorting: the block that no separator began
is left out, and the last block is ended. -/
def groupBody (style : Style) (w : Writer α) (g : Group (String × α)) :
    Except ScriptError (List BodyLine) := do
  let lines ← groupLines style w g
  return match style with
    | .polars => (lines ++ [BodyLine.close]).drop 1
    | .pandas => lines

/-- The name of a group's function. -/
def funcName (row : Nat) (k : Key) : String := "func_" ++ toString row ++ "_" ++ "__".intercalate k

/-! ## Steps -/

/-- The columns that a key groups by. -/
def groupColumns : Key → Except ScriptError (List String)
  | [] => .error .wrongKey
  | "ts" :: rest => match rest with
    | [asset, _] => .ok [asset]
    | _ => .error .wrongKey
  | "cs" :: rest => match rest with
    | [date] => .ok [date]
    | _ => .error .wrongKey
  | "gp" :: rest => match rest with
    | [date, group] => .ok [date, group]
    | _ => .error .wrongKey
  | _ => .ok []

/-- The date and the asset that a key over time is sorted by. -/
def sorting : Key → Except ScriptError (Option (String × String))
  | [] => .error .shortKey
  | "ts" :: rest => match rest with
    | asset :: date :: _ => .ok (some (date, asset))
    | _ => .error .shortKey
  | _ => .ok none

/-- The application of a function, within groups by the listed columns. -/
structure Step where
  func : String
  columns : List String
  /-- Whether the order of rows is kept. -/
  ordered : Bool
  deriving DecidableEq, Repr

namespace Step

/-- The step that applies a group's function. -/
def ofKey (k : Key) (func : String) : Except ScriptError Step := do
  let cs ← groupColumns k
  return { func := func, columns := cs, ordered := k.head? = some "ts" }

/-- How rows are treated within groups. -/
def option (style : Style) (ordered : Bool) : String :=
  match style, ordered with
  | .polars, true => "maintain_order=True"
  | .polars, false => "maintain_order=False"
  | .pandas, _ => "group_keys=False"

/-- The text of a step. -/
def text (style : Style) (s : Step) : String :=
  if s.columns.isEmpty then "df = " ++ s.func ++ "(df)"
  else
    "df = df.groupby(by=" ++ Text.quotedList s.columns ++ ", " ++ option style s.ordered ++ ").apply(" ++
      s.func ++ ")"

end Step

/-! ## Notes -/

/-- A note about what a script computes. -/
inductive Note where
  /-- A block of a function begins. -/
  | block (func : String)
  | item (column shown : String)
  deriving DecidableEq, Repr

/-- The text of a note. -/
def Note.text : Note → String
  | .block f => "# #" ++ BodyLine.dash ++ f
  | .item c s => "# " ++ c ++ " = " ++ s

/-- The notes about a group. -/
def groupNotes (w : Writer α) (func : String) (g : Group (String × α)) : List Note :=
  g.map (fun x => match x with
    | none => .block func
    | some (n, a) => .item n (w.shown a))

/-! ## Scripts -/

/-- A script. -/
structure Script where
  /-- The date and the asset that the frame is sorted by. -/
  sorted : Option (String × String) := none
  funcs : Table String (List BodyLine) := []
  steps : Table String Step := []
  notes : List Note := []

namespace Script

/-- Adds the function of a group that is not empty. -/
def addGroup (style : Style) (w : Writer α) (row : Nat) (s : Script) (k : Key) (g : Group (String × α)) :
    Except ScriptError Script := do
  if g.isEmpty then return s
  let name := funcName row k
  let lines ← groupBody style w g
  let order ← sorting k
  let body := match order with
    | some (date, _) => .sort date :: lines
    | none => lines
  let step ← Step.ofKey k name
  return {
    sorted := order <|> s.sorted
    funcs := Table.set name body s.funcs
    steps := Table.set name step s.steps
    notes := s.notes ++ groupNotes w name g }

/-- Adds the functions of a row. -/
def addRow (style : Style) (w : Writer α) (row : Nat) (s : Script) :
    Row Key (String × α) → Except ScriptError Script
  | [] => .ok s
  | (k, g) :: rest => do
    let s ← addGroup style w row s k g
    addRow style w row s rest

/-- Adds the functions of rows, the first of which has the number `row`. -/
def addRows (style : Style) (w : Writer α) (row : Nat) (s : Script) :
    Rows Key (String × α) → Except ScriptError Script
  | [] => .ok s
  | r :: rs => do
    let s ← addRow style w row s r
    addRows style w (row + 1) s rs

/-- The script of rows. -/
def ofRows (style : Style) (w : Writer α) (rs : Rows Key (String × α)) : Except ScriptError Script :=
  addRows style w 0 {} rs

/-- The text that sorts the frame. -/
def sortText (style : Style) (s : Script) : String :=
  match style, s.sorted with
  | _, none => "df = df"
  | .polars, some (date, asset) => "df = df.sort(by=[\"" ++ date ++ "\", \"" ++ asset ++ "\"])"
  | .pandas, some (date, asset) =>
    "df = df.sort_values(by=[\"" ++ date ++ "\", \"" ++ asset ++ "\"]).reset_index(drop=True)"

end Script

end Target

end FactorPlan
