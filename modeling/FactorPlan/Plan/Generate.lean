import FactorPlan.Plan.Bindings
import FactorPlan.Plan.Chain
import FactorPlan.Plan.Dependency
import FactorPlan.Rules.Values
import FactorPlan.Target.Text
import FactorPlan.Tidy.Format

/-!
From named factors to a script, in one go: factors are simplified by rules, split and shared,
columns are put into rows, and the rows are written as code.

Correspondence:
  `ExprTool.dag`                 ↔ `schedule`
  `ExprTool.all`                 ↔ `generate`
  `replace_exprs`, unless `fast` ↔ `prepared`
  `numbered_symbols('_x_')`      ↔ `sharedName`
-/

namespace FactorPlan

namespace Plan

open Formula (Value)

/-- How an expression is written in a style. -/
def exprWriter (style : Target.Style) : Target.Writer Expr where
  shown e := e.text
  code e := e.write style.dialect

/-- How a value is written in a style. -/
def valueWriter (style : Target.Style) : Target.Writer Value where
  shown
    | .expr e => e.text
    | v => v.plainText
  code
    | .expr e => e.write style.dialect
    | v => .ok v.plainText

/-- A list of names. -/
def namesText (ns : List String) : String := "[" ++ ", ".intercalate ns ++ "]"

/-- Factors with their texts. -/
def factorTexts (factors : Table String Value) : List (String × String) :=
  factors.map (fun f => (f.1, (valueWriter .polars).shown f.2))

/-- What is asked for. When `fast`, factors are not passed through the rules, columns are not merged
and moved, and the code is not tidied. -/
structure Request where
  setting : Setting := {}
  style : Target.Style := .polars
  layout : String := Target.layoutFile
  fast : Bool := false

/-- Why no script comes of it. -/
inductive GenerateError where
  | rule (e : RuleError)
  | plan (e : PlanError)
  | rows (e : RowsError)
  | script (e : Target.ScriptError)
  /-- The code cannot be tidied. -/
  | unreadable
  deriving DecidableEq, Repr

/-- A script with the columns it has to do with and the changes made by rules. -/
structure Generated where
  code : String
  columns : List String
  log : List String

/-- The dependency graph of bindings and its rows. When `fast`, no columns are
merged; otherwise they are taken in the given order and nodes are built as given. -/
def schedule (s : Setting) (build : Build) (order : List String → List String) (fast : Bool)
    (b : Bindings) (names : List String) : Except PlanError (Graph × Rows Key Graph.Item) := do
  let g ← Graph.start s (b.map (fun p => (p.1, Value.expr p.2)))
  let g ← if fast then .ok g
    else match Graph.middle s build order g names with
      | (g, .ok ()) => .ok g
      | (_, .error e) => .error e
  return (g, ← g.rows)

/-- The factors as they are planned, with the changes made by rules. -/
def prepared (fast : Bool) (factors : Table String Value) :
    Except GenerateError (Table String Value × List String) :=
  if fast then .ok (factors, [])
  else
    match Rules.passesTable Expr.build (Rules.all Expr.simplify) factors with
    | (.ok fs, log) => .ok (fs, log)
    | (.error e, _) => .error (.rule e)

/-- The name that shared parts begin with. -/
def sharedName : String := "_x_"

/-- The script of named factors. -/
def generate (q : Request) (factors : Table String Value) : Except GenerateError Generated := do
  let (factors, log) ← prepared q.fast factors
  let (merged, symbols) ← (merge q.setting Expr.simplify factors).mapError .plan
  let b ← (bind (Sharing.extract sharedName) Expr.simplify merged factors.keys).mapError .plan
  let (g, rs) ← (schedule q.setting Expr.build List.eraseDups q.fast b factors.keys).mapError .plan
  let rs ← if q.fast then .ok rs
    else match Chain.optimize List.eraseDups true true rs with
      | (rs, .ok ()) => .ok rs
      | (_, .error e) => .error (.rows e)
  let written := Target.write q.style (exprWriter q.style) rs (namesText symbols)
    (factorTexts factors) q.layout
  let code ← written.mapError .script
  let code ← if q.fast then .ok code
    else match Tidy.format code with
      | some t => .ok t
      | none => .error .unreadable
  return { code := code, columns := g.vertices, log := log }

end Plan

end FactorPlan
