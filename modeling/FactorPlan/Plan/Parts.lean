import FactorPlan.Algebra.Simplify
import FactorPlan.Formula.Value
import FactorPlan.Grouping.Split
import FactorPlan.Table

/-!
The parts of named factors. A factor is simplified and split by group; the parts
of all factors, each once, are followed by the factors themselves.

Correspondence:
  `ExprTool(date, asset)` and `set_current` ↔ `Setting`
  `ExprTool.extract`                        ↔ `partsOf`
  `ExprTool.merge`                          ↔ `merge`
-/

namespace FactorPlan

namespace Plan

open Formula (Value)

/-- Why a plan cannot be made. -/
inductive PlanError where
  | group (e : GroupError)
  /-- A value that is no expression and cannot become one. -/
  | noExpression
  /-- A text where an expression is needed. -/
  | text
  /-- A factor with a name that is not free. -/
  | reservedName
  /-- A name that names no symbol. -/
  | badName
  /-- A column depends on itself. -/
  | cyclic
  /-- A column that is not there, or about which something asked for is not known. -/
  | unknown
  /-- A node of an expression cannot be built again. -/
  | build (e : BuildError)
  deriving DecidableEq, Repr

/-- How columns are grouped. -/
structure Setting where
  columns : Columns := {}
  naming : Naming := .byLetters

/-- The key of the root of an expression in a setting. -/
def Setting.rule (s : Setting) : Expr → Except GroupError Key := Key.ofRoot s.columns s.naming

/-- A value as an expression. -/
def expression : Value → Except PlanError Expr
  | .text _ => .error .text
  | v =>
    match v.toExpr? with
    | some e => .ok e
    | none => .error .noExpression

/-- The parts of one factor and its symbols in order of occurrence. -/
def partsOf (s : Setting) (simplify : Expr → Expr) (v : Value) : Except PlanError Met := do
  let e ← expression v
  match Grouping.split s.rule (simplify e) with
  | (m, .ok _) => return m
  | (_, .error x) => throw (.group x)

/-- The parts of factors and their symbols, in order. -/
def partsOfAll (s : Setting) (simplify : Expr → Expr) : List Value → Except PlanError Met
  | [] => .ok {}
  | v :: vs => do
    let m ← partsOf s simplify v
    let rest ← partsOfAll s simplify vs
    return m ++ rest

/-- The parts of named factors, each once, followed by the factors, and their
symbols, each once. -/
def merge (s : Setting) (simplify : Expr → Expr) (factors : Table String Value) :
    Except PlanError (List Value × List String) := do
  if factors.contains "self" then throw .reservedName
  let m ← partsOfAll s simplify (factors.map (·.2))
  return (m.parts.eraseDups.map .expr ++ factors.map (·.2), m.symbols.eraseDups)

end Plan

end FactorPlan
