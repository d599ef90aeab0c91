import FactorPlan.Expr.Query

/-!
Group keys: over which groups of rows an operator is computed. A key is a list of
words, the way of grouping first and then the columns it needs.

Correspondence:
  `CL_TUP`                       ↔ `plain`
  the tuples of `TS`, `CS`, `GP` ↔ `overTime`, `acrossMarket`, `withinGroup`
  `get_current_by_prefix`        ↔ `ofRoot` with `Naming.byLetters`
  `get_current_by_name`          ↔ `ofRoot` with `Naming.byList`
-/

namespace FactorPlan

/-- The key of a group. -/
abbrev Key := List String

namespace Key

/-- Whole columns, without grouping. -/
def plain : Key := ["cl"]

/-- The history of each asset, in order of date. -/
def overTime (asset date : String) : Key := ["ts", asset, date]

/-- All assets of each date. -/
def acrossMarket (date : String) : Key := ["cs", date]

/-- The assets of each date with a common value in the column `group`. -/
def withinGroup (date group : String) : Key := ["gp", date, group]

end Key

/-- The columns that identify a row. -/
structure Columns where
  date : String := "date"
  asset : String := "asset"
  deriving DecidableEq, Repr

/-- How the grouping of an operator is told from its name: from the first three
letters, or from lists of names. -/
inductive Naming where
  | byLetters
  | byList (time market group : List String)
  deriving DecidableEq, Repr

/-- Why an expression has no group key. -/
inductive GroupError where
  /-- The name of an operator has fewer than three letters. -/
  | shortName
  /-- An operator within groups has no arguments. -/
  | noGroup
  /-- The first argument of an operator within groups has no name. -/
  | unnamedGroup
  /-- There is more than one key to choose from. -/
  | mixed
  deriving DecidableEq, Repr

namespace Key

/-- The key of an operator within groups: its first argument names the groups. -/
def ofGroup (date : String) : List Expr → Except GroupError Key
  | [] => .error .noGroup
  | g :: _ =>
    match g.name? with
    | some n => .ok (withinGroup date n)
    | none => .error .unnamedGroup

/-- The key of a named operator with its arguments. -/
def ofOperator (c : Columns) : Naming → String → List Expr → Except GroupError Key
  | .byLetters, name, args =>
    match name.toList with
    | 't' :: 's' :: '_' :: _ => .ok (overTime c.asset c.date)
    | 'c' :: 's' :: '_' :: _ => .ok (acrossMarket c.date)
    | 'g' :: 'p' :: '_' :: _ => ofGroup c.date args
    | _ :: _ :: _ :: _ => .ok plain
    | _ => .error .shortName
  | .byList time market group, name, args =>
    if name ∈ time then .ok (overTime c.asset c.date)
    else if name ∈ market then .ok (acrossMarket c.date)
    else if name ∈ group then ofGroup c.date args
    else .ok plain

/-- The key of the root of an expression. Everything but a named operator is
computed on whole columns. -/
def ofRoot (c : Columns) (n : Naming) : Expr → Except GroupError Key
  | .apply (.named f) args => ofOperator c n f args
  | _ => .ok plain

end Key

end FactorPlan
