import FactorPlan.Formula.Eval
import FactorPlan.Table
import FactorPlan.Text.Lines

/-!
Named formulas given as text: lines of the form `name = formula`. A line is cut at
every equals sign and its first two pieces are the name and the formula; lines
without the sign, and those with a number sign in the name, are passed over.

Correspondence:
  `string_to_exprs`             ↔ `ofText`
  `expr.split('=')`, cut to two ↔ `assignment?`
  the lines that are read       ↔ `assignments`
-/

namespace FactorPlan

namespace Formula

/-- The name and the formula of a line, if it has both. -/
def assignment? (line : List Char) : Option (String × String) :=
  match Text.pieces '=' line with
  | name :: formula :: _ =>
    if name.contains '#' then none
    else some (String.ofList (Text.trim name), String.ofList (Text.trim formula))
  | _ => none

/-- The named formulas of a text, in order. -/
def assignments (text : String) : List (String × String) :=
  (Text.lines text.toList).filterMap assignment?

/-- The values of named formulas, in order; the first failure counts. -/
def evaluateAll (scope : Scope) : List (String × String) → Except EvalError (List (String × Value))
  | [] => .ok []
  | (n, s) :: rest => do
    let v ← evaluate scope s
    let vs ← evaluateAll scope rest
    return (n, v) :: vs

/-- The table of the values of named formulas. -/
def evaluateTable (scope : Scope) (named : List (String × String)) :
    Except EvalError (Table String Value) :=
  (evaluateAll scope named).map Table.ofList

/-- The values of the named formulas of a text. -/
def ofText (scope : Scope) (text : String) : Except EvalError (Table String Value) :=
  evaluateTable scope (assignments text)

end Formula

end FactorPlan
