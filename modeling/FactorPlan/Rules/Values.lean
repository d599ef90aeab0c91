import FactorPlan.Rules.Meaningless
import FactorPlan.Formula.Value

/-!
The rules on values of formulas. A value that is no expression is left alone by
the passes; the tests for meaning fail on it, except on functions that
are not applied.

Correspondence:
  `replace_exprs`               ↔ `passesTable` of `all`
  `isinstance(e, Basic)`        ↔ the cases of `passValue`
  `is_meaningless` of any value ↔ `meaninglessValue`
-/

namespace FactorPlan

namespace Rules

open Formula (Value Builtin)

/-- Whether a built-in function makes expressions when applied. -/
def makesExpressions : Builtin → Bool
  | .sum => true
  | .product => true
  | .power => true
  | .equal => true
  | .absolute => true
  | .largest => true
  | .smallest => true
  | .logarithm => true
  | .symbol => true
  | .functionNamed => true
  | _ => false

/-- A test of expressions on a value; `asked` are the names whose arguments the
test asks for. -/
def testValue (test : Expr → Except RuleError Bool) (asked : List String) :
    Value → Except RuleError Bool
  | .expr e => test e
  | .function n => if n ∈ asked then .error .undecided else .ok false
  | .builtin b => if makesExpressions b then .ok false else .error .noParts
  | _ => .error .noParts

def trivialValue : Value → Except RuleError Bool := testValue trivialSomewhere (windowed ++ paired)

def selfValue : Value → Except RuleError Bool := testValue selfSomewhere selfless

/-- Whether a value is without meaning. -/
def meaninglessValue (v : Value) : Except RuleError Bool := either (trivialValue v) (selfValue v)

/-- A pass over a value. -/
def passValue (build : Build) (f : Finder) : Value → List Exchange × Except RuleError Value
  | .expr e =>
    let (rs, r) := pass build f e
    (rs, r.map .expr)
  | v => ([], .ok v)

/-- A pass over named values in order. The lines recorded before a failure are
kept. -/
def passTable (build : Build) (f : Finder) : List (String × Value) →
    Except RuleError (List (String × Value)) × List String
  | [] => (.ok [], [])
  | (n, v) :: rest =>
    match passValue build f v with
    | (rs, .error x) => (.error x, rs.map Exchange.line)
    | (rs, .ok w) =>
      let (ws, lines) := passTable build f rest
      (ws.map ((n, w) :: ·), rs.map Exchange.line ++ lines)

/-- All listed passes over named values, each over all of them before the next. -/
def passesTable (build : Build) : List Finder → List (String × Value) →
    Except RuleError (List (String × Value)) × List String
  | [], t => (.ok t, [])
  | f :: fs, t =>
    match passTable build f t with
    | (.error x, lines) => (.error x, lines)
    | (.ok t, lines) =>
      let (r, more) := passesTable build fs t
      (r, lines ++ more)

end Rules

end FactorPlan
