import FactorPlan.Rules.Passes

/-!
Expressions without meaning: operators on a window of at most one row, and those
that compare an expression with itself.

Correspondence:
  `is_meaningless`         ↔ `meaningless`
  `_meaningless__ts_xxx_1` ↔ `hasTrivialWindow`, `trivialSomewhere`
  `_meaningless__xx_xx`    ↔ `comparesSelf`, `selfSomewhere`
-/

namespace FactorPlan

namespace Rules

/-- The operators on pairs of columns, whose window is the third argument. -/
def paired : List String := ["ts_corr", "ts_covariance"]

/-- Whether a node works on a window of at most one row. -/
def hasTrivialWindow (e : Expr) : Except RuleError Bool := do
  let own ← if e.nodeName ∈ windowed then atMostOne (← argument 1 e.args) else .ok false
  if own then return true
  else if e.nodeName ∈ paired then atMostOne (← argument 2 e.args)
  else return false

/-- The functions of two arguments that are of no use on equal ones. -/
def selfless : List String := ["Max", "Min", "ts_corr", "ts_covariance"]

/-- Whether a node compares an expression with itself. -/
def comparesSelf (e : Expr) : Except RuleError Bool :=
  if e.nodeName ∈ selfless then do
    let a ← argument 0 e.args
    let b ← argument 1 e.args
    return equalValue a b
  else .ok false
where
  /-- Equality, numbers being compared by value. -/
  equalValue : Expr → Expr → Bool
    | .scalar s, .scalar t => s.sameValue t
    | a, b => a = b

/-- Whether some listed node passes a test; a failure counts if no earlier node
passes. -/
def anyNode (test : Expr → Except RuleError Bool) : List Expr → Except RuleError Bool
  | [] => .ok false
  | e :: es => do if ← test e then return true else anyNode test es

/-- Whether a test passes, or else the other. -/
def either (a b : Except RuleError Bool) : Except RuleError Bool := do
  if ← a then return true else b

/-- Whether an expression has an operator on a window of at most one row. -/
def trivialSomewhere (e : Expr) : Except RuleError Bool := anyNode hasTrivialWindow e.nodes

/-- Whether an expression compares a part with itself. -/
def selfSomewhere (e : Expr) : Except RuleError Bool := anyNode comparesSelf e.nodes

/-- Whether an expression is without meaning. -/
def meaningless (e : Expr) : Except RuleError Bool := either (trivialSomewhere e) (selfSomewhere e)

end Rules

end FactorPlan
