import FactorPlan.Algebra.Simplify
import FactorPlan.Expr.Query

/-!
Passes over named operators: a windowed sum over its window length is a
mean, a repeated rank is one rank, a factor one is dropped, a window of at most one
row is the value itself, and a value less its delayed value is a difference. Each
pass finds its replacements in the expression as given, then makes them one after
the other.

Correspondence:
  the loop that collects `replacements`         ↔ `find`
  the loop of `e.xreplace({node: replacement})` ↔ `Exchange.applyAll`
  the line that is printed                      ↔ `Exchange.line`
  `_replace__ts_sum__to__ts_mean`               ↔ `pass` of `meanOfSum`
  `_replace__repeat`                            ↔ `pass` of `repeated`
  `_replace__one_mul`                           ↔ `pass` of `unitFactor`
  `_replace__ts_xxx_1`                          ↔ `pass` of `trivialWindow`
  `_replace__ts_delay__to__ts_delta`            ↔ `pass` of `differenceOfDelay`
  the passes of `replace_exprs`                 ↔ `all`
-/

namespace FactorPlan

/-- Why a pass over an expression fails. -/
inductive RuleError where
  /-- An operator lacks an argument that is asked for. -/
  | missingArgument
  /-- A comparison has no answer. -/
  | undecided
  /-- A nested application of an evaluated function, which has no name of its own. -/
  | unnamed
  /-- The value has no parts to look at. -/
  | noParts
  /-- A node over a replaced argument cannot be built again. -/
  | build (e : BuildError)
  deriving DecidableEq, Repr

/-- A node and what takes its place. -/
structure Exchange where
  node : Expr
  result : Expr
  deriving DecidableEq, Repr

namespace Exchange

/-- The line that records a replacement. -/
def line (r : Exchange) : String := r.node.text ++ "   ->   " ++ r.result.text

/-- Makes a replacement wherever the node occurs. -/
def apply (build : Build) (r : Exchange) (e : Expr) : Except BuildError Expr :=
  Expr.tryReplace build (fun x => if x = r.node then some r.result else none) e

/-- Makes replacements one after the other, up to one that is refused. The list is of
those that were begun. -/
def applyAll (build : Build) : List Exchange → Expr → List Exchange × Except BuildError Expr
  | [], e => ([], .ok e)
  | r :: rs, e =>
    match r.apply build e with
    | .ok d =>
      let (begun, result) := applyAll build rs d
      (r :: begun, result)
    | .error x => ([r], .error x)

end Exchange

namespace Rules

/-- The replacement at one node, if there is one. -/
abbrev Finder := Expr → Except RuleError (Option Expr)

/-- The replacements at the listed nodes, in order. -/
def find (f : Finder) : List Expr → Except RuleError (List Exchange)
  | [] => .ok []
  | e :: es => do
    let here ← f e
    let rest ← find f es
    match here with
    | some r => return { node := e, result := r } :: rest
    | none => return rest

/-- A pass: the replacements that were begun, and the expression with all of them made. -/
def pass (build : Build) (f : Finder) (e : Expr) : List Exchange × Except RuleError Expr :=
  match find f e.nodes with
  | .error x => ([], .error x)
  | .ok rs =>
    let (begun, result) := Exchange.applyAll build rs e
    (begun, result.mapError .build)

/-- An argument by its place. -/
def argument (i : Nat) (as : List Expr) : Except RuleError Expr :=
  match as[i]? with
  | some a => .ok a
  | none => .error .missingArgument

/-- Whether an expression is at most one. -/
def atMostOne (e : Expr) : Except RuleError Bool :=
  match Expr.relation .le e Expr.one with
  | .ok (.truth b) => .ok b
  | _ => .error .undecided

/-! ## The passes -/

/-- A sum over a window divided by the window length is a mean. -/
def meanOfSum : Finder
  | .product (.scalar (.exact q) :: .apply (.named "ts_sum") as :: _) => do
    let n ← argument 1 as
    if n.isValue q.den && q.num == 1 then
      return some (.apply (.named "ts_mean") [← argument 0 as, n])
    else return none
  | _ => .ok none

/-- The functions that change nothing when applied twice. -/
def idempotent : List String := ["cs_rank", "sign", "Abs"]

/-- An idempotent function of its own result is that result. -/
def repeated : Finder := fun e =>
  match e.args with
  | [] => .ok none
  | a :: _ =>
    if e.nodeName = a.nodeName then
      match e.name? with
      | some n => .ok (if n ∈ idempotent then some a else none)
      | none => .error .unnamed
    else .ok none

/-- A factor one is dropped. -/
def unitFactor : Finder
  | .product (a :: rest) => .ok (if a.isValue 1 then some (Expr.rawProduct rest) else none)
  | _ => .ok none

/-- The operators that give the value itself on a window of one row. -/
def windowed : List String :=
  ["ts_mean", "ts_sum", "ts_decay_linear", "ts_max", "ts_min", "ts_arg_max", "ts_arg_min",
   "ts_product", "ts_std_dev", "ts_rank"]

/-- An operator on a window of at most one row gives the value itself. -/
def trivialWindow : Finder := fun e =>
  if e.nodeName ∈ windowed then do
    let n ← argument 1 e.args
    if ← atMostOne n then return some (← argument 0 e.args) else return none
  else .ok none

/-- The terms that stand for a term of a sum: for the negative of a delayed value,
a difference and the negative value. -/
def undelayed : Expr → Except RuleError (List Expr)
  | .product (a :: .apply (.named "ts_delay") as :: rest) =>
    if a.isValue (-1) then do
      let x ← argument 0 as
      let n ← argument 1 as
      if x.isLogical then .error .undecided
      else return [.apply (.named "ts_delta") [x, n], Expr.neg x]
    else .ok [.product (a :: .apply (.named "ts_delay") as :: rest)]
  | e => .ok [e]

/-- The terms that stand for the terms of a sum. -/
def undelayedTerms : List Expr → Except RuleError (List Expr)
  | [] => .ok []
  | t :: ts => do
    let us ← undelayed t
    let vs ← undelayedTerms ts
    return us ++ vs

/-- A value less its delayed value is a difference. The terms are replaced where
simplification then finds something to join. -/
def differenceOfDelay (simplify : Expr → Expr) : Finder
  | .sum ts => do
    let us ← undelayedTerms ts
    if ts.length < us.length then
      let s := simplify (.sum us)
      return if s.args.length < us.length then some s else none
    else return none
  | _ => .ok none

/-- The passes in their order. -/
def all (simplify : Expr → Expr) : List Finder :=
  [meanOfSum, repeated, unitFactor, trivialWindow, differenceOfDelay simplify]

end Rules

end FactorPlan
