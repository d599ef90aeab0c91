import FactorPlan.Expr.Arith

/-!
Replacement of nodes. A changed node is built again over its changed arguments; how a
node is built is a parameter, so that replacement can be reasoned about apart from
evaluation. Building may be refused, and then so is the replacement.

Correspondence:
  `xreplace`                 ↔ `tryReplace`
  the flag of `_xreplace`    ↔ the truth value of `replaceIn`
  `expr.func(*args)`         ↔ `Build`
-/

namespace FactorPlan

/-- Why a node cannot be built. -/
inductive BuildError where
  /-- An argument has no place in the order of numbers. -/
  | incomparable
  /-- An argument is of the wrong kind. -/
  | wrongKind
  /-- An argument lacks an operation that is asked of it. -/
  | unsupported
  /-- The remainder by zero is asked for. -/
  | zeroDivisor
  deriving DecidableEq, Repr

/-- How a node of the kind of the given expression is built over new arguments, or why it
cannot be. -/
abbrev Build := Expr → List Expr → Except BuildError Expr

/-- How a node is built where every node can be. -/
abbrev Rebuild := Expr → List Expr → Expr

/-- Building that is never refused. -/
def Rebuild.always (rebuild : Rebuild) : Build := fun e as => .ok (rebuild e as)

namespace Expr

mutual
/-- Replaces nodes from the top down: a node with a replacement is replaced whole,
any other is built again if one of its arguments changed. The flag says whether
something was replaced. -/
def replaceIn {m : Type → Type} [Monad m] (build : Expr → List Expr → m Expr)
    (rule : Expr → Option Expr) : Expr → m (Expr × Bool)
  | .sum ts =>
    match rule (.sum ts) with
    | some r => pure (r, true)
    | none => do
      let (us, changed) ← replaceInList build rule ts
      if changed then return (← build (.sum ts) us, true) else return (.sum ts, false)
  | .product fs =>
    match rule (.product fs) with
    | some r => pure (r, true)
    | none => do
      let (us, changed) ← replaceInList build rule fs
      if changed then return (← build (.product fs) us, true) else return (.product fs, false)
  | .power b e =>
    match rule (.power b e) with
    | some r => pure (r, true)
    | none => do
      let (c, i) ← replaceIn build rule b
      let (f, j) ← replaceIn build rule e
      if i || j then return (← build (.power b e) [c, f], true) else return (.power b e, false)
  | .apply f as =>
    match rule (.apply f as) with
    | some r => pure (r, true)
    | none => do
      let (us, changed) ← replaceInList build rule as
      if changed then return (← build (.apply f as) us, true) else return (.apply f as, false)
  | e =>
    match rule e with
    | some r => pure (r, true)
    | none => pure (e, false)

/-- Replaces nodes in each expression of a list. -/
def replaceInList {m : Type → Type} [Monad m] (build : Expr → List Expr → m Expr)
    (rule : Expr → Option Expr) : List Expr → m (List Expr × Bool)
  | [] => pure ([], false)
  | a :: as => do
    let (b, i) ← replaceIn build rule a
    let (bs, j) ← replaceInList build rule as
    return (b :: bs, i || j)
end

/-- The expression with nodes replaced from the top down, or why a node that has to be built
again cannot be. -/
def tryReplace (build : Build) (rule : Expr → Option Expr) (e : Expr) : Except BuildError Expr := do
  return (← replaceIn build rule e).1

/-- Replacement where every node can be built. -/
def replaceFlag (rebuild : Rebuild) (rule : Expr → Option Expr) (e : Expr) : Expr × Bool :=
  replaceIn (m := Id) rebuild rule e

/-- Replacement in a list where every node can be built. -/
def replaceFlagList (rebuild : Rebuild) (rule : Expr → Option Expr) (as : List Expr) :
    List Expr × Bool :=
  replaceInList (m := Id) rebuild rule as

/-- The expression with nodes replaced from the top down, where every node can be built. -/
def replaceWith (rebuild : Rebuild) (rule : Expr → Option Expr) (e : Expr) : Expr :=
  (replaceFlag rebuild rule e).1

mutual
/-- Applies `f` to every node from the bottom up, building changed nodes again
before `f` sees them. -/
def mapBottomUp (rebuild : Rebuild) (f : Expr → Expr) : Expr → Expr
  | .sum ts =>
    let us := mapBottomUpList rebuild f ts
    f (if us = ts then .sum ts else rebuild (.sum ts) us)
  | .product fs =>
    let us := mapBottomUpList rebuild f fs
    f (if us = fs then .product fs else rebuild (.product fs) us)
  | .power b e =>
    let c := mapBottomUp rebuild f b
    let x := mapBottomUp rebuild f e
    f (if c = b ∧ x = e then .power b e else rebuild (.power b e) [c, x])
  | .apply g as =>
    let us := mapBottomUpList rebuild f as
    f (if us = as then .apply g as else rebuild (.apply g as) us)
  | e => f e

def mapBottomUpList (rebuild : Rebuild) (f : Expr → Expr) : List Expr → List Expr
  | [] => []
  | a :: as => mapBottomUp rebuild f a :: mapBottomUpList rebuild f as
end

end Expr

end FactorPlan
