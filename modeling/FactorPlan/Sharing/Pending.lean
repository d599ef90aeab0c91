import FactorPlan.Expr.Build

/-!
Expressions with pending operations. While shared parts are looked for, a sum,
product or power may be held back unevaluated; each such operation has a number
by which it is told from all others.

Correspondence:
  `Unevaluated` ↔ `Pending.held`
  `opt_subs`    ↔ `Substitutes`
-/

namespace FactorPlan

namespace Sharing

/-- The operations that may be held back. -/
inductive Operation where
  | sum | product | power
  deriving DecidableEq, Repr

/-- Evaluates an operation. -/
def Operation.build : Operation → List Expr → Expr
  | .sum, es => Expr.sumOf es
  | .product, es => Expr.productOf es
  | .power, [b, x] => Expr.pow b x
  | .power, es => Expr.productOf es

/-- An expression or an operation that is held back. -/
inductive Pending where
  | whole (e : Expr)
  | held (number : Nat) (op : Operation) (args : List Pending)
  deriving Inhabited

namespace Pending

/-- Whether two are the same: equal expressions, or one held-back operation. -/
def same : Pending → Pending → Bool
  | .whole a, .whole b => a = b
  | .held i _ _, .held j _ _ => i = j
  | _, _ => false

/-- The value listed for a key. -/
def lookup {α : Type} (p : Pending) : List (Pending × α) → Option α
  | [] => none
  | (q, a) :: rest => if q.same p then some a else lookup p rest

end Pending

/-- What stands for an expression while shared parts are looked for. -/
abbrev Substitutes := List (Expr × Pending)

namespace Substitutes

/-- Sets what stands for an expression. -/
def set (e : Expr) (p : Pending) (s : Substitutes) : Substitutes := (e, p) :: s

/-- What stands for an expression. -/
def get (e : Expr) (s : Substitutes) : Pending := (s.lookup e).getD (.whole e)

end Substitutes

end Sharing

end FactorPlan
