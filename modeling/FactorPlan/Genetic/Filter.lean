import FactorPlan.Expr.Order
import FactorPlan.Formula.Value
import FactorPlan.Genetic.Registry
import FactorPlan.Rules.Values

/-!
Candidates that a genetic search drops: those that are a single leaf, hold an
infinity, or apply an operator to a number of the wrong kind.

Correspondence:
  `is_invalid`             ↔ `isDropped`
  `_invalid_atom_infinite` ↔ `isLeafOrInfinite`
  `_invalid_number_type`   ↔ `hasWrongNumber`
-/

namespace FactorPlan

namespace Genetic

open Formula (Value)

/-- Why a candidate cannot be judged. -/
inductive FilterError where
  /-- An operator lacks an argument that its signature has. -/
  | missingArgument
  /-- The value is an operator without arguments. -/
  | unapplied
  /-- The value is no expression. -/
  | noExpression
  deriving DecidableEq, Repr

/-- Whether a node is an infinity. -/
def isInfinity : Expr → Bool
  | .scalar s => s.isInfinite
  | .constant .undirected => true
  | _ => false

/-- Whether an expression is a leaf or holds an infinity. -/
def isLeafOrInfinite (e : Expr) : Bool := e.isAtom || e.nodes.any isInfinity

/-- Whether an argument is refused where a kind is asked for: a number for a column,
and a number with a binary point for a whole number. -/
def refuses : Kind → Expr → Bool
  | .column, .scalar _ => true
  | .whole, .scalar s => s.isBinary
  | _, _ => false

/-- Whether some argument is refused. Arguments are looked at in order, and a kind
without a rule asks for none. -/
def anyRefused : List Kind → List Expr → Except FilterError Bool
  | [], _ => .ok false
  | .real :: ks, as => anyRefused ks as.tail
  | k :: ks, a :: as => if refuses k a then .ok true else anyRefused ks as
  | _ :: _, [] => .error .missingArgument

/-- The name of the operator that a node applies. -/
def operatorName? : Expr → Option String
  | .apply (.rel _) _ => none
  | .apply f _ => some f.kindName
  | _ => none

/-- Whether a node applies a known operator to a number of the wrong kind. -/
def misapplies (s : Signatures) (e : Expr) : Except FilterError Bool :=
  match (operatorName? e).bind s.get? with
  | some ks => anyRefused ks e.args
  | none => .ok false

/-- Whether some listed node is misapplied; a failure counts if no earlier node is. -/
def anyMisapplied (s : Signatures) : List Expr → Except FilterError Bool
  | [] => .ok false
  | e :: es => do if ← misapplies s e then return true else anyMisapplied s es

/-- Whether a candidate applies an operator to a number of the wrong kind. -/
def hasWrongNumber (s : Signatures) (e : Expr) : Except FilterError Bool := anyMisapplied s e.nodes

/-- Whether a candidate is dropped. -/
def isDropped (s : Signatures) (e : Expr) : Except FilterError Bool :=
  if isLeafOrInfinite e then .ok true else hasWrongNumber s e

/-! ## Values -/

/-- The first test on any value; a function that is not applied fails it. -/
def isLeafOrInfiniteValue : Value → Except FilterError Bool
  | .expr e => .ok (isLeafOrInfinite e)
  | .function _ => .ok true
  | .builtin b => if Rules.makesExpressions b then .ok true else .error .noExpression
  | _ => .error .noExpression

/-- The second test on any value. -/
def hasWrongNumberValue (s : Signatures) : Value → Except FilterError Bool
  | .expr e => hasWrongNumber s e
  | .function n =>
    match s.get? n with
    | some ks => if ks.any (· ≠ .real) then .error .unapplied else .ok false
    | none => .ok false
  | .builtin b => if Rules.makesExpressions b then .ok false else .error .noExpression
  | _ => .error .noExpression

/-- Whether a value is dropped. -/
def isDroppedValue (s : Signatures) (v : Value) : Except FilterError Bool := do
  if ← isLeafOrInfiniteValue v then return true else hasWrongNumberValue s v

end Genetic

end FactorPlan
