import FactorPlan.Plan.Parts
import FactorPlan.Formula.Eval
import FactorPlan.Sharing.Extract

/-!
Bindings of columns to expressions: shared parts under numbered names, then the
factors under their own.

Correspondence:
  `ExprTool.cse`      ↔ `bind`
  `symbols(variable)` ↔ `Slot.ofName`
  `ExprTool.reduce`   ↔ the entries that `bind` simplifies
  `exprs_dict`        ↔ `Bindings`
-/

namespace FactorPlan

namespace Plan

open Formula (Value)

/-- What an expression is bound to: one column, or several when a factor's name holds
more than one. -/
inductive Slot where
  | column (name : String)
  | columns (names : List String)
  deriving DecidableEq, Repr

namespace Slot

/-- The slot that a factor's name stands for. -/
def ofName (name : String) : Except PlanError Slot :=
  match Formula.symbolNames name with
  | .ok ([n], false) => .ok (.column n)
  | .ok (ns, _) => .ok (.columns ns)
  | .error _ => .error .badName

/-- The text of a slot. -/
def text : Slot → String
  | .column n => n
  | .columns [n] => "(" ++ n ++ ",)"
  | .columns ns => "(" ++ ", ".intercalate ns ++ ")"

end Slot

/-- Expressions by slot, in order. -/
abbrev Bindings := Table Slot Expr

/-- The expressions among values; none of another kind may be there. -/
def expressions : List Value → Except PlanError (List Expr)
  | [] => .ok []
  | .expr e :: vs => do return e :: (← expressions vs)
  | _ :: _ => .error .noExpression

/-- The slots of named factors. -/
def slots : List String → Except PlanError (List Slot)
  | [] => .ok []
  | n :: ns => do
    let t ← Slot.ofName n
    return t :: (← slots ns)

/-- Binds the shared parts of the listed expressions to their names, and the last
expressions to the named factors. A later binding of a slot takes the place of an
earlier one. -/
def bind (share : List Expr → Sharing.Shared) (simplify : Expr → Expr) (merged : List Value)
    (names : List String) : Except PlanError Bindings := do
  let es ← expressions merged
  let shared := share es
  let ts ← slots names
  let outputs := if names.isEmpty then [] else shared.exprs.drop (shared.exprs.length - names.length)
  let all := shared.parts.map (fun p => (Slot.column p.1, p.2)) ++ ts.zip outputs
  return Table.ofList (all.map (fun p => (p.1, simplify p.2)))

end Plan

end FactorPlan
