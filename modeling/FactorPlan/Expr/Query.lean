import FactorPlan.Expr.Build

/-!
Questions about expressions: the name of a node, the symbols it uses in order of
occurrence, and the parts by which a shared expression is kept.

Correspondence:
  `node.name`, where there is one          ↔ `name?`
  `get_node_name`                          ↔ `nodeName`
  `is_NegativeX`                           ↔ `isNegatedLeaf`
  the symbols that `get_children` collects ↔ `symbols`
  `get_symbols`                            ↔ `argumentSymbols`
  `append_node`                            ↔ `sharedParts`
-/

namespace FactorPlan

namespace Expr

/-- The name of a symbol or of a named function at the root. -/
def name? : Expr → Option String
  | .symbol n => some n
  | .apply (.named n) _ => some n
  | _ => none

/-- The name of a node: that of its symbol or function, or that of its kind. -/
def nodeName (e : Expr) : String :=
  let kind (path : String) : String := "<class 'sympy." ++ path ++ "." ++ e.kindName ++ "'>"
  match e with
  | .symbol n => n
  | .scalar _ => kind "core.numbers"
  | .constant _ => kind "core.numbers"
  | .truth _ => kind "logic.boolalg"
  | .sum _ => kind "core.add"
  | .product _ => kind "core.mul"
  | .power _ _ => kind "core.power"
  | .apply (.rel _) _ => kind "core.relational"
  | .apply f _ => f.kindName

/-- Whether the expression is a number with the given value, of whatever kind. -/
def isValue (n : Int) : Expr → Bool
  | .scalar s => s.sameValue (.exact n)
  | _ => false

/-- Whether the expression is minus one leaf. -/
def isNegatedLeaf : Expr → Bool
  | .product [a, b] => a.isValue (-1) && b.isAtom
  | _ => false

mutual
/-- The symbols in an expression, from left to right, with repetitions. -/
def symbols : Expr → List String
  | .symbol n => [n]
  | .sum ts => symbolsList ts
  | .product fs => symbolsList fs
  | .power b e => symbols b ++ symbols e
  | .apply _ as => symbolsList as
  | _ => []

/-- The symbols in a list of expressions, from left to right. -/
def symbolsList : List Expr → List String
  | [] => []
  | a :: as => symbols a ++ symbolsList as
end

/-- The symbols in the arguments of an expression. A symbol by itself has none. -/
def argumentSymbols (e : Expr) : List String := symbolsList e.args

/-- The parts by which an expression is kept as a shared one: a product with the
number 1 or -1 gives its other factors that are no leaves, anything else itself. -/
def sharedParts : Expr → List Expr
  | .product (a :: rest) =>
    if a.isValue (-1) || a.isValue 1 then rest.filter (!·.isAtom) else [.product (a :: rest)]
  | e => [e]

end Expr

end FactorPlan
