import FactorPlan.Grouping.Key

/-!
Splitting an expression by group. An operator of one grouping over a part of
another grouping needs that part as a column of its own. `split` finds the keys
that occur in an expression, the parts to be computed beforehand and the symbols
in order of occurrence.

Correspondence:
  `get_children`                      ↔ `split`
  `output_exprs`, `output_symbols`    ↔ `Met`
  the branches on `unique` and `curr` ↔ `needed`
  `get_key`                           ↔ `soleKey`
-/

namespace FactorPlan

/-- What is met on the way through an expression: parts to be computed beforehand
and symbols, in order. -/
structure Met where
  parts : List Expr := []
  symbols : List String := []
  deriving DecidableEq, Repr

namespace Met

def append (a b : Met) : Met :=
  { parts := a.parts ++ b.parts, symbols := a.symbols ++ b.symbols }

instance : Append Met := ⟨append⟩

end Met

namespace Grouping

/-- The parts that a node makes necessary, `own` being its key and `below` the
keys in each of its arguments. With two keys below, all arguments are computed
beforehand; otherwise a grouped operator needs those without its own key. -/
def needed (own : Key) (args : List Expr) (below : List (List Key)) (keys : List Key) : List Expr :=
  if 2 ≤ keys.length then (args.filter (!·.isAtom)).flatMap Expr.sharedParts
  else if own ≠ Key.plain then
    ((args.zip below).filter (fun p => !p.2.contains own && !p.1.isAtom)).flatMap
      (fun p => p.1.sharedParts)
  else []

/-- The symbol at a node, if it is one. -/
def ownSymbol : Expr → List String
  | .symbol n => [n]
  | _ => []

/-- Joins what was met in the arguments of a node with the node itself. -/
def settle (rule : Expr → Except GroupError Key) (e : Expr)
    (below : Met × Except GroupError (List (List Key))) : Met × Except GroupError (List Key) :=
  match rule e, below with
  | .error x, _ => ({}, .error x)
  | .ok _, (m, .error x) => (m, .error x)
  | .ok own, (m, .ok below) =>
    let keys := below.flatten.eraseDups.filter (· ≠ Key.plain)
    let m := m ++ { parts := needed own e.args below keys }
    if own = Key.plain then (m ++ { symbols := ownSymbol e }, .ok keys) else (m, .ok [own])

/-- Puts what is met first before what is met next. -/
def follow (a : Met × Except GroupError (List Key)) (b : Met × Except GroupError (List (List Key))) :
    Met × Except GroupError (List (List Key)) :=
  match a with
  | (m, .error x) => (m, .error x)
  | (m, .ok ks) => (m ++ b.1, b.2.map (ks :: ·))

mutual
/-- What is met in an expression, and the keys that a node above it has to deal
with: those of its outermost grouped operators. -/
def split (rule : Expr → Except GroupError Key) : Expr → Met × Except GroupError (List Key)
  | .sum ts => settle rule (.sum ts) (splitList rule ts)
  | .product fs => settle rule (.product fs) (splitList rule fs)
  | .power b e =>
    settle rule (.power b e)
      (follow (split rule b) (follow (split rule e) ({}, .ok [])))
  | .apply f as => settle rule (.apply f as) (splitList rule as)
  | e => settle rule e ({}, .ok [])

/-- What is met in a list of expressions, up to the first failure. -/
def splitList (rule : Expr → Except GroupError Key) :
    List Expr → Met × Except GroupError (List (List Key))
  | [] => ({}, .ok [])
  | a :: as => follow (split rule a) (splitList rule as)
end
/-- The one key of an expression, from the keys found in it. -/
def soleKey : List Key → Except GroupError Key
  | [] => .ok Key.plain
  | [k] => .ok k
  | _ => .error .mixed

end Grouping

end FactorPlan
