import FactorPlan.Sharing.Overlap
import FactorPlan.Algebra.CommonFactor
import FactorPlan.Expr.Query

/-!
The search for substitutes: expressions that are negatives or reciprocals of
others stand as such, so that the others can be shared, and overlapping sums and
products get common parts.

Correspondence:
  `opt_cse`                  ↔ `substitutes`
  `_find_opts`               ↔ `visit`, `walk`
  `adds`, `muls`, `opt_subs` ↔ `Search`
-/

namespace FactorPlan

namespace Sharing

/-- What has been met in the search. -/
structure Search where
  seen : List Expr := []
  subs : Substitutes := []
  sums : List Expr := []
  products : List Expr := []
  next : Nat := 0

namespace Search

def addSum (s : Search) (e : Expr) : Search :=
  if s.sums.contains e then s else { s with sums := s.sums ++ [e] }

def addProduct (s : Search) (e : Expr) : Search :=
  if s.products.contains e then s else { s with products := s.products ++ [e] }

/-- Holds an operation back in place of an expression. -/
def hold (s : Search) (e : Expr) (op : Operation) (args : List Expr) : Search :=
  { s with subs := s.subs.set e (.held s.next op (args.map .whole)), next := s.next + 1 }

/-- Looks at a node after its arguments. -/
def visit (s : Search) (e : Expr) : Search :=
  let (s, e) :=
    if e.leadsWithMinus then
      let n := match e with
        | .sum ts => Expr.sumOf (ts.map Expr.neg)
        | e => Expr.neg e
      if n.isAtom then (s, e)
      else
        let s := s.hold e .product [Expr.negOne, n]
        ({ s with seen := n :: s.seen }, n)
    else (s, e)
  match e with
  | .product _ => s.addProduct e
  | .sum _ => s.addSum e
  | .power b x => if x.leadsWithMinus then s.hold e .power [Expr.pow b (Expr.neg x), Expr.negOne] else s
  | _ => s

mutual
/-- Searches an expression, arguments before the node, each node once. -/
def walk (s : Search) : Expr → Search
  | .sum ts =>
    if s.seen.contains (.sum ts) then s
    else (walkList { s with seen := .sum ts :: s.seen } ts).visit (.sum ts)
  | .product fs =>
    if s.seen.contains (.product fs) then s
    else (walkList { s with seen := .product fs :: s.seen } fs).visit (.product fs)
  | .power b x =>
    if s.seen.contains (.power b x) then s
    else (walk (walk { s with seen := .power b x :: s.seen } b) x).visit (.power b x)
  | .apply f as =>
    if s.seen.contains (.apply f as) then s
    else (walkList { s with seen := .apply f as :: s.seen } as).visit (.apply f as)
  | _ => s

def walkList (s : Search) : List Expr → Search
  | [] => s
  | a :: as => walkList (walk s a) as
end

/-- Splits a product into its commuting factors and the others; the commuting ones
are compared with those of other products. -/
def splitProduct (acc : Search × List Expr) (m : Expr) : Search × List Expr :=
  let (s, products) := acc
  let (c, fixed) := m.commutingPart
  if c.isEmpty then (s, products)
  else
    let cm := Expr.productOf c
    let s :=
      if fixed.isEmpty then s
      else
        let n := if cm.isValue 1 then Expr.productOf fixed else .product [cm, Expr.productOf fixed]
        { s with subs := s.subs.set m (.whole n) }
    (s, if 1 < c.length && !products.contains cm then products ++ [cm] else products)

end Search

/-- What stands for the parts of the listed expressions. -/
def substitutes (es : List Expr) : Substitutes :=
  let s := es.foldl Search.walk {}
  let (s, products) := s.products.foldl Search.splitProduct (s, [])
  let (subs, next) := overlaps .sum s.next s.sums s.subs
  (overlaps .product next products subs).1

end Sharing

end FactorPlan
