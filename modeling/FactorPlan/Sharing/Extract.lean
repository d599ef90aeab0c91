import FactorPlan.Sharing.Search
import FactorPlan.Expr.Query

/-!
Extraction of shared parts: a part that occurs more than once gets a name, and
the expressions are rebuilt over the names.

Correspondence:
  `cse` with `optimizations="basic"`                ↔ `extract`
  `_find_repeated`                                  ↔ `count`
  `_rebuild`                                        ↔ `rebuildF`
  `numbered_symbols`                                ↔ `freshName`
  `sub_pre`, `factor_terms` of `preprocess_for_cse` ↔ `prepare`
-/

namespace FactorPlan

namespace Sharing

/-- What occurs in expressions: the parts met, those met again, and the names of
symbols. -/
structure Occurrences where
  met : List Pending := []
  again : List Pending := []
  names : List String := []

/-- Counts the parts of an expression, within `fuel` levels. The parts of what has
been met are not counted again. -/
def count (subs : Substitutes) : Nat → Occurrences → Pending → Occurrences
  | 0, o, _ => o
  | fuel + 1, o, p =>
    match p with
    | .whole (.symbol n) => { o with names := n :: o.names }
    | .whole e =>
      if e.isAtom then o
      else if o.met.any p.same then { o with again := p :: o.again }
      else
        let o := { o with met := p :: o.met }
        match subs.get e with
        | .whole e => (e.args.map Pending.whole).foldl (count subs fuel) o
        | .held _ _ args => args.foldl (count subs fuel) o
    | .held _ _ args =>
      if o.met.any p.same then { o with again := p :: o.again }
      else args.foldl (count subs fuel) { o with met := p :: o.met }

/-- Shared parts with their names, and the place of the next name. -/
structure Named where
  names : List (Pending × String) := []
  parts : List (String × Expr) := []
  next : Nat := 0

/-- The first name from a place on that is not taken, and the place after it; one
of the first `fuel` names is free. -/
def freshName (pre : String) (taken : List String) : Nat → Nat → String × Nat
  | 0, n => (pre ++ toString n, n + 1)
  | fuel + 1, n =>
    let name := pre ++ toString n
    if taken.contains name then freshName pre taken fuel (n + 1) else (name, n + 1)

/-- The order in which the arguments of a node are rebuilt: those of sums, and the
commuting ones of products, from small to large. -/
def rebuildOrder (e : Expr) : List Expr :=
  match e with
  | .sum ts => Expr.sortBySize ts
  | .product _ =>
    let (c, fixed) := e.commutingPart
    if c.length = 1 && c.all (·.isValue 1) then fixed else Expr.sortBySize c ++ fixed
  | e => e.args

/-- Builds a node over rebuilt arguments. A sum or product whose arguments did not
change is kept as it stands. -/
def rebuildNode (e : Expr) (old new : List Expr) : Expr :=
  match e with
  | .sum _ => if new = old then e else Expr.sumOf new
  | .product _ => if new = old then e else Expr.productOf new
  | e => Expr.rebuild e new

/-- Gives a part that occurs again its name. -/
def settle (o : Occurrences) (pre : String) (p : Pending) (e : Expr) (s : Named) : Expr × Named :=
  if o.again.any p.same then
    let (name, next) := freshName pre o.names o.names.length s.next
    (.symbol name, { names := (p, name) :: s.names, parts := s.parts ++ [(name, e)], next := next })
  else (e, s)

/-- Rebuilds a list from left to right. -/
def rebuildList (step : Named → Pending → Expr × Named) (s : Named) (ps : List Pending) :
    List Expr × Named :=
  ps.foldl (fun acc p =>
    let (e, s) := step acc.2 p
    (acc.1 ++ [e], s)) ([], s)

/-- Rebuilds an expression over the names of its shared parts, within `fuel`
levels. -/
def rebuildF (subs : Substitutes) (o : Occurrences) (pre : String) : Nat → Named → Pending → Expr × Named
  | 0, s, .whole e => (e, s)
  | 0, s, .held _ _ _ => (Expr.zero, s)
  | fuel + 1, s, p =>
    match p with
    | .whole e =>
      if e.args.isEmpty then (e, s)
      else match p.lookup s.names with
        | some n => (.symbol n, s)
        | none =>
          match subs.get e with
          | .whole e' =>
            let old := rebuildOrder e'
            let (new, s) := rebuildList (rebuildF subs o pre fuel) s (old.map .whole)
            settle o pre p (rebuildNode e' old new) s
          | .held _ op args =>
            let (new, s) := rebuildList (rebuildF subs o pre fuel) s args
            settle o pre p (op.build new) s
    | .held _ op args =>
      match p.lookup s.names with
      | some n => (.symbol n, s)
      | none =>
        let (new, s) := rebuildList (rebuildF subs o pre fuel) s args
        settle o pre p (op.build new) s

/-- Shared parts by name, each over earlier ones, and the expressions over them. -/
structure Shared where
  parts : List (String × Expr)
  exprs : List Expr
  deriving DecidableEq, Repr

/-- Takes signs and common factors out of an expression. -/
def prepare (e : Expr) : Expr := (Expr.markMinus Expr.rebuild e).factorTerms true

/-- Extracts the parts that the listed expressions share. The names of parts are
`pre` with numbers, apart from those of symbols in the expressions. -/
def extract (pre : String) (es : List Expr) : Shared :=
  let es := es.map prepare
  let fuel := 64 + 4 * Expr.sizeList es
  let subs := substitutes es
  let o := (es.map Pending.whole).foldl (count subs fuel) {}
  let (es, s) := rebuildList (rebuildF subs o pre fuel) {} (es.map .whole)
  { parts := s.parts.map (fun p => (p.1, Expr.unmarkMinus Expr.rebuild p.2))
    exprs := es.map (Expr.unmarkMinus Expr.rebuild) }

end Sharing

end FactorPlan
