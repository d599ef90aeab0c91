import FactorPlan.Sharing.Pending

/-!
Overlaps of sums and of products: where two of them have at least two arguments
in common, the common arguments become an operation of their own that both use.

Correspondence:
  `match_common_args`         ↔ `overlaps`
  `FuncArgTracker`            ↔ `Overlaps`
  `get_common_arg_candidates` ↔ `candidates`
-/

namespace FactorPlan

namespace Sharing

/-- Sums or products under comparison. Arguments are numbered in order of
occurrence; a row lists the numbers of the arguments of one of them. -/
structure Overlaps where
  values : List Pending := []
  rows : List (List Nat) := []
  changed : List Nat := []
  /-- The number for the next operation that is held back. -/
  next : Nat := 0

namespace Overlaps

/-- The number of a value, which is added if it is new. -/
def number (o : Overlaps) (p : Pending) : Overlaps × Nat :=
  match o.values.findIdx? (fun q => q.same p) with
  | some i => (o, i)
  | none => ({ o with values := o.values ++ [p] }, o.values.length)

/-- Adds a row of arguments. -/
def addRow (o : Overlaps) (args : List Expr) : Overlaps :=
  let (o, row) := args.foldl (fun (acc : Overlaps × List Nat) a =>
    let (o, i) := acc.1.number (.whole a)
    (o, if acc.2.contains i then acc.2 else acc.2 ++ [i])) (o, [])
  { o with rows := o.rows ++ [row] }

/-- The row at a place. -/
def row (o : Overlaps) (i : Nat) : List Nat := o.rows[i]?.getD []

/-- Replaces the arguments `common` of a row by one. -/
def contract (o : Overlaps) (i : Nat) (common : List Nat) (joint : Nat) : Overlaps :=
  let rest := (o.row i).filter (!common.contains ·)
  let row := if rest.contains joint then rest else rest ++ [joint]
  { o with rows := o.rows.set i row, changed := i :: o.changed }

/-- The values of a row, by their numbers. -/
def valuesOf (o : Overlaps) (row : List Nat) : List Pending :=
  (sortBy (fun i j => i ≤ j) row).filterMap (fun i => o.values[i]?)

/-- The later rows with at least two arguments in common with a row, those with
fewer first. -/
def candidates (o : Overlaps) (i : Nat) : List Nat :=
  let row := o.row i
  let counted := (List.range o.rows.length).filterMap (fun k =>
    let n := ((o.row k).filter row.contains).length
    if i < k ∧ 2 ≤ n then some (n, k) else none)
  (sortBy (fun a b => a.1 < b.1 ∨ (a.1 = b.1 ∧ a.2 ≤ b.2)) counted).map (·.2)

/-- Contracts what a row has in common with each of the listed rows. -/
def contractAll (op : Operation) (whole : Expr) (i : Nat) : List Nat → Overlaps → Overlaps
  | [], o => o
  | j :: rest, o =>
    let common := (o.row i).filter (o.row j).contains
    if common.length ≤ 1 then contractAll op whole i rest o
    else
      let isAll := (o.row i).all common.contains
      let (o, n) :=
        if isAll then o.number (.whole whole)
        else
          let held := Pending.held o.next op (o.valuesOf common)
          let (o, n) := ({ o with next := o.next + 1 } : Overlaps).number held
          (o.contract i common n, n)
      let o := o.contract j common n
      let more := rest.filter (fun k => common.all (o.row k).contains)
      contractAll op whole i rest (more.foldl (fun o k => o.contract k common n) o)

end Overlaps

/-- Substitutes for those of the listed sums or products that share arguments. -/
def overlaps (op : Operation) (next : Nat) (es : List Expr) (subs : Substitutes) : Substitutes × Nat :=
  let es := sortBy (fun a b => a.args.length ≤ b.args.length) es
  let start : Overlaps := es.foldl (fun o e => o.addRow e.args) { next := next }
  let (o, subs) := (es.zip (List.range es.length)).foldl (fun (acc : Overlaps × Substitutes) p =>
    let (e, i) := p
    let o := Overlaps.contractAll op e i (acc.1.candidates i) acc.1
    if o.changed.contains i then
      ({ o with next := o.next + 1 }, acc.2.set e (.held o.next op (o.valuesOf (o.row i))))
    else (o, acc.2)) (start, subs)
  (subs, o.next)

end Sharing

end FactorPlan
