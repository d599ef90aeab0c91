import FactorPlan.Graph.Digraph

/-!
Layout of a tree of dependencies: the root stands at the top, its predecessors in
the level below, and so on. The nodes of a level share the width evenly. Positions
are computed in any kind of number.

Correspondence:
  `hierarchy_pos`    ↔ `layout`
  `make_levels`      ↔ `countLevels`
  `make_pos`         ↔ `place`
  `TOTAL`, `CURRENT` ↔ `Level.total`, `Level.placed`
-/

namespace FactorPlan

/-- Why a graph has no layout. -/
inductive LayoutError where
  | unknownNode
  /-- A node lies on a level without a count. -/
  | unknownLevel
  /-- A level counts no nodes. -/
  | emptyLevel
  | noLevels
  /-- The nodes depend on themselves. -/
  | endless
  deriving DecidableEq, Repr

namespace Digraph

/-- How many nodes a level has and how many of them are placed. -/
structure Level where
  total : Int := 0
  placed : Nat := 0
  deriving DecidableEq, Repr

variable {V α ν : Type} [DecidableEq V] [Add ν] [Sub ν] [Mul ν] [Div ν] [IntCast ν]

/-- Counts a node at a level and, one level further, its predecessors apart from
the node it was reached from. A node is counted once for each way to it. -/
def countLevels (g : Digraph V α) : Nat → Option V → Int → V → Table Int Level →
    Except LayoutError (Table Int Level)
  | 0, _, _, _, _ => .error .endless
  | fuel + 1, parent, depth, v, levels =>
    let old := (Table.get? depth levels).getD {}
    let levels := Table.set depth { old with total := old.total + 1 } levels
    if g.contains v then
      ((g.pred v).filter (fun u => some u ≠ parent)).foldlM
        (fun ls u => countLevels g fuel (some v) (depth + 1) u ls) levels
    else .error .unknownNode

/-- Positions by node, and the levels as far as they are filled. -/
structure Placing (V ν : Type) where
  levels : Table Int Level
  positions : Table V (ν × ν) := []

/-- Places a node and its predecessors. -/
def place (g : Digraph V α) (width gap : ν) : Nat → Option V → Int → ν → V → Placing V ν →
    Except LayoutError (Placing V ν)
  | 0, _, _, _, _, _ => .error .endless
  | fuel + 1, parent, depth, y, v, p =>
    match Table.get? depth p.levels with
    | none => .error .unknownLevel
    | some l =>
      if l.total = 0 then .error .emptyLevel
      else
        let dx : ν := ((1 : Int) : ν) / (l.total : ν)
        let left := dx / ((2 : Int) : ν)
        let x := (left + dx * (((l.placed : Nat) : Int) : ν)) * width
        let p : Placing V ν :=
          { levels := Table.set depth { l with placed := l.placed + 1 } p.levels
            positions := Table.set v (x, y) p.positions }
        if g.contains v then
          ((g.pred v).filter (fun u => some u ≠ parent)).foldlM
            (fun p u => place g width gap fuel (some v) (depth + 1) (y - gap) u p) p
        else .error .unknownNode

/-- The positions of a root and the nodes above it. The counts of levels are found
first unless they are given. -/
def layout (g : Digraph V α) (root : V) (levels : Option (Table Int Int)) (width height : ν) :
    Except LayoutError (Table V (ν × ν)) := do
  let fuel := 2 * g.nodes.length + 2
  let levels ← match levels with
    | none => countLevels g fuel none 0 root []
    | some ls => .ok (ls.map (fun l => (l.1, { total := l.2 })))
  match levels.keys with
  | [] => throw .noLevels
  | k :: ks =>
    let depth := ks.foldl max k + 1
    if depth = 0 then throw .emptyLevel
    else
      let p ← place g width (height / (depth : ν)) fuel none 0 ((0 : Int) : ν) root { levels := levels }
      return p.positions

end Digraph

end FactorPlan
