import FactorPlan.Graph.Digraph

/-!
Paths of a graph: bridging a node, removing paths that lead nowhere, and the nodes
on paths through a node. Where several nodes are handled in an order that does not
matter, the order is a parameter.

Correspondence:
  `skip_node`                      ↔ `skip`, `bridge`
  `remove_paths`                   ↔ `removePaths`
  `remove_paths_by_zero_outdegree` ↔ `keepOnly`
  `node_included_path`             ↔ `throughNode`
  the walk of `show_paths`         ↔ `trace`
  `list(set(next_pred))`           ↔ the parameter `order`
-/

namespace FactorPlan

/-- Why an operation on a graph fails. -/
inductive GraphError where
  /-- A node that is looked up is not there. -/
  | unknownNode
  /-- The node from which paths are followed is not there. -/
  | unknownStart
  /-- Some nodes depend on themselves. -/
  | cyclic
  deriving DecidableEq, Repr


namespace Digraph

variable {V α : Type} [DecidableEq V]

/-- All edges from the first nodes to the second. -/
def crossing (us vs : List V) : List (V × V) := us.flatMap (fun u => vs.map (fun v => (u, v)))

/-- Removes an inner node and joins its predecessors with its successors. -/
def bridge [Inhabited α] (g : Digraph V α) (v : V) : Digraph V α :=
  if (g.pred v).isEmpty || (g.succ v).isEmpty then g
  else (g.addEdges (crossing (g.pred v) (g.succ v))).removeNode v

/-- Bridges a node that has to be there. -/
def skip [Inhabited α] (g : Digraph V α) (v : V) : Except GraphError (Digraph V α) :=
  if g.contains v then .ok (g.bridge v) else .error .unknownNode

/-- Removes a sink and lists its predecessors; any other node stays. -/
def removeSink (acc : Digraph V α × List V) (v : V) : Digraph V α × List V :=
  if acc.1.contains v && (acc.1.succ v).isEmpty then (acc.1.removeNode v, acc.2 ++ acc.1.pred v)
  else acc

/-- Removes sinks among the current nodes, then among their predecessors, and so
on; each round removes at least one node or is the last. -/
def removePathsF (order : List V → List V) : Nat → List V → Digraph V α → Digraph V α
  | 0, _, g => g
  | fuel + 1, current, g =>
    if current.isEmpty then g
    else
      let (g, next) := current.foldl removeSink (g, [])
      removePathsF order fuel (order next) g

/-- Removes the paths that end at the listed nodes, as far as nothing else is
reached from them. -/
def removePaths (order : List V → List V) (starts : List V) (g : Digraph V α) : Digraph V α :=
  removePathsF order (g.nodes.length + 1) starts g

/-- Removes the paths that end at a sink that is not listed. -/
def keepOnly (order : List V → List V) (sinks : List V) (g : Digraph V α) : Digraph V α :=
  removePaths order (order (g.sinks.filter (!sinks.contains ·))) g

/-- The nodes on paths through a node. -/
def throughNode (g : Digraph V α) (v : V) : Except GraphError (List V) :=
  if g.contains v then .ok (g.ancestors v ++ g.descendants v).eraseDups else .error .unknownStart

/-- The attributes met on the way back from the listed nodes, generation by
generation, up to a node that is not there; within `fuel` rounds. -/
def traceF (order : List V → List V) (g : Digraph V α) :
    Nat → List V → List α × Except GraphError Unit
  | 0, _ => ([], .ok ())
  | fuel + 1, current =>
    if current.isEmpty then ([], .ok ())
    else
      match round g current with
      | (as, .error x) => (as, .error x)
      | (as, .ok ()) =>
        let (bs, r) := traceF order g fuel (order (current.flatMap g.pred))
        (as ++ bs, r)
where
  /-- The attributes of the listed nodes, up to one that is not there. -/
  round (g : Digraph V α) : List V → List α × Except GraphError Unit
    | [] => ([], .ok ())
    | v :: vs =>
      match g.get? v with
      | none => ([], .error .unknownNode)
      | some a => let (as, r) := round g vs; (a :: as, r)

/-- The attributes met on the way back from the listed nodes. -/
def trace (order : List V → List V) (g : Digraph V α) (starts : List V) :
    List α × Except GraphError Unit :=
  traceF order g (g.nodes.length + 1) starts

end Digraph

end FactorPlan
