import FactorPlan.Table

/-!
Directed graphs with attributes at their nodes. Nodes keep the order in which they
came, and so do edges; an edge is listed once.

Correspondence:
  `DiGraph`                                ↔ `Digraph`
  `add_node`, `add_edge`, `add_edges_from` ↔ `addNode`, `addEdge`, `addEdges`
  `remove_node`                            ↔ `removeNode`
  `G.pred`, `G.succ`                       ↔ `pred`, `succ`
  `zero_indegree`, `zero_outdegree`        ↔ `sources`, `sinks`
  `ancestors`, `descendants`               ↔ `ancestors`, `descendants`
  `topological_generations`                ↔ `generations`
-/

namespace FactorPlan

/-- A directed graph over nodes `V` with attributes `α`. -/
structure Digraph (V α : Type) where
  nodes : Table V α := []
  edges : List (V × V) := []
  deriving DecidableEq

namespace Digraph

variable {V α : Type} [DecidableEq V]

def empty : Digraph V α := {}

/-- The nodes in order. -/
def vertices (g : Digraph V α) : List V := g.nodes.keys

def contains (g : Digraph V α) (v : V) : Bool := Table.contains v g.nodes

/-- The attributes of a node. -/
def get? (g : Digraph V α) (v : V) : Option α := Table.get? v g.nodes

/-- Changes the attributes of a node. -/
def update (g : Digraph V α) (v : V) (f : α → α) : Digraph V α :=
  { g with nodes := Table.update v f g.nodes }

/-- Adds a node, or changes the attributes of one that is there. -/
def addNode [Inhabited α] (g : Digraph V α) (v : V) (f : α → α) : Digraph V α :=
  if g.contains v then g.update v f else { g with nodes := g.nodes ++ [(v, f default)] }

/-- Adds an edge and the nodes it needs, the source first. -/
def addEdge [Inhabited α] (g : Digraph V α) (u v : V) : Digraph V α :=
  let g := (g.addNode u id).addNode v id
  if (u, v) ∈ g.edges then g else { g with edges := g.edges ++ [(u, v)] }

/-- Adds edges in order. -/
def addEdges [Inhabited α] (g : Digraph V α) (es : List (V × V)) : Digraph V α :=
  es.foldl (fun g e => g.addEdge e.1 e.2) g

/-- Removes a node and its edges. -/
def removeNode (g : Digraph V α) (v : V) : Digraph V α :=
  { nodes := Table.erase v g.nodes, edges := g.edges.filter (fun e => e.1 ≠ v ∧ e.2 ≠ v) }

/-- The nodes with an edge to a node, in order of the edges. -/
def pred (g : Digraph V α) (v : V) : List V := (g.edges.filter (fun e => e.2 = v)).map (·.1)

/-- The nodes with an edge from a node, in order of the edges. -/
def succ (g : Digraph V α) (v : V) : List V := (g.edges.filter (fun e => e.1 = v)).map (·.2)

/-- The nodes without incoming edges. -/
def sources (g : Digraph V α) : List V := g.vertices.filter (fun v => (g.pred v).isEmpty)

/-- The nodes without outgoing edges. -/
def sinks (g : Digraph V α) : List V := g.vertices.filter (fun v => (g.succ v).isEmpty)

/-! ## Reachability -/

/-- The nodes reached from the listed ones by steps of `next`, within `fuel`
rounds. -/
def closure (next : V → List V) : Nat → List V → List V
  | 0, seen => seen
  | fuel + 1, seen =>
    let more := (seen.flatMap next).eraseDups.filter (!seen.contains ·)
    if more.isEmpty then seen else closure next fuel (seen ++ more)

/-- The nodes from which a node is reached, itself included. -/
def ancestors (g : Digraph V α) (v : V) : List V := closure g.pred g.nodes.length [v]

/-- The nodes that are reached from a node, itself included. -/
def descendants (g : Digraph V α) (v : V) : List V := closure g.succ g.nodes.length [v]

/-! ## Generations -/

/-- Takes one off the number of open incoming edges of a node. A node without open
edges left joins the next generation. -/
def release (acc : Table V Nat × List V) (v : V) : Table V Nat × List V :=
  match Table.get? v acc.1 with
  | some n => if n ≤ 1 then (Table.erase v acc.1, acc.2 ++ [v]) else (Table.set v (n - 1) acc.1, acc.2)
  | none => acc

/-- The generations from the current one on, and the nodes that belong to none
because they depend on themselves. -/
def generationsFrom (g : Digraph V α) : Nat → Table V Nat → List V → List (List V) × List V
  | 0, waiting, _ => ([], waiting.keys)
  | fuel + 1, waiting, current =>
    if current.isEmpty then ([], waiting.keys)
    else
      let (waiting, next) := (current.flatMap g.succ).foldl release (waiting, [])
      let (later, rest) := generationsFrom g fuel waiting next
      (current :: later, rest)

/-- The generations of a graph: the sources, then again and again the nodes whose
predecessors are all in earlier generations; and the nodes in no generation. -/
def generations (g : Digraph V α) : List (List V) × List V :=
  let waiting := (g.vertices.map (fun v => (v, (g.pred v).length))).filter (fun p => 0 < p.2)
  generationsFrom g (g.nodes.length + 1) waiting g.sources

end Digraph

end FactorPlan
