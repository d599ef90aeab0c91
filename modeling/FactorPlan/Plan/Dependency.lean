import FactorPlan.Plan.Bindings
import FactorPlan.Plan.Rows
import FactorPlan.Graph.Paths

/-!
The dependency graph of columns. Each column has its expression, and an edge leads
to it from every symbol of that expression; the sources are the columns that are
given. From the expressions follow the group in which each column is computed and
the rows in which all of them can be computed one after the other.

Correspondence:
  `create_dag_exprs`                   ↔ `create`
  `init_dag_exprs`                     ↔ `classifyAll`
  `skip_expr_node`                     ↔ `inline`
  `merge_nodes_1`                      ↔ `mergeColumns`
  `merge_nodes_2`                      ↔ `mergeNegated`
  `get_expr_labels`                    ↔ `labels`
  `dag_start`, `dag_middle`, `dag_end` ↔ `start`, `middle`, `rows`
  `list(set(next_pred))`               ↔ the parameter `order`
-/

namespace FactorPlan

namespace Plan

open Formula (Value)

/-- What is computed for a column: an expression, or nothing but several names when
the name of a source reads as such. -/
inductive Content where
  | expr (e : Expr)
  | several (names : List String)
  deriving DecidableEq, Repr

namespace Content

def text : Content → String
  | .expr e => e.text
  | .several ns => (Slot.columns ns).text

/-- The content of a source of the given name. -/
def ofSource (name : String) : Except PlanError Content :=
  match Slot.ofName name with
  | .ok (.column n) => .ok (.expr (.symbol n))
  | .ok (.columns ns) => .ok (.several ns)
  | .error x => .error x

end Content

/-- What is known about a column. -/
structure Column where
  symbol : Option Content := none
  expr : Option Content := none
  /-- The keys found in the expression. -/
  keys : Option (List Key) := none
  /-- The one key of the column. -/
  key : Option Key := none
  /-- The symbols of the expression with repetitions. -/
  symbols : Option (List String) := none
  /-- The generation of the column. -/
  depth : Option Nat := none
  deriving DecidableEq, Repr, Inhabited

/-- The dependency graph. -/
abbrev Graph := Digraph String Column

/-- A piece of knowledge that has to be there. -/
def known {α : Type} : Option α → Except PlanError α
  | some a => .ok a
  | none => .error .unknown

namespace Graph

/-- What is known about a column that has to be there. -/
def column (g : Graph) (v : String) : Except PlanError Column := known (g.get? v)

/-! ## Building -/

/-- The columns that an expression is computed from. An expression without symbols
depends on a source of its own: its name, or its text. -/
def origins (e : Expr) : List String :=
  match e with
  | .symbol n => [n]
  | e =>
    match e.argumentSymbols with
    | [] => [(e.name?).getD e.text]
    | ns => ns

/-- Adds a column with its expression and the edges to it. -/
def addColumn (g : Graph) (name : String) (e : Expr) : Graph :=
  let g := g.addNode name (fun c =>
    { c with symbol := some (.expr (.symbol name)), expr := some (.expr e) })
  g.addEdges ((origins e).map (·, name))

/-- Adds bound columns in order. -/
def addColumns (g : Graph) : List (Slot × Value) → Except PlanError Graph
  | [] => .ok g
  | (.column n, .expr e) :: rest => addColumns (g.addColumn n e) rest
  | _ :: _ => .error .noExpression

/-- Makes sources stand for themselves. -/
def fillSources (g : Graph) : List String → Except PlanError Graph
  | [] => .ok g
  | v :: vs => do
    let c ← Content.ofSource v
    fillSources (g.update v (fun d => { d with symbol := some c, expr := some c })) vs

/-- The graph of bound columns. -/
def create (bindings : List (Slot × Value)) : Except PlanError Graph := do
  let g ← addColumns {} bindings
  fillSources g g.sources

/-! ## Groups -/

/-- Finds keys, symbols and generation of a column. -/
def classify (s : Setting) (g : Graph) (depth : Nat) (v : String) : Graph × Except PlanError Unit :=
  match (g.get? v).bind (·.expr) with
  | none => (g, .error .unknown)
  | some (.several _) => (g, .error .noExpression)
  | some (.expr e) =>
    match Grouping.split s.rule e with
    | (_, .error x) => (g, .error (.group x))
    | (m, .ok ks) =>
      match Grouping.soleKey ks with
      | .error x => (g.update v (fun c => { c with keys := some ks }), .error (.group x))
      | .ok k =>
        (g.update v (fun c =>
          { c with keys := some ks, key := some k, symbols := some m.symbols, depth := some depth }), .ok ())

/-- Does something for each element in order, up to the first failure. -/
def forEach {α σ : Type} (f : σ → α → σ × Except PlanError Unit) (s : σ) :
    List α → σ × Except PlanError Unit
  | [] => (s, .ok ())
  | a :: as =>
    match f s a with
    | (s, .ok ()) => forEach f s as
    | (s, .error x) => (s, .error x)

/-- Finds the groups of all columns, generation by generation. Columns that depend
on themselves are noticed last. -/
def classifyAll (s : Setting) (g : Graph) : Graph × Except PlanError Unit :=
  let (gs, rest) := g.generations
  let places := (gs.mapIdx (fun i vs => vs.map (i, ·))).flatten
  match forEach (fun g (p : Nat × String) => classify s g p.1 p.2) g places with
  | (g, .ok ()) => (g, if rest.isEmpty then .ok () else .error .cyclic)
  | (g, .error x) => (g, .error x)

/-- The graph of bound columns with their groups. -/
def start (s : Setting) (bindings : List (Slot × Value)) : Except PlanError Graph := do
  let g ← create bindings
  match classifyAll s g with
  | (g, .ok ()) => return g
  | (_, .error x) => throw x

/-! ## Inlining -/

/-- The content of a column with an expression in place of a symbol. -/
def substitute (build : Build) (symbol e : Content) : Content → Except BuildError Content
  | .expr d =>
    match symbol, e with
    | .expr x, .expr e =>
      (Expr.tryReplace build (fun y => if y = x then some e else none) d).map .expr
    | _, _ => .ok (.expr d)
  | d => .ok d

/-- Puts an expression in place of a symbol in a column that has to have an
expression. -/
def substituteAt (build : Build) (symbol e : Content) (g : Graph) (v : String) :
    Graph × Except PlanError Unit :=
  match (g.get? v).bind (·.expr) with
  | none => (g, .error .unknown)
  | some d =>
    match substitute build symbol e d with
    | .ok d => (g.update v (fun c => { c with expr := some d }), .ok ())
    | .error x => (g, .error (.build x))

/-- Removes a column and puts its expression into those that use it. A column that
is given, or that nothing uses, stays. -/
def inline (build : Build) (g : Graph) (v : String) : Graph × Except PlanError Unit :=
  match g.get? v with
  | none => (g, .error .unknown)
  | some c =>
    let pred := g.pred v
    let succ := g.succ v
    if pred.isEmpty || succ.isEmpty then (g, .ok ())
    else
      match c.expr, c.symbol with
      | some e, some x =>
        match forEach (substituteAt build x e) g succ with
        | (g, .ok ()) => ((g.addEdges (Digraph.crossing pred succ)).removeNode v, .ok ())
        | (g, .error x) => (g, .error x)
      | _, _ => (g, .error .unknown)

/-- Whether the content of a column is minus one leaf. -/
def isNegated : Content → Bool
  | .expr e => e.isNegatedLeaf
  | .several _ => false

/-- Inlines a predecessor of a column where both are computed in the same groups
and the predecessor is used there once and nowhere else. -/
def absorb (build : Build) (key : Key) (symbols : List String) (g : Graph) (p : String) :
    Graph × Except PlanError Unit :=
  if 1 < symbols.count p then (g, .ok ())
  else
    match g.get? p with
    | none => (g, .error .unknown)
    | some d =>
      match d.key, d.expr with
      | some k, some _ => if key = k ∧ (g.succ p).length = 1 then inline build g p else (g, .ok ())
      | _, _ => (g, .error .unknown)

/-- Merges a column with its neighbours: one on whole columns into what uses it, if
it is minus a leaf or used once; a grouped one takes in predecessors of its own
group. The list is of the columns to look at next. -/
def mergeNode (build : Build) (g : Graph) (v : String) :
    Graph × List String × Except PlanError Unit :=
  match g.get? v with
  | none => (g, [], .ok ())
  | some c =>
    let pred := g.pred v
    if pred.isEmpty then (g, [], .ok ())
    else
      match c.key, c.expr, c.symbols with
      | some key, some e, some symbols =>
        if key.head? = some "cl" then
          if isNegated e || (g.succ v).length = 1 then
            let (g, r) := inline build g v
            (g, pred, r)
          else (g, pred, .ok ())
        else
          let (g, r) := forEach (absorb build key symbols) g pred
          (g, g.pred v, r)
      | _, _, _ => (g, [], .error .unknown)

/-- Merges each of the listed columns; also the columns to look at next. -/
def mergeRound (build : Build) (g : Graph) : List String → Graph × List String × Except PlanError Unit
  | [] => (g, [], .ok ())
  | v :: vs =>
    match mergeNode build g v with
    | (g, next, .ok ()) =>
      let (g, more, r) := mergeRound build g vs
      (g, next ++ more, r)
    | (g, next, .error x) => (g, next, .error x)

/-- Merges columns round by round, from the listed ones to those they depend on.
Where no column depends on itself, there are at most as many rounds as columns. -/
def mergeFrom (build : Build) (order : List String → List String) :
    Nat → Graph → List String → Graph × Except PlanError Unit
  | 0, g, _ => (g, .error .cyclic)
  | fuel + 1, g, current =>
    if current.isEmpty then (g, .ok ())
    else
      match mergeRound build g current with
      | (g, next, .ok ()) => mergeFrom build order fuel g (order next)
      | (g, _, .error x) => (g, .error x)

/-- Merges columns from the listed ones on. -/
def mergeColumns (build : Build) (order : List String → List String) (g : Graph)
    (starts : List String) : Graph × Except PlanError Unit :=
  mergeFrom build order (g.nodes.length + 2) g starts

/-- Inlines a column that is not used more than once. -/
def inlineUnshared (build : Build) (g : Graph) (p : String) : Graph × Except PlanError Unit :=
  if 1 < (g.succ p).length then (g, .ok ()) else inline build g p

/-- Inlines, in a column that is minus a leaf, what nothing else uses. -/
def mergeNegatedAt (build : Build) (g : Graph) (v : String) : Graph × Except PlanError Unit :=
  match (g.get? v).bind (·.expr) with
  | none => (g, .error .unknown)
  | some e => if isNegated e then forEach (inlineUnshared build) g (g.pred v) else (g, .ok ())

/-- Inlines, in each listed column that is minus a leaf, what nothing else uses. -/
def mergeNegated (build : Build) (g : Graph) (starts : List String) : Graph × Except PlanError Unit :=
  forEach (mergeNegatedAt build) g starts

/-- Keeps what the listed columns need, merges columns and finds the groups anew. -/
def middle (s : Setting) (build : Build) (order : List String → List String) (g : Graph)
    (names : List String) : Graph × Except PlanError Unit :=
  let g := g.keepOnly order names
  match mergeColumns build order g names with
  | (g, .error x) => (g, .error x)
  | (g, .ok ()) =>
    match mergeNegated build g names with
    | (g, .error x) => (g, .error x)
    | (g, .ok ()) => classifyAll s g

/-! ## Rows -/

/-- A column to be computed, with its expression. -/
abbrev Item := String × Expr

/-- Puts the columns of a generation into a new row. -/
def addRow (g : Graph) (rs : Rows Key (String × Content)) (vs : List String) :
    Except PlanError (Rows Key (String × Content)) :=
  vs.foldlM (fun rs v => do
    let c ← g.column v
    let k ← known c.key
    let e ← known c.expr
    (Rows.append k (some (v, e)) rs).mapError (fun _ => PlanError.unknown)) rs.nextRow

/-- The expressions of the items of a group. -/
def itemsOf (items : Group (String × Content)) : Group Item :=
  items.filterMap (fun x =>
    match x with
    | none => some none
    | some (n, .expr e) => some (some (n, e))
    | some (_, .several _) => none)

/-- The rows in which the columns are computed. The sources are given and have
none. -/
def rows (g : Graph) : Except PlanError (Rows Key Item) := do
  let (gs, rest) := g.generations
  let rs ← gs.foldlM (addRow g) []
  if rest.isEmpty then
    return (rs.drop 1).map (fun r => r.map (fun p => (p.1, itemsOf p.2)))
  else throw .cyclic

/-- The label of each listed column, or of all: its symbol and its expression. -/
def labels (g : Graph) (only : Option (List String)) : Except PlanError (List (String × String)) :=
  let chosen := g.vertices.filter (fun v => (only.map (·.contains v)).getD true)
  chosen.mapM (fun v => do
    let c ← g.column v
    let x ← known c.symbol
    let e ← known c.expr
    return (v, x.text ++ "=" ++ e.text))

end Graph

end Plan

end FactorPlan
