import FactorPlan.Grouping.Key
import FactorPlan.Table

/-!
Rows of grouped items. A row holds lists of items by group key, in order; all
items of a row can be computed from those of earlier rows. In a list, `none`
separates items that depend on each other.

Correspondence:
  `ListDictList`       ↔ `Rows`
  `next_row`, `append` ↔ `nextRow`, `append`
  `filter_empty`       ↔ `filterEmpty`
  `back_merge`         ↔ `backMerge`
  `last_k[0] != GP`    ↔ `joins`
-/

namespace FactorPlan

/-- Items of one group, with separators. -/
abbrev Group (ι : Type) := List (Option ι)

/-- Groups by key, in order. -/
abbrev Row (κ ι : Type) := Table κ (Group ι)

/-- Rows in order. -/
abbrev Rows (κ ι : Type) := List (Row κ ι)

/-- Why an operation on rows fails. -/
inductive RowsError where
  /-- There is no row to put an item into. -/
  | noRow
  /-- A key without a way of grouping. -/
  | emptyKey
  deriving DecidableEq, Repr

namespace Rows

variable {κ ι : Type} [DecidableEq κ]

/-- Begins a new row. -/
def nextRow (rs : Rows κ ι) : Rows κ ι := rs ++ [[]]

/-- Puts an item into a row. The first item of a group comes after a separator. -/
def put (k : κ) (x : Option ι) (r : Row κ ι) : Row κ ι :=
  match Table.get? k r with
  | some g => Table.set k (g ++ [x]) r
  | none => Table.set k [none, x] r

/-- Puts an item into the last row. -/
def append (k : κ) (x : Option ι) : Rows κ ι → Except RowsError (Rows κ ι)
  | [] => .error .noRow
  | [r] => .ok [put k x r]
  | r :: rs => (append k x rs).map (r :: ·)

/-- Drops groups without items, then rows without groups. -/
def filterEmpty (rs : Rows κ ι) : Rows κ ι :=
  (rs.map (fun r => r.filter (fun p => !p.2.isEmpty))).filter (fun r => !r.isEmpty)

/-- All items and separators in order. -/
def flatten (rs : Rows κ ι) : Group ι := rs.flatMap (fun r => r.flatMap (·.2))

/-! ## Merging back -/

/-- A group with its key and the place of its row. -/
structure Entry (ι : Type) where
  row : Nat
  key : Key
  items : Group ι

/-- The groups of all rows in order. -/
def entries (rs : Rows Key ι) : List (Entry ι) :=
  (rs.mapIdx (fun i r => r.map (fun p => { row := i, key := p.1, items := p.2 : Entry ι }))).flatten

/-- The rows, `n` in number, of groups in order. -/
def ofEntries (n : Nat) (es : List (Entry ι)) : Rows Key ι :=
  (List.range n).map (fun i => (es.filter (fun e => e.row = i)).map (fun e => (e.key, e.items)))

/-- Whether a group can be computed together with the last one before it: it needs
no grouping, and the last one is not computed within groups, which are many. -/
def joins (last key : Key) : Except RowsError Bool :=
  match key with
  | [] => .error .emptyKey
  | way :: _ =>
    if way = "cl" then
      match last with
      | [] => .error .emptyKey
      | way :: _ => .ok (way ≠ "gp")
    else .ok false

/-- Moves the items of groups that join into the last group before them, and leaves
them empty. Groups after a failure stay as they are. -/
def mergeFrom (last : Entry ι) : List (Entry ι) → List (Entry ι) × Except RowsError Unit
  | [] => ([last], .ok ())
  | e :: es =>
    match joins last.key e.key with
    | .error x => (last :: e :: es, .error x)
    | .ok true =>
      match mergeFrom { last with items := last.items ++ e.items } es with
      | (l :: rest, r) => (l :: { e with items := [] } :: rest, r)
      | ([], r) => ([], r)
    | .ok false =>
      let (rest, r) := mergeFrom e es
      (last :: rest, r)

/-- Moves the items of groups without grouping back into the group before them. -/
def backMerge (rs : Rows Key ι) : Rows Key ι × Except RowsError Unit :=
  match rs.entries with
  | [] => (rs, .ok ())
  | e :: es =>
    let (merged, r) := mergeFrom e es
    (ofEntries rs.length merged, r)

end Rows

end FactorPlan
