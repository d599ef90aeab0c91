/-!
Tables: lists of keys with values, in the order in which the keys came. Setting a
key that is there keeps its place.

Correspondence:
  `d.get(k)` ↔ `get?`
  `d[k] = v` ↔ `set`
  `k in d`   ↔ `contains`
  `d.pop(k)` ↔ `erase`
  `d.keys()` ↔ `keys`
-/

namespace FactorPlan

/-- Keys with values, in order. -/
abbrev Table (κ : Type) (α : Type) := List (κ × α)

namespace Table

variable {κ α β : Type} [DecidableEq κ]

/-- The value of a key. -/
def get? (k : κ) : Table κ α → Option α
  | [] => none
  | (j, a) :: rest => if j = k then some a else get? k rest

/-- Sets the value of a key; a new key goes to the end. -/
def set (k : κ) (a : α) : Table κ α → Table κ α
  | [] => [(k, a)]
  | (j, b) :: rest => if j = k then (j, a) :: rest else (j, b) :: set k a rest

def contains (k : κ) (t : Table κ α) : Bool := t.any (fun p => p.1 = k)

/-- The table without a key. -/
def erase (k : κ) (t : Table κ α) : Table κ α := t.filter (fun p => p.1 ≠ k)

/-- Changes the value of a key, if it is there. -/
def update (k : κ) (f : α → α) (t : Table κ α) : Table κ α :=
  t.map (fun p => if p.1 = k then (p.1, f p.2) else p)

def keys (t : Table κ α) : List κ := t.map (·.1)

/-- The table of a list of pairs, the last value of a key counting. -/
def ofList (ps : List (κ × α)) : Table κ α := ps.foldl (fun t p => set p.1 p.2 t) []

end Table

end FactorPlan
