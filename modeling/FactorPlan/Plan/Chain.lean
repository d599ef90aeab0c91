import FactorPlan.Plan.Rows

/-!
Chains of rows. A link between two rows is a key that both have. Links are chosen
so that as few neighbouring ones as possible are equal; then each row is ordered to
begin with its link to the row before and to end with its link to the row after,
and linked groups can be joined.

Correspondence:
  `neighbor_inter`                         ↔ `choices`
  the loop over `product(*neighbor_inter)` ↔ `pick`
  `chain_create`                           ↔ `links`, `heads`, `tails`, `arrangeAll`
  `chain_sort`                             ↔ `sort`
  `chain_move`                             ↔ `move`
  `ListDictList.optimize`                  ↔ `optimize`
-/

namespace FactorPlan

namespace Chain

variable {κ ι : Type} [DecidableEq κ]

/-- The links to choose from between two rows: the common keys, or none at all. -/
def linksBetween (order : List κ → List κ) (a b : List κ) : List (Option κ) :=
  match order (a.filter b.contains) with
  | [] => [none]
  | ks => ks.map some

/-- The links to choose from between neighbouring rows. -/
def choices (order : List κ → List κ) : List (List κ) → List (List (Option κ))
  | a :: b :: rest => linksBetween order a b :: choices order (b :: rest)
  | _ => []

/-- A choice of links from some place on, with the number of equal neighbours. -/
structure Choice (κ : Type) where
  clashes : Nat
  links : List (Option κ)

/-- Whether a link equals the first of a choice. -/
def clash (x : Option κ) : List (Option κ) → Nat
  | y :: _ => if x = y then 1 else 0
  | [] => 0

/-- Puts a link before a choice. -/
def extend (x : Option κ) (c : Choice κ) : Choice κ :=
  { clashes := clash x c.links + c.clashes, links := x :: c.links }

/-- The choice with the fewest clashes; of several the first. -/
def fewest (c : Choice κ) (cs : List (Choice κ)) : Choice κ :=
  cs.foldl (fun best c => if c.clashes < best.clashes then c else best) c

/-- For each link to choose first, the best choice that begins with it. -/
def bestByFirst : List (List (Option κ)) → List (Choice κ)
  | [] => [{ clashes := 0, links := [] }]
  | xs :: rest =>
    match bestByFirst rest with
    | [] => []
    | c :: cs => xs.map (fun x => fewest (extend x c) (cs.map (extend x)))

/-- The links of the best choice; of several the first. -/
def pick (xss : List (List (Option κ))) : List (Option κ) :=
  match bestByFirst xss with
  | [] => []
  | c :: cs => (fewest c cs).links

/-- The chosen links. -/
def links (order : List κ → List κ) (rows : List (List κ)) : List (Option κ) :=
  pick (choices order rows)

/-- For each row the link to the row before it. -/
def heads (ls : List (Option κ)) : List (Option κ) := none :: ls

/-- For each row the link to the row after it. -/
def tails (ls : List (Option κ)) : List (Option κ) := ls ++ [none]

/-- The keys of a row, beginning with its head and ending with its tail; where both
are the same key it comes first. -/
def arrange (head tail : Option κ) (keys : List κ) : List κ :=
  let inner := keys.filter (fun k => some k ≠ head ∧ some k ≠ tail)
  let last := if tail = head then [] else tail.toList
  head.toList ++ inner ++ last

/-- The keys of each row, arranged. -/
def arrangeAll (ls : List (Option κ)) (rows : List (List κ)) : List (List κ) :=
  (rows.zip ((heads ls).zip (tails ls))).map (fun r => arrange r.2.1 r.2.2 r.1)

/-- The group of a key in a row, empty where there is none. -/
def groupAt (k : Option κ) (r : Row κ ι) : Group ι := (k.bind (fun k => Table.get? k r)).getD []

/-- A row in the order of the listed keys. -/
def sortRow (keys : List κ) (r : Row κ ι) : Row κ ι := keys.map (fun k => (k, groupAt (some k) r))

/-- The rows with arranged keys. -/
def sort (ls : List (Option κ)) (rs : Rows κ ι) : Rows κ ι :=
  ((arrangeAll ls (rs.map Table.keys)).zip rs).map (fun p => sortRow p.1 p.2)

/-- Joins two neighbouring rows at their link: the linked group of the second moves
to the end of that of the first. -/
def joinRows (link : Option κ) (a b : Row κ ι) : Row κ ι × Row κ ι :=
  match link with
  | none => (a, b)
  | some k =>
    (Table.update k (fun g => g ++ groupAt link b) a, Table.update k (fun _ => []) b)

/-- Joins rows at their links, from the last link to the first. -/
def move : List (Option κ) → Rows κ ι → Rows κ ι
  | l :: ls, a :: rs =>
    match move ls rs with
    | [] => [a]
    | b :: rest => let (a, b) := joinRows l a b; a :: b :: rest
  | _, rs => rs

/-- Rearranges rows along a chain; with `join`, linked groups are joined, and with
`back`, groups without grouping move back. -/
def optimize (order : List Key → List Key) (back join : Bool) (rs : Rows Key ι) :
    Rows Key ι × Except RowsError Unit :=
  let ls := links order (rs.map Table.keys)
  let sorted := sort ls rs
  let joined := if join then (move ls sorted).filterEmpty else sorted
  if back then
    let (merged, r) := joined.backMerge
    (match r with
     | .ok () => (merged.filterEmpty, .ok ())
     | .error x => (merged, .error x))
  else (joined, .ok ())

end Chain

end FactorPlan
