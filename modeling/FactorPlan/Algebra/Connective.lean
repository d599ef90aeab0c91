import FactorPlan.Algebra.Cost

/-!
Pairs of relations that say less apart than together. Under a connective two
relations between the same sides may be replaced by one, as `a = b` or `a < b` by
`a ≤ b`; the laws are tried on all pairs, and the one that saves most is applied
until none saves anything.

Correspondence:
  `_apply_patternbased_simplification` ↔ `joinRelations`
  the patterns of `And`, of `Or`       ↔ `conjunctions`, `disjunctions`
  `_eval_simplify` of `And`, `Or`      ↔ `joinConnective`
-/

namespace FactorPlan

namespace Expr

/-- The sides that a law speaks of. -/
inductive Slot where
  | a | b | c
  deriving DecidableEq, Repr

/-- A relation between two slots. -/
structure Shape where
  rel : Rel
  left : Slot
  right : Slot

/-- What stands in the slots. -/
abbrev Filling := List (Slot × Expr)

/-- A law: two relations of given shapes, and what they say together if that can be
told. -/
structure Law where
  first : Shape
  second : Shape
  joined : (Slot → Expr) → Option Expr

namespace Shape

/-- Puts an expression into a slot that is free or holds it already. -/
def fill (s : Slot) (e : Expr) (f : Filling) : Option Filling :=
  match f.lookup s with
  | some x => if x = e then some f else none
  | none => some ((s, e) :: f)

/-- Fills the slots so that the shape becomes the given relation. -/
def fit? (p : Shape) (e : Expr) (f : Filling) : Option Filling :=
  match e with
  | .apply (.rel r) [x, y] => if r = p.rel then (fill p.left x f).bind (fill p.right y) else none
  | _ => none

end Shape

namespace Law

/-- What a law makes of two relations. -/
def join? (l : Law) (x y : Expr) : Option Expr :=
  ((l.first.fit? x []).bind (l.second.fit? y)).bind
    (fun f => l.joined (fun s => (f.lookup s).getD zero))

/-- A built relation. -/
def relate (r : Rel) (x y : Expr) : Option Expr := (relation r x y).toOption

/-- The relation to the larger or smaller of two bounds, if that is one of them. -/
def bounded (r : Rel) (f : Func) (x y z : Expr) : Option Expr :=
  match (extremum f [y, z]).toOption with
  | some (.apply g as) => if g = f then none else relate r x (.apply g as)
  | some m => relate r x m
  | none => none

/-- One of two expressions, by a relation that can be told. -/
def choose (r : Rel) (x y : Expr) (yes no : Option Expr) : Option Expr :=
  match relate r x y with
  | some (.truth true) => yes
  | some (.truth false) => no
  | _ => none

/-- The laws of conjunctions. Relations are written with equality, `<` and `≤`. -/
def conjunctions : List Law := [
  ⟨⟨.eq, .a, .b⟩, ⟨.lt, .a, .b⟩, fun _ => some (.truth false)⟩,
  ⟨⟨.lt, .b, .a⟩, ⟨.lt, .a, .b⟩, fun _ => some (.truth false)⟩,
  ⟨⟨.eq, .a, .b⟩, ⟨.le, .b, .a⟩, fun s => relate .eq (s .a) (s .b)⟩,
  ⟨⟨.le, .b, .a⟩, ⟨.le, .a, .b⟩, fun s => relate .eq (s .a) (s .b)⟩,
  ⟨⟨.le, .b, .a⟩, ⟨.le, .c, .a⟩, fun s => bounded .ge .max (s .a) (s .b) (s .c)⟩,
  ⟨⟨.le, .b, .a⟩, ⟨.lt, .c, .a⟩, fun s =>
    choose .gt (s .b) (s .c) (relate .ge (s .a) (s .b)) (relate .gt (s .a) (s .c))⟩,
  ⟨⟨.lt, .b, .a⟩, ⟨.lt, .c, .a⟩, fun s => bounded .gt .max (s .a) (s .b) (s .c)⟩,
  ⟨⟨.le, .a, .b⟩, ⟨.le, .a, .c⟩, fun s => bounded .le .min (s .a) (s .b) (s .c)⟩,
  ⟨⟨.le, .a, .b⟩, ⟨.lt, .a, .c⟩, fun s =>
    choose .lt (s .b) (s .c) (relate .le (s .a) (s .b)) (relate .lt (s .a) (s .c))⟩,
  ⟨⟨.lt, .a, .b⟩, ⟨.lt, .a, .c⟩, fun s => bounded .lt .min (s .a) (s .b) (s .c)⟩,
  ⟨⟨.le, .a, .b⟩, ⟨.le, .c, .a⟩, fun s =>
    choose .eq (s .b) (s .c) (relate .eq (s .a) (s .b))
      (choose .lt (s .b) (s .c) (some (.truth false)) none)⟩,
  ⟨⟨.le, .c, .a⟩, ⟨.le, .a, .b⟩, fun s =>
    choose .eq (s .b) (s .c) (relate .eq (s .a) (s .b))
      (choose .lt (s .b) (s .c) (some (.truth false)) none)⟩,
  ⟨⟨.lt, .a, .b⟩, ⟨.lt, .c, .a⟩, fun s => choose .lt (s .b) (s .c) (some (.truth false)) none⟩,
  ⟨⟨.lt, .c, .a⟩, ⟨.lt, .a, .b⟩, fun s => choose .lt (s .b) (s .c) (some (.truth false)) none⟩,
  ⟨⟨.le, .a, .b⟩, ⟨.lt, .c, .a⟩, fun s => choose .le (s .b) (s .c) (some (.truth false)) none⟩,
  ⟨⟨.le, .c, .a⟩, ⟨.lt, .a, .b⟩, fun s => choose .le (s .b) (s .c) (some (.truth false)) none⟩,
  ⟨⟨.eq, .a, .b⟩, ⟨.eq, .a, .c⟩, fun s =>
    choose .eq (s .b) (s .c) (relate .eq (s .a) (s .b)) (some (.truth false))⟩]

/-- The laws of disjunctions. -/
def disjunctions : List Law := [
  ⟨⟨.le, .b, .a⟩, ⟨.le, .a, .b⟩, fun _ => some (.truth true)⟩,
  ⟨⟨.le, .b, .a⟩, ⟨.ne, .a, .b⟩, fun _ => some (.truth true)⟩,
  ⟨⟨.eq, .a, .b⟩, ⟨.le, .a, .b⟩, fun s => relate .le (s .a) (s .b)⟩,
  ⟨⟨.eq, .a, .b⟩, ⟨.lt, .a, .b⟩, fun s => relate .le (s .a) (s .b)⟩,
  ⟨⟨.lt, .b, .a⟩, ⟨.lt, .a, .b⟩, fun s => relate .ne (s .a) (s .b)⟩,
  ⟨⟨.lt, .b, .a⟩, ⟨.ne, .a, .b⟩, fun s => relate .ne (s .a) (s .b)⟩,
  ⟨⟨.le, .a, .b⟩, ⟨.lt, .a, .b⟩, fun s => relate .le (s .a) (s .b)⟩,
  ⟨⟨.eq, .a, .b⟩, ⟨.ne, .a, .c⟩, fun s =>
    choose .eq (s .b) (s .c) (some (.truth true)) (relate .ne (s .a) (s .c))⟩,
  ⟨⟨.ne, .a, .b⟩, ⟨.ne, .a, .c⟩, fun s =>
    choose .eq (s .b) (s .c) (relate .ne (s .a) (s .b)) (some (.truth true))⟩,
  ⟨⟨.le, .b, .a⟩, ⟨.le, .c, .a⟩, fun s => bounded .ge .min (s .a) (s .b) (s .c)⟩,
  ⟨⟨.le, .b, .a⟩, ⟨.lt, .c, .a⟩, fun s =>
    choose .gt (s .b) (s .c) (relate .lt (s .c) (s .a)) (relate .le (s .b) (s .a))⟩,
  ⟨⟨.lt, .b, .a⟩, ⟨.lt, .c, .a⟩, fun s => bounded .gt .min (s .a) (s .b) (s .c)⟩,
  ⟨⟨.le, .a, .b⟩, ⟨.le, .a, .c⟩, fun s => bounded .le .max (s .a) (s .b) (s .c)⟩,
  ⟨⟨.le, .a, .b⟩, ⟨.lt, .a, .c⟩, fun s =>
    choose .ge (s .b) (s .c) (relate .le (s .a) (s .b)) (relate .lt (s .a) (s .c))⟩,
  ⟨⟨.lt, .a, .b⟩, ⟨.lt, .a, .c⟩, fun s => bounded .lt .max (s .a) (s .b) (s .c)⟩,
  ⟨⟨.le, .a, .b⟩, ⟨.le, .c, .a⟩, fun s => choose .ge (s .b) (s .c) (some (.truth true)) none⟩,
  ⟨⟨.le, .c, .a⟩, ⟨.le, .a, .b⟩, fun s => choose .ge (s .b) (s .c) (some (.truth true)) none⟩,
  ⟨⟨.lt, .a, .b⟩, ⟨.lt, .c, .a⟩, fun s => choose .gt (s .b) (s .c) (some (.truth true)) none⟩,
  ⟨⟨.lt, .c, .a⟩, ⟨.lt, .a, .b⟩, fun s => choose .gt (s .b) (s .c) (some (.truth true)) none⟩,
  ⟨⟨.le, .a, .b⟩, ⟨.lt, .c, .a⟩, fun s => choose .ge (s .b) (s .c) (some (.truth true)) none⟩,
  ⟨⟨.le, .c, .a⟩, ⟨.lt, .a, .b⟩, fun s => choose .ge (s .b) (s .c) (some (.truth true)) none⟩]

end Law

/-- A relation with its sides exchanged. -/
def flipped : Expr → Expr
  | .apply (.rel r) [x, y] => .apply (.rel r.flip) [y, x]
  | e => e

/-- The relation written with `<` or `≤` if it has a direction. -/
def pointedLeft (e : Expr) : Expr :=
  match e with
  | .apply (.rel .gt) _ => flipped e
  | .apply (.rel .ge) _ => flipped e
  | e => e

/-- The ways to write a relation: one without a direction may be turned round. -/
def writings (e : Expr) : List Expr :=
  match e with
  | .apply (.rel .eq) _ => [e, flipped e]
  | .apply (.rel .ne) _ => [e, flipped e]
  | e => [e]

/-- A list's elements, each with the elements after it. -/
def laterPairs {α : Type} : List α → List (α × α)
  | [] => []
  | x :: rest => rest.map (x, ·) ++ laterPairs rest

/-- The replacements of two relations under a connective, with what they save. -/
def replacements (f : Func) (laws : List Law) (x y : Expr) : List (Nat × Expr) :=
  laws.flatMap (fun l =>
    ((writings x).flatMap (fun u => (writings y).filterMap (fun v =>
      (l.join? u v).bind (fun r =>
        let before := (Expr.apply f [u, v]).cost
        match r with
        | .truth b => some (before, .truth b)
        | r => if r.cost < before then some (before - r.cost, r) else none)))))

/-- Joins relations under a connective whose empty case is `unit`. -/
def joinRelations (f : Func) (unit : Bool) (laws : List Law) : Nat → List Expr → List Expr
  | 0, rs => rs
  | fuel + 1, rs =>
    let rs := sortBySize (rs.map pointedLeft)
    let found := (laterPairs rs).flatMap (fun p =>
      (replacements f laws p.1 p.2).map (fun r => (r.1, p, r.2)))
    if found.any (fun r => r.2.2 = .truth !unit) then [.truth !unit]
    else
      match found with
      | [] => rs
      | r :: more =>
        let best := more.foldl (fun b r => if b.1 < r.1 then r else b) r
        let rest := (rs.erase best.2.1.1).erase best.2.1.2
        joinRelations f unit laws fuel
          (if best.2.2 = .truth unit then rest else rest ++ [best.2.2])

/-- A conjunction or disjunction with its relations joined. -/
def joinConnective (e : Expr) : Expr :=
  let joined (f : Func) (unit : Bool) (laws : List Law) (as : List Expr) : Expr :=
    let rs := as.filter (·.isRelation)
    if rs.length ≤ 1 then e
    else
      rebuild e ((joinRelations f unit laws rs.length (rs.map canonicalRelation)).map canonicalRelation
        ++ as.filter (!·.isRelation))
  match e with
  | .apply .and as => joined .and true Law.conjunctions as
  | .apply .or as => joined .or false Law.disjunctions as
  | e => e

/-- Writes `≤` and `≥` in a disjunction as equality or a strict relation. -/
def splitBounds (e : Expr) : Expr :=
  match e with
  | .apply .or as =>
    rebuild e (as.flatMap (fun a => match a with
      | .apply (.rel .le) xs => [.apply (.rel .eq) xs, .apply (.rel .lt) xs]
      | .apply (.rel .ge) xs => [.apply (.rel .eq) xs, .apply (.rel .gt) xs]
      | a => [a]))
  | e => e

end Expr

end FactorPlan
