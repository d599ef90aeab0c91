import FactorPlan.Expr.Basic

/-!
The canonical order of expressions, by which the terms of a sum and the factors
of a product are arranged. Nodes are compared by the rank of their kind, then by
the number of their arguments, then argument by argument.

Correspondence:
  `Basic.compare`       ↔ `canonical`
  `ordering_of_classes` ↔ `rankedKinds`
  `_args_sortkey`       ↔ `sortCanonical`
-/

namespace FactorPlan

/-- Puts an element before the first one that may stand behind it. -/
def insertBy {α : Type} (before : α → α → Bool) (a : α) : List α → List α
  | [] => [a]
  | b :: bs => if before a b then a :: b :: bs else b :: insertBy before a bs

/-- Sorts a list; elements that may stand in either order keep their places. -/
def sortBy {α : Type} (before : α → α → Bool) (as : List α) : List α := as.foldr (insertBy before) []

theorem insertBy_perm {α : Type} (before : α → α → Bool) (a : α) (bs : List α) :
    (insertBy before a bs).Perm (a :: bs) := by
  induction bs with
  | nil => exact .refl _
  | cons b bs ih =>
    unfold insertBy
    split
    · exact .refl _
    · exact (ih.cons b).trans (.swap a b bs)

theorem sortBy_perm {α : Type} (before : α → α → Bool) (as : List α) : (sortBy before as).Perm as := by
  induction as with
  | nil => exact .refl _
  | cons a as ih => exact (insertBy_perm before a _).trans (ih.cons a)

@[simp] theorem mem_sortBy {α : Type} {before : α → α → Bool} {as : List α} {a : α} :
    a ∈ sortBy before as ↔ a ∈ as := (sortBy_perm before as).mem_iff

namespace Rel

/-- The name of the kind of relation. -/
def kindName : Rel → String
  | .eq => "Equality"
  | .ne => "Unequality"
  | .lt => "StrictLessThan"
  | .le => "LessThan"
  | .gt => "StrictGreaterThan"
  | .ge => "GreaterThan"

end Rel

namespace Func

/-- The name under which a function is written. -/
def kindName : Func → String
  | .named n => n
  | .log => "log"
  | .abs => "Abs"
  | .floor => "floor"
  | .mod => "Mod"
  | .max => "Max"
  | .min => "Min"
  | .and => "And"
  | .or => "Or"
  | .xor => "Xor"
  | .not => "Not"
  | .rel r => r.kindName

end Func

namespace Scalar

/-- The name of the kind of number; the numbers 0, 1, 1/2 and -1 are kinds of
their own. -/
def kindName : Scalar → String
  | .exact q =>
    if q = 0 then "Zero" else if q = 1 then "One" else if q = -1 then "NegativeOne"
    else if q = 1 / 2 then "Half" else if q.den = 1 then "Integer" else "Rational"
  | .binary _ => "Float"
  | .inf n => if n then "NegativeInfinity" else "Infinity"
  | .nan => "NaN"

end Scalar

namespace Expr

/-- The name of the kind of a node. -/
def kindName : Expr → String
  | .symbol _ => "Symbol"
  | .scalar s => s.kindName
  | .constant .pi => "Pi"
  | .constant .imaginary => "ImaginaryUnit"
  | .constant .undirected => "ComplexInfinity"
  | .truth b => if b then "BooleanTrue" else "BooleanFalse"
  | .sum _ => "Add"
  | .product _ => "Mul"
  | .power _ _ => "Pow"
  | .apply f _ => f.kindName

/-- The kinds that have a fixed place in the order; all others follow by name. -/
def rankedKinds : List String :=
  ["Zero", "One", "Half", "Infinity", "NaN", "NegativeOne", "NegativeInfinity",
   "Integer", "Rational", "Float",
   "Exp1", "Pi", "ImaginaryUnit",
   "Symbol", "Wild", "Temporary",
   "Pow", "Mul", "Add",
   "Derivative", "Integral",
   "Abs", "Sign", "Sqrt", "Floor", "Ceiling", "Re", "Im", "Arg", "Conjugate", "Exp", "Log",
   "Sin", "Cos", "Tan", "Cot", "ASin", "ACos", "ATan", "ACot",
   "Sinh", "Cosh", "Tanh", "Coth", "ASinh", "ACosh", "ATanh", "ACoth",
   "RisingFactorial", "FallingFactorial", "factorial", "binomial",
   "Gamma", "LowerGamma", "UpperGamma", "PolyGamma", "Erf",
   "Chebyshev", "Chebyshev2",
   "Function", "WildFunction", "Lambda", "Order",
   "Equality", "Unequality", "StrictGreaterThan", "StrictLessThan", "GreaterThan", "LessThan"]

/-- The order of two names of kinds. -/
def kindOrder (a b : String) : Ordering :=
  if a = b then .eq
  else
    let i := rankedKinds.idxOf a
    let j := rankedKinds.idxOf b
    if i = rankedKinds.length ∧ j = rankedKinds.length then compare a b else compare i j

mutual
/-- The canonical order. -/
def canonical : Expr → Expr → Ordering
  | .symbol m, .symbol n => compare m n
  | .scalar m, .scalar n =>
    (kindOrder m.kindName n.kindName).then
      (match m, n with
       | .exact p, .exact q => (compare p.num q.num).then (compare p.den q.den)
       | .binary x, .binary y => x.structural y
       | _, _ => .eq)
  | .sum m, .sum n => (compare m.length n.length).then (canonicalList m n)
  | .product m, .product n => (compare m.length n.length).then (canonicalList m n)
  | .power b e, .power c f => (canonical b c).then (canonical e f)
  | .apply f m, .apply g n =>
    (kindOrder f.kindName g.kindName).then
      ((compare m.length n.length).then (canonicalList m n))
  | a, b => kindOrder a.kindName b.kindName

/-- The canonical order of two lists of one length, from left to right. -/
def canonicalList : List Expr → List Expr → Ordering
  | a :: as, b :: bs => (canonical a b).then (canonicalList as bs)
  | _, _ => .eq
end

/-- Sorts expressions into canonical order; equal ones keep their places. -/
def sortCanonical (es : List Expr) : List Expr :=
  sortBy (fun a b => canonical a b != .gt) es

end Expr

end FactorPlan
