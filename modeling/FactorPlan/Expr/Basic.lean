import FactorPlan.Number.Scalar

/-!
Expressions: symbols, numbers, truth values, sums, products, powers and applied
functions. This module holds the type, its decidable equality and the parts of a
node. Nodes are taken as they stand; the evaluation that happens when a node is
built is in `FactorPlan.Expr.Build`.

Correspondence:
  `Basic`, `func` and `args`                 ↔ `Expr`, `args`
  `Basic.__eq__`                             ↔ `same`
  `is_Atom`, `is_Add`, `is_Mul`, `is_Symbol` ↔ `isAtom`, `isSum`, `isProduct`, `isSymbol`
  `preorder_traversal`                       ↔ `nodes`
  `Add._from_args`, `Mul._from_args`         ↔ `rawSum`, `rawProduct`
  `Add.make_args`, `Mul.make_args`           ↔ `terms`, `factors`
  `as_coeff_Mul`, `as_coeff_Add`             ↔ `splitCoeff`, `splitConstant`
  `as_base_exp`                              ↔ `baseExponent`
  `is_commutative`                           ↔ `commutes`
-/

namespace FactorPlan

/-- The relations between two expressions. -/
inductive Rel where
  | eq | ne | lt | le | gt | ge
  deriving DecidableEq, Repr, Inhabited

/-- What is applied to arguments: a function known by its name only, or one whose
applications are evaluated. -/
inductive Func where
  | named (name : String)
  | log | abs | floor | mod
  | max | min
  | and | or | xor | not
  | rel (r : Rel)
  deriving DecidableEq, Repr, Inhabited

/-- Numbers that are no scalars. `undirected` is an infinity without a direction,
the value of a division by zero. -/
inductive Constant where
  | pi | imaginary | undirected
  deriving DecidableEq, Repr, Inhabited

/-- An expression. -/
inductive Expr where
  | symbol (name : String)
  | scalar (s : Scalar)
  | constant (c : Constant)
  | truth (b : Bool)
  | sum (terms : List Expr)
  | product (factors : List Expr)
  | power (base exponent : Expr)
  | apply (f : Func) (args : List Expr)
  deriving Repr, Inhabited

namespace Expr

/-! ## Equality -/

mutual
/-- Whether two expressions are the same tree. -/
def same : Expr → Expr → Bool
  | .symbol m, .symbol n => m == n
  | .scalar m, .scalar n => m == n
  | .constant m, .constant n => m == n
  | .truth m, .truth n => m == n
  | .sum m, .sum n => sameList m n
  | .product m, .product n => sameList m n
  | .power b e, .power c f => same b c && same e f
  | .apply f m, .apply g n => f == g && sameList m n
  | _, _ => false

/-- Whether two lists hold the same trees in the same order. -/
def sameList : List Expr → List Expr → Bool
  | [], [] => true
  | a :: as, b :: bs => same a b && sameList as bs
  | _, _ => false
end

mutual
theorem eq_of_same : (a b : Expr) → same a b = true → a = b
  | .symbol _, b, h => by cases b <;> simp_all [same]
  | .scalar _, b, h => by cases b <;> simp_all [same]
  | .constant _, b, h => by cases b <;> simp_all [same]
  | .truth _, b, h => by cases b <;> simp_all [same]
  | .sum m, b, h => by
    cases b <;> simp [same] at h
    rw [eq_of_sameList m _ h]
  | .product m, b, h => by
    cases b <;> simp [same] at h
    rw [eq_of_sameList m _ h]
  | .power c e, b, h => by
    cases b <;> simp [same] at h
    rw [eq_of_same c _ h.1, eq_of_same e _ h.2]
  | .apply f m, b, h => by
    cases b <;> simp [same] at h
    rw [h.1, eq_of_sameList m _ h.2]

theorem eq_of_sameList : (a b : List Expr) → sameList a b = true → a = b
  | [], b, h => by cases b <;> simp_all [sameList]
  | a :: as, b, h => by
    cases b <;> simp [sameList] at h
    rw [eq_of_same a _ h.1, eq_of_sameList as _ h.2]
end

mutual
theorem same_self : (a : Expr) → same a a = true
  | .symbol _ => by simp [same]
  | .scalar _ => by simp [same]
  | .constant _ => by simp [same]
  | .truth _ => by simp [same]
  | .sum m => by simp [same, sameList_self m]
  | .product m => by simp [same, sameList_self m]
  | .power b e => by simp [same, same_self b, same_self e]
  | .apply _ m => by simp [same, sameList_self m]

theorem sameList_self : (a : List Expr) → sameList a a = true
  | [] => by simp [sameList]
  | a :: as => by simp [sameList, same_self a, sameList_self as]
end

theorem same_iff (a b : Expr) : same a b = true ↔ a = b :=
  ⟨eq_of_same a b, fun h => h ▸ same_self a⟩

instance : DecidableEq Expr := fun a b => decidable_of_iff _ (same_iff a b)

/-! ## Parts of a node -/

/-- The arguments of a node, in their own order; none for a leaf. -/
def args : Expr → List Expr
  | .sum ts => ts
  | .product fs => fs
  | .power b e => [b, e]
  | .apply _ as => as
  | _ => []

/-- Whether the node is a leaf by its kind. -/
def isAtom : Expr → Bool
  | .symbol _ => true
  | .scalar _ => true
  | .constant _ => true
  | .truth _ => true
  | _ => false

def isSum : Expr → Bool
  | .sum _ => true
  | _ => false

def isProduct : Expr → Bool
  | .product _ => true
  | _ => false

def isPower : Expr → Bool
  | .power _ _ => true
  | _ => false

def isScalar : Expr → Bool
  | .scalar _ => true
  | _ => false

def isSymbol : Expr → Bool
  | .symbol _ => true
  | _ => false

/-- Whether the expression is a relation. -/
def isRelation : Expr → Bool
  | .apply (.rel _) _ => true
  | _ => false

/-- Whether the expression stands for a truth value: a truth value, a relation or
a combination of such. -/
def isLogical : Expr → Bool
  | .truth _ => true
  | .apply (.rel _) _ => true
  | .apply .and _ => true
  | .apply .or _ => true
  | .apply .xor _ => true
  | .apply .not _ => true
  | _ => false

/-- The scalar, if the expression is one. -/
def scalar? : Expr → Option Scalar
  | .scalar s => some s
  | _ => none

def ofInt (n : Int) : Expr := .scalar (.exact n)
def ofRat (q : Rat) : Expr := .scalar (.exact q)

def zero : Expr := ofInt 0
def one : Expr := ofInt 1
def negOne : Expr := ofInt (-1)
def half : Expr := ofRat (1 / 2)
def nan : Expr := .scalar .nan
def undirected : Expr := .constant .undirected

/-- Whether the expression is a scalar with the given property. -/
def scalarIs (p : Scalar → Bool) : Expr → Bool
  | .scalar s => p s
  | _ => false

/-- Whether the expression is an exact number. -/
def isExact : Expr → Bool := scalarIs Scalar.isExact

/-- Whether the expression is an exact whole number. -/
def isInteger : Expr → Bool := scalarIs Scalar.isInteger

mutual
/-- The number of nodes. -/
def size : Expr → Nat
  | .sum ts => 1 + sizeList ts
  | .product fs => 1 + sizeList fs
  | .power b e => 1 + size b + size e
  | .apply _ as => 1 + sizeList as
  | _ => 1

/-- The number of nodes of all expressions of a list. -/
def sizeList : List Expr → Nat
  | [] => 0
  | a :: as => size a + sizeList as
end

mutual
/-- The nodes of the tree, each before its arguments, arguments from left to
right. -/
def nodes : Expr → List Expr
  | .sum ts => .sum ts :: nodesList ts
  | .product fs => .product fs :: nodesList fs
  | .power b e => .power b e :: (nodes b ++ nodes e)
  | .apply f as => .apply f as :: nodesList as
  | e => [e]

/-- The nodes of all trees of a list, in order. -/
def nodesList : List Expr → List Expr
  | [] => []
  | a :: as => nodes a ++ nodesList as
end

mutual
/-- Whether the factors of a product may be exchanged with this one. An expression
that depends on a single relation keeps its place. -/
def commutes : Expr → Bool
  | .symbol _ => true
  | .scalar _ => true
  | .constant _ => true
  | .truth _ => false
  | .sum ts => commutesAll ts
  | .product fs => commutesAll fs
  | .power b e => commutes b && commutes e
  | .apply .max _ => true
  | .apply .min _ => true
  | .apply .and _ => true
  | .apply .or _ => true
  | .apply (.rel _) _ => false
  | .apply .xor _ => false
  | .apply .not _ => false
  | .apply _ as => commutesAll as

/-- Whether all expressions of a list commute. -/
def commutesAll : List Expr → Bool
  | [] => true
  | a :: as => commutes a && commutesAll as
end

/-- Whether some node has the given property. -/
def has (p : Expr → Bool) (e : Expr) : Bool := e.nodes.any p

/-- The same kind of node over other arguments, taken as it stands. -/
def withArgs : Expr → List Expr → Expr
  | .sum _, as => .sum as
  | .product _, as => .product as
  | .power _ _, [b, e] => .power b e
  | .apply f _, as => .apply f as
  | e, _ => e

/-- A sum of the listed terms as they stand; none is zero, one is itself. -/
def rawSum : List Expr → Expr
  | [] => zero
  | [a] => a
  | as => .sum as

/-- A product of the listed factors as they stand; none is one, a single one is
itself. -/
def rawProduct : List Expr → Expr
  | [] => one
  | [a] => a
  | as => .product as

/-- The terms of a sum; the expression itself otherwise. -/
def terms : Expr → List Expr
  | .sum ts => ts
  | e => [e]

/-- The factors of a product; the expression itself otherwise. -/
def factors : Expr → List Expr
  | .product fs => fs
  | e => [e]

/-- Splits off a leading scalar factor. -/
def splitCoeff : Expr → Scalar × Expr
  | .product (.scalar s :: rest) => (s, rawProduct rest)
  | .scalar s => if s.isZero then (.one, .scalar s) else (s, one)
  | e => (.one, e)

/-- Splits off a leading exact factor; of a negative binary factor only its sign
is taken. -/
def splitExactCoeff : Expr → Scalar × Expr
  | .product (.scalar (.exact q) :: rest) => (.exact q, rawProduct rest)
  | .product (.scalar s :: rest) =>
    if s.isNegative then (.negOne, .product (.scalar s.neg :: rest))
    else (.one, .product (.scalar s :: rest))
  | .scalar (.exact q) => if q = 0 then (.one, zero) else (.exact q, one)
  | e => (.one, e)

/-- Splits off a leading scalar term of a sum. -/
def splitConstant : Expr → Scalar × Expr
  | .sum (.scalar s :: rest) => (s, rawSum rest)
  | .scalar s => (s, zero)
  | e => (.zero, e)

/-- Base and exponent; a reciprocal of a whole number shows as that number with
the exponent -1. -/
def baseExponent : Expr → Expr × Expr
  | .power (.scalar (.exact q)) e =>
    if q.num = 1 ∧ q.den ≠ 1 then (ofInt q.den, negateRaw e) else (ofRat q, e)
  | .power b e => (b, e)
  | e => (e, one)
where
  /-- The negative of an exponent, without distributing over sums. -/
  negateRaw : Expr → Expr
    | .scalar s => .scalar s.neg
    | .product (.scalar s :: rest) =>
      if s = .negOne then rawProduct rest else .product (.scalar s.neg :: rest)
    | .product fs => .product (negOne :: fs)
    | .sum ts => .sum (ts.map negateTerm)
    | e => .product [negOne, e]
  /-- The negative of one term. -/
  negateTerm : Expr → Expr
    | .scalar s => .scalar s.neg
    | .product (.scalar s :: rest) =>
      if s = .negOne then rawProduct rest else .product (.scalar s.neg :: rest)
    | .product fs => .product (negOne :: fs)
    | e => .product [negOne, e]

end Expr

end FactorPlan
