import FactorPlan.Expr.Build
import FactorPlan.Expr.Display
import FactorPlan.Formula.Tree
import FactorPlan.Text.Quoted

/-!
Values of formulas. Before an expression comes into play a formula computes with
whole numbers, truth values, doubles, texts and tuples; once such a value meets an
expression it becomes one.

Correspondence:
  what `eval(code, dict)` gives ↔ `Value`
  the errors that it raises     ↔ `EvalError`
  `sympify`                     ↔ `toExpr?`
  `bool(v)`                     ↔ `truthy`
  `==` of two values            ↔ `equals`
  `repr(v)`, `str(v)`           ↔ `shown`, `plainText`
-/

namespace FactorPlan

namespace Formula

/-- The functions that every formula may call. -/
inductive Builtin where
  | sum | product | power | equal | absolute | largest | smallest | logarithm
  | symbol | symbols | functionNamed
  | abs | max | min | text
  /-- A known name without a use in formulas. -/
  | other (name : String)
  deriving DecidableEq, Repr

/-- A value. -/
inductive Value where
  | int (n : Int)
  | truth (b : Bool)
  | float (x : Double)
  | text (s : String)
  | none
  | tuple (vs : List Value)
  | list (vs : List Value)
  | expr (e : Expr)
  | function (name : String)
  | builtin (b : Builtin)
  | lambda (params : List String) (body : Tree) (scope : List (String × Value))
  deriving Inhabited

/-- Why a formula has no value. -/
inductive EvalError where
  | malformed
  | indented
  /-- A name that begins and ends with two underscores. -/
  | hiddenName (name : String)
  /-- A name that would reach outside the formula. -/
  | bannedName (name : String)
  | unknownName (name : String)
  | wrongType
  | missingAttribute
  | badValue
  | badIndex
  | badText
  | zeroDivision
  | overflow
  | endless
  /-- A kind of value that formulas make no use of. -/
  | unsupported
  deriving DecidableEq, Repr

namespace EvalError

/-- The wording of the errors about names. -/
def message? : EvalError → Option String
  | .hiddenName n => some (n ++ " not allowed : attributes not allowed")
  | .bannedName n => some (n ++ " not allowed : code execution not allowed")
  | .unknownName n => some ("name " ++ Text.quoted n ++ " is not defined")
  | _ => none

def ofBuild : BuildError → EvalError
  | .incomparable => .badValue
  | .wrongKind => .wrongType
  | .unsupported => .missingAttribute
  | .zeroDivisor => .zeroDivision

end EvalError

namespace Value

/-- The scalar that a double becomes. -/
def scalarOf : Double → Scalar
  | .finite x => .binary x
  | .negZero => .binary .zero
  | .inf n => .inf n
  | .nan => .nan

/-- The expression that a value becomes. -/
def toExpr? : Value → Option Expr
  | .int n => some (.ofInt n)
  | .truth b => some (.truth b)
  | .float x => some (.scalar (scalarOf x))
  | .expr e => some e
  | _ => Option.none

/-- The expression of a value that can be computed with. -/
def toNumeric? (v : Value) : Option Expr :=
  match v with
  | .truth _ => Option.none
  | v => v.toExpr?.bind (fun e => if e.isLogical then Option.none else some e)

/-- The expression of a value that can be true or false. -/
def toLogical? (v : Value) : Option Expr :=
  match v with
  | .int _ => Option.none
  | .float _ => Option.none
  | v => v.toExpr?.bind (fun e => if e.isLogical || e.isSymbol then some e else Option.none)

def isExpr : Value → Bool
  | .expr _ => true
  | _ => false

/-- Whole numbers, with truth values counting as 0 and 1. -/
def toInt? : Value → Option Int
  | .int n => some n
  | .truth b => some (if b then 1 else 0)
  | _ => Option.none

/-- The double nearest to a whole number; none beyond the largest double. -/
def doubleOfInt (n : Int) : Option Double :=
  match Double.ofRat n with
  | .inf _ => Option.none
  | x => some x

/-- Doubles, whole numbers counting as such. -/
def toDouble? : Value → Option (Option Double)
  | .float x => some (some x)
  | v => v.toInt?.map doubleOfInt

/-- Whether a value counts as true; relations do not tell. -/
def truthy : Value → Except EvalError Bool
  | .int n => .ok (n ≠ 0)
  | .truth b => .ok b
  | .float x => .ok !x.isZero
  | .text s => .ok (s ≠ "")
  | .none => .ok false
  | .tuple vs => .ok !vs.isEmpty
  | .list vs => .ok !vs.isEmpty
  | .expr e =>
    match e with
    | .scalar s => .ok !s.isZero
    | .truth b => .ok b
    | e => if e.isRelation then .error .wrongType else .ok true
  | _ => .ok true

/-- The name of the type of a value. -/
def typeName : Value → String
  | .int _ => "int"
  | .truth _ => "bool"
  | .float _ => "float"
  | .text _ => "str"
  | .none => "NoneType"
  | .tuple _ => "tuple"
  | .list _ => "list"
  | .expr e => e.kindName
  | .function _ => "UndefinedFunction"
  | .builtin _ => "builtin_function_or_method"
  | .lambda _ _ _ => "function"

mutual
/-- The text by which a value is shown. -/
def shown : Value → String
  | .int n => toString n
  | .truth b => if b then "True" else "False"
  | .float x => x.text
  | .text s => Text.quoted s
  | .none => "None"
  | .tuple [v] => "(" ++ shown v ++ ",)"
  | .tuple vs => "(" ++ ", ".intercalate (shownList vs) ++ ")"
  | .list vs => "[" ++ ", ".intercalate (shownList vs) ++ "]"
  | .expr e => e.text
  | .function n => n
  | .builtin _ => "<built-in function>"
  | .lambda _ _ _ => "<function <lambda>>"

def shownList : List Value → List String
  | [] => []
  | v :: vs => shown v :: shownList vs
end

/-- The text of a value itself: a text stands without quotes. -/
def plainText : Value → String
  | .text s => s
  | v => v.shown

mutual
/-- Equality of values: numbers by value, expressions by form. -/
def equals : Value → Value → Bool
  | .expr a, .expr b => exprEquals a b
  | .tuple as, .tuple bs => equalsList as bs
  | .list as, .list bs => equalsList as bs
  | .text s, .text t => s == t
  | .none, .none => true
  | .function a, .function b => a == b
  | .builtin a, .builtin b => a == b
  | a, b =>
    match a, b with
    | .expr e, b => (b.toExpr?.map (exprEquals e)).getD false
    | a, .expr e => (a.toExpr?.map (exprEquals · e)).getD false
    | a, b =>
      match a.toInt?, b.toInt? with
      | some m, some n => m == n
      | _, _ =>
        match a.toDouble?, b.toDouble? with
        | some (some x), some (some y) => x.order? y == some .eq
        | _, _ => false

def equalsList : List Value → List Value → Bool
  | [], [] => true
  | a :: as, b :: bs => equals a b && equalsList as bs
  | _, _ => false

/-- Numbers are equal by value, other expressions by form. -/
def exprEquals (a b : Expr) : Bool :=
  match a, b with
  | .scalar s, .scalar t => s.sameValue t
  | a, b => a == b
end

end Value

end Formula

end FactorPlan
