import FactorPlan.Expr.Sign

/-!
Expressions as text. Sums, products and powers are written with operators and
parentheses where precedence asks for them; everything else goes through a
dialect, which says how symbols and calls are written. The plain dialect gives
the text in which expressions are shown; dialects of target languages may fail
on a call they cannot write.

Correspondence:
  `StrPrinter.doprint`, `str(expr)`               ↔ `write`, `text`
  `_print`                                        ↔ `textF`
  `_print_Symbol`, `_print_Function` of a printer ↔ `Dialect`
  `parenthesize`                                  ↔ `Piece.within`
  `precedence`                                    ↔ `Precedence.ofExpr`
  `_print_Add`                                    ↔ `joinTerms`
  `_print_Mul`                                    ↔ `splitFraction`, `fractionText`
-/

namespace FactorPlan

/-- Why an expression cannot be written in a dialect. -/
inductive PrintError where
  /-- A call has fewer arguments than its form needs. -/
  | missingArgument
  /-- A call stands where a node with other parts is expected. -/
  | missingPart
  /-- A call has a number of arguments that its form does not take. -/
  | wrongCount
  /-- A call is written by way of itself. -/
  | endless
  deriving DecidableEq, Repr

/-! ## Precedence -/

namespace Precedence

def lambda : Nat := 1
def xor : Nat := 10
def or : Nat := 20
def and : Nat := 30
def relation : Nat := 35
def bitOr : Nat := 36
def bitXor : Nat := 37
def bitAnd : Nat := 38
def sum : Nat := 40
def product : Nat := 50
def power : Nat := 60
def call : Nat := 70
def not : Nat := 100
def atom : Nat := 1000

/-- The precedence of a call: that of the kind of node with its name, if there is
one. -/
def ofName (name : String) : Nat :=
  match name with
  | "Lambda" => lambda
  | "Xor" => xor
  | "Or" => or
  | "And" => and
  | "Relational" => relation
  | "Equality" => product
  | "Unequality" => product
  | "Add" => sum
  | "NegativeInfinity" => sum
  | "Mul" => product
  | "Mod" => product
  | "Pow" => power
  | _ => call

/-- The precedence of an expression. -/
def ofExpr : Expr → Nat
  | .scalar s =>
    if s.isNegative then sum
    else match s with
      | .exact q => if q.den = 1 then atom else product
      | _ => atom
  | .sum _ => sum
  | .product (.scalar s :: _) => if s.isNegative then sum else product
  | .product _ => product
  | .power _ _ => power
  | .apply f _ =>
    match f with
    | .named n => ofName n
    | .mod => product
    | .rel .eq => product
    | .rel .ne => product
    | .rel _ => relation
    | .and => and
    | .or => or
    | .xor => xor
    | .not => atom
    | .max => atom
    | .min => atom
    | _ => call
  | _ => atom

end Precedence

/-- A part of an expression with its text. -/
structure Piece where
  expr : Expr
  text : Except PrintError String

namespace Piece

/-- The text, in parentheses if the part binds no tighter than `level`. -/
def within (p : Piece) (level : Nat) : Except PrintError String := do
  let t ← p.text
  return if Precedence.ofExpr p.expr ≤ level then "(" ++ t ++ ")" else t

end Piece

/-- The texts of all pieces; the first failure counts. -/
def allTexts : List Piece → Except PrintError (List String)
  | [] => .ok []
  | p :: ps => do
    let t ← p.text
    let ts ← allTexts ps
    return t :: ts

/-- The texts of all pieces within a level. -/
def allWithin (level : Nat) : List Piece → Except PrintError (List String)
  | [] => .ok []
  | p :: ps => do
    let t ← p.within level
    let ts ← allWithin level ps
    return t :: ts

/-- How symbols and calls are written. `call` gives the form of a call by the name
of its kind; calls without a form are written as plain calls. With `byName`, a
named function that bears the name of another kind of node is written like that
kind. -/
structure Dialect where
  symbol : String → String
  call : String → Option (Nat → List Piece → Except PrintError String)
  byName : Bool

namespace Dialect

/-- A plain call. -/
def plainCall (name : String) (ps : List Piece) : Except PrintError String := do
  let ts ← allTexts ps
  return name ++ "(" ++ ", ".intercalate ts ++ ")"

/-- The dialect in which expressions are shown. -/
def plain : Dialect := { symbol := id, call := fun _ => none, byName := false }

end Dialect

/-- How a function with the name of another kind of node is written, where calls
are written by the name of their kind. -/
def reservedCall (d : Dialect) (name : String) (ps : List Piece) :
    Option (Except PrintError String) :=
  match name with
  | "Symbol" => some (.ok (d.symbol name))
  | "Dummy" => some (.ok ("_" ++ name))
  | "Wild" => some (.ok (name ++ "_"))
  | "Add" => some (.error .endless)
  | "Or" => some do return " | ".intercalate (← allWithin Precedence.bitOr ps)
  | "And" => some do return " & ".intercalate (← allWithin Precedence.bitAnd ps)
  | "Xor" => some do return " ^ ".intercalate (← allWithin Precedence.bitXor ps)
  | "Not" => some (match ps with
    | p :: _ => do return "~" ++ (← p.within Precedence.not)
    | [] => .error .missingArgument)
  | "Zero" => some (.ok "0")
  | "Infinity" => some (.ok "oo")
  | "NegativeInfinity" => some (.ok "-oo")
  | "ComplexInfinity" => some (.ok "zoo")
  | "NaN" => some (.ok "nan")
  | "Pi" => some (.ok "pi")
  | "Exp1" => some (.ok "E")
  | "ImaginaryUnit" => some (.ok "I")
  | "EulerGamma" => some (.ok "EulerGamma")
  | "GoldenRatio" => some (.ok "GoldenRatio")
  | "Catalan" => some (.ok "Catalan")
  | "Limit" => some (.error .wrongCount)
  | "Interval" => some (.error .wrongCount)
  | n =>
    if ["Pow", "Integer", "Rational", "Float", "Relational", "Heaviside", "Lambda", "Derivative",
        "Integral", "Sum", "Product", "Subs", "Order", "Poly", "Quaternion", "Quantity",
        "Permutation", "Cycle", "MatMul", "ConditionSet", "Uniform", "WildFunction"].contains n
    then some (.error .missingPart) else none

namespace Expr

/-- The power with the sign of its exponent changed, as a denominator shows it. -/
def flipPower : Expr → Expr
  | .power b (.scalar s) => if s = .negOne then b else .power b (.scalar s.neg)
  | .power b (.product (.scalar s :: rest)) =>
    if s = .negOne then .power b (rawProduct rest) else .power b (.product (.scalar s.neg :: rest))
  | e => e

/-- Whether the expression is a power that stands in a denominator. -/
def isReciprocal : Expr → Bool
  | .power b x => x.splitCoeff.1.isNegative && b.commutes && x.commutes
  | _ => false

/-- Whether a product is written with its factors as they stand: one that was not
evaluated. -/
def writtenAsIs : List Expr → Bool
  | [] => false
  | a :: rest =>
    a == one || rest.any (fun f => f.isScalar ||
      (match f with | .power b e => b.isInteger && e.isInteger | _ => false))

/-- Numerator and denominator factors of a product, in display order, for a
product without its sign. -/
def splitFraction (fs : List Expr) : List Expr × List Expr :=
  fs.foldl (fun (acc : List Expr × List Expr) f =>
    match f with
    | .scalar (.exact q) =>
      (if q.num = 1 then acc.1 else acc.1 ++ [ofInt q.num],
       if q.den = 1 then acc.2 else acc.2 ++ [ofInt q.den])
    | f => if f.isReciprocal then (acc.1, acc.2 ++ [f.flipPower]) else (acc.1 ++ [f], acc.2)) ([], [])

/-- Joins numerator and denominator texts. -/
def fractionText (num den : List String) : String :=
  let n := "*".intercalate (if num.isEmpty then ["1"] else num)
  match den with
  | [] => n
  | [d] => n ++ "/" ++ d
  | ds => n ++ "/(" ++ "*".intercalate ds ++ ")"

/-- One term of a sum with its sign in front. -/
def signedTerm (p : Piece) : Except PrintError (String × String) := do
  let t ← p.text
  let (sign, t) :=
    if t.startsWith "-" && !p.expr.isSum then ("-", String.ofList (t.toList.drop 1)) else ("+", t)
  return (sign, if Precedence.ofExpr p.expr < Precedence.sum || p.expr.isSum then "(" ++ t ++ ")" else t)

/-- The terms of a sum with their signs. -/
def signedTerms : List Piece → Except PrintError (List (String × String))
  | [] => .ok []
  | p :: ps => do
    let t ← signedTerm p
    let ts ← signedTerms ps
    return t :: ts

/-- Joins signed terms; a leading plus is not written. -/
def joinTerms : List (String × String) → String
  | [] => ""
  | (s, t) :: rest =>
    (if s = "+" then "" else s) ++ t ++ String.join (rest.map (fun p => " " ++ p.1 ++ " " ++ p.2))

/-- The sign between the sides of an order relation. -/
def relationSign : Rel → String
  | .lt => "<"
  | .le => "<="
  | .gt => ">"
  | .ge => ">="
  | .eq => "=="
  | .ne => "!="

/-- The text of a product with its factors as they stand. -/
def asIsText (piece : Expr → Piece) (level : Nat) (fs : List Expr) : Except PrintError String := do
  let den := (fs.filter isReciprocal).map flipPower
  let num := fs.filter (!·.isReciprocal)
  let ns ← match num with
    | n :: rest => do
      let first ← if !n.isSum && n.leadsWithMinus then (piece n).text else (piece n).within level
      let others ← allWithin level (rest.map piece)
      pure (first :: others)
    | [] => pure []
  let ds ← match den with
    | m :: k :: rest => do
      let first ← if m.leadsWithMinus then (piece m).text else (piece m).within level
      let others ← allWithin level ((k :: rest).map piece)
      pure (first :: others)
    | den => allWithin level (den.map piece)
  return fractionText ns ds

/-- The text of an expression in a dialect, within `fuel` levels. `short` drops
zeros at the end of binary numbers, as is done below the top. -/
def textF (d : Dialect) : Nat → Bool → Expr → Except PrintError String
  | 0, _, _ => .error .endless
  | fuel + 1, short, e =>
    let piece (a : Expr) : Piece := ⟨a, textF d fuel true a⟩
    match e with
    | .symbol n => .ok (d.symbol n)
    | .scalar s => .ok (s.text short)
    | .sum _ => do return joinTerms (← signedTerms (e.orderedTerms.map piece))
    | .product fs =>
      let level := Precedence.ofExpr e
      if writtenAsIs fs then asIsText piece level fs
      else
        let c := e.splitCoeff.1
        let (sign, fs) :=
          if c.isNegative then ("-", (keepCoeff c.neg e.splitCoeff.2).orderedFactors)
          else ("", e.orderedFactors)
        let (num, den) := splitFraction fs
        do
          let ns ← allWithin level (num.map piece)
          let ds ← allWithin level (den.map piece)
          -- a power or product in the denominator keeps its own parentheses
          let ds := (den.zip ds).map (fun p =>
            if fs.contains (.power p.1 negOne) && (p.1.isProduct || p.1.isPower) then "(" ++ p.2 ++ ")" else p.2)
          return sign ++ fractionText ns ds
    | .power b x =>
      let level := Precedence.power
      if x = half then do return "sqrt(" ++ (← (piece b).text) ++ ")"
      else if x = ofRat (-1 / 2) && e.commutes then do return "1/sqrt(" ++ (← (piece b).text) ++ ")"
      else if x = negOne && e.commutes then do return "1/" ++ (← (piece b).within level)
      else do
        let xt ← (piece x).within level
        return (← (piece b).within level) ++ "**" ++ xt
    | .apply f as =>
      let name := f.kindName
      let level := Precedence.ofExpr e
      let ps := as.map piece
      match d.call name with
      | some form => form level ps
      | none =>
        match f with
        | .named n =>
          if !d.byName then Dialect.plainCall n ps
          else if n = "Mul" then
            (match as with
             | [] => .error .missingArgument
             | _ => if writtenAsIs as then asIsText piece Precedence.product as else .error .endless)
          else (reservedCall d n ps).getD (Dialect.plainCall n ps)
        | .max => Dialect.plainCall name ((sortDisplay as).map piece)
        | .min => Dialect.plainCall name ((sortDisplay as).map piece)
        | .and => do return " & ".intercalate (← allWithin Precedence.bitAnd ps)
        | .or => do return " | ".intercalate (← allWithin Precedence.bitOr ps)
        | .xor => do return " ^ ".intercalate (← allWithin Precedence.bitXor ps)
        | .not => match ps with
          | p :: _ => do return "~" ++ (← p.within Precedence.not)
          | [] => .error .missingArgument
        | .rel .eq => Dialect.plainCall "Eq" ps
        | .rel .ne => Dialect.plainCall "Ne" ps
        | .rel r => match ps with
          | [a, b] => do
            let x ← a.within level
            let y ← b.within level
            return x ++ " " ++ relationSign r ++ " " ++ y
          | _ => .error .missingArgument
        | _ => Dialect.plainCall name ps
    | e => .ok e.atomText
/-- Levels enough to write an expression. -/
def textBudget (e : Expr) : Nat := 16 + 4 * e.size

/-- The text of an expression in a dialect. -/
def write (d : Dialect) (e : Expr) : Except PrintError String := textF d (textBudget e) false e

/-- The text in which an expression is shown. -/
def text (e : Expr) : String :=
  match write .plain e with
  | .ok t => t
  | .error _ => ""

end Expr

end FactorPlan
