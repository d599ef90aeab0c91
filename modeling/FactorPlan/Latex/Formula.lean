import FactorPlan.Expr.Build
import FactorPlan.Expr.Display
import FactorPlan.Formula.Value
import FactorPlan.Latex.Style

/-!
Expressions as typeset formulas. Factors with negative exponents go into the
denominator of a fraction, and a power of a function carries its exponent at the
name of the function.

Correspondence:
  `latex`                                      ↔ `write`
  `LatexPrinter._print`                        ↔ `formulaF`
  `_needs_mul_brackets`, `_needs_add_brackets` ↔ `factorNeedsParens`, `termNeedsParens`
  `_print_Mul`, `convert`                      ↔ `fractionFactors`, `fractionText`
  `_print_Float`, `_print_Rational`            ↔ `scalarText`
  `_print_Function`                            ↔ `callText`
  `_print_LogOp`                               ↔ `logicText`
-/

namespace FactorPlan

namespace Latex

open Formula (Value)

/-! ## Precedence -/

/-- How tightly an expression binds in a formula. -/
def precedence : Expr → Nat
  | .product _ => Precedence.product
  | .apply .not _ => Precedence.not
  | .apply (.named _) _ => Precedence.call
  | .apply .mod _ => Precedence.call
  | .apply (.rel _) _ => Precedence.relation
  | e => Precedence.ofExpr e

/-- Whether an expression holds a remainder. -/
def hasMod (e : Expr) : Bool := e.nodes.any (fun x => match x with | .apply .mod _ => true | _ => false)

/-- Whether a factor goes into parentheses. -/
def factorNeedsParens (first : Bool) (e : Expr) : Bool :=
  (if e.isProduct then !first && e.leadsWithMinus else precedence e < Precedence.product) || hasMod e

/-- Whether a term goes into parentheses. -/
def termNeedsParens (e : Expr) : Bool := e.isRelation || e.isSum || hasMod e

/-! ## Fractions -/

/-- The base and the exponent with its sign changed, of a power with a negative
number as its exponent. -/
def reciprocalOf? (e : Expr) : Option Expr :=
  match e with
  | .power _ _ =>
    let (b, x) := e.baseExponent
    if e.commutes && x.facts.negative && !x.nodes.any (·.isSymbol) then
      some (if x = Expr.negOne then b else Expr.pow b (Expr.neg x))
    else none
  | _ => none

/-- The factors of numerator and denominator. -/
def fractionFactors (fs : List Expr) : List Expr × List Expr :=
  fs.foldl (fun (acc : List Expr × List Expr) f =>
    match f with
    | .scalar (.exact q) =>
      if q.den = 1 then (acc.1 ++ [f], acc.2)
      else (if q.num = 1 then acc.1 else acc.1 ++ [Expr.ofInt q.num], acc.2 ++ [Expr.ofInt q.den])
    | f => match reciprocalOf? f with
      | some d => (acc.1, acc.2 ++ [d])
      | none => (acc.1 ++ [f], acc.2)) ([], [])

/-- Whether two texts that follow each other are numbers at the place where they
meet. -/
def numbersMeet (before after : String) : Bool :=
  let ends := before.toList.reverse.dropWhile (fun c => c = '\x7d' || c = ' ')
  (ends.head?.map Char.isDigit).getD false && (after.toList.head?.map Char.isDigit).getD false

/-- Joins the texts of factors; `before` is the one written last. -/
def joinFactors (s : Style) : String → List String → String
  | _, [] => ""
  | before, t :: ts => (if numbersMeet before t then s.numberTimes else s.times) ++ t ++ joinFactors s t ts

/-- The text of factors. -/
def factorsText (s : Style) : List String → String
  | [] => ""
  | t :: ts => t ++ joinFactors s t ts

/-- A fraction of two texts, on one line if the style asks for it and the denominator
is short. -/
def fractionText (s : Style) (parens : Bool) (numer denom : String) : String :=
  if s.foldsShort && (Text.words denom.toList).length ≤ 2 && !denom.contains '^' then
    (if parens then inParens numer else numer) ++ " / " ++ denom
  else frac numer denom

/-! ## Numbers -/

/-- A binary number from its decimal text. -/
def binaryText (s : Style) (t : String) : String :=
  let cs := t.toList
  match cs.dropWhile (· ≠ 'e') with
  | 'e' :: '+' :: x => super (String.ofList (cs.takeWhile (· ≠ 'e')) ++ s.numberTimes ++ "10") (String.ofList x)
  | 'e' :: x => super (String.ofList (cs.takeWhile (· ≠ 'e')) ++ s.numberTimes ++ "10") (String.ofList x)
  | _ => t

/-- A number. -/
def scalarText (s : Style) (x : Scalar) : String :=
  match x with
  | .exact q =>
    if q.den = 1 then toString q.num
    else
      let sign := if q < 0 then "- " else ""
      let n := toString q.num.natAbs
      let d := toString q.den
      if s.foldsShort then sign ++ n ++ " / " ++ d else sign ++ frac n d
  | .inf negative => if negative then "-\\infty" else "\\infty"
  | .nan => "\\text\x7bNaN\x7d"
  | x => binaryText s (x.text true)

/-- A constant. -/
def constantText : Constant → String
  | .pi => "\\pi"
  | .imaginary => "i"
  | .undirected => "\\tilde\x7b\\infty\x7d"

/-- The sign of a relation. -/
def relationSign : Rel → String
  | .lt => "<"
  | .le => "\\leq"
  | .gt => ">"
  | .ge => "\\geq"
  | .eq => "="
  | .ne => "\\neq"

/-! ## Calls and logic -/

/-- A call with the texts of its arguments, and perhaps an exponent. -/
def callText (f : Func) (exponent : Option String) (as : List String) : String :=
  let raised (t : String) : String := match exponent with
    | some x => super t x
    | none => t
  let first := as.head?.getD ""
  match f with
  | .log => raised ("\\log" ++ braced ("\\left(" ++ first ++ " \\right)"))
  | .abs => raised ("\\left|" ++ braced first ++ "\\right|")
  | .floor => raised ("\\left\\lfloor" ++ braced first ++ "\\right\\rfloor")
  | .max => raised ("\\max\\left(" ++ ", ".intercalate as ++ "\\right)")
  | .min => raised ("\\min\\left(" ++ ", ".intercalate as ++ "\\right)")
  | f =>
    let name := functionName f.kindName
    let name := match exponent with
      | some x => super (protectSuper name) x
      | none => name
    name ++ braced ("\\left(" ++ ",".intercalate as ++ " \\right)")

/-- Whether an operand of a logical operator goes into parentheses. -/
def isCompound : Expr → Bool
  | .truth _ => true
  | .apply .and _ => true
  | .apply .or _ => true
  | .apply .xor _ => true
  | _ => false

/-- The text of a logical operator with its operands. -/
def logicText (sign : String) (as : List (Expr × String)) : String :=
  (" " ++ sign ++ " ").intercalate (as.map (fun a => if isCompound a.1 then inParens a.2 else a.2))

/-! ## Expressions -/

/-- The formula of an expression, within `fuel` levels. -/
def formulaF (s : Style) : Nat → Expr → String
  | 0, _ => ""
  | fuel + 1, e =>
    match e with
    | .symbol n => s.symbol n
    | .scalar x => scalarText s x
    | .constant c => constantText c
    | .truth b => "\\text" ++ braced (if b then "True" else "False")
    | .sum _ =>
      match e.orderedTerms with
      | [] => ""
      | t :: ts => termText fuel t ++ String.join (ts.map (fun t =>
          if t.leadsWithMinus then " - " ++ termText fuel (Expr.neg t) else " + " ++ termText fuel t))
    | .product fs => productText fuel e fs
    | .power b x => powerText fuel e b x
    | .apply .mod [a, b] =>
      let part (a : Expr) : String :=
        let t := formulaF s fuel a
        if precedence a < Precedence.product then inParens t else t
      part a ++ " \\bmod " ++ part b
    | .apply .and as => logicText "\\wedge" ((Expr.sortDisplay as).map (fun a => (a, formulaF s fuel a)))
    | .apply .or as => logicText "\\vee" ((Expr.sortDisplay as).map (fun a => (a, formulaF s fuel a)))
    | .apply .xor as => logicText "\\veebar" ((Expr.sortDisplay as).map (fun a => (a, formulaF s fuel a)))
    | .apply .not as =>
      let a := as.head?.getD Expr.zero
      let t := formulaF s fuel a
      if isCompound a then "\\neg " ++ inParens t else "\\neg " ++ t
    | .apply (.rel r) [a, b] => formulaF s fuel a ++ " " ++ relationSign r ++ " " ++ formulaF s fuel b
    | .apply f as => callText f none (argTexts fuel f as)
termination_by fuel => 5 * fuel
where
  /-- The texts of arguments. -/
  argTexts (fuel : Nat) (f : Func) (as : List Expr) : List String :=
    let as := if f = .max || f = .min then Expr.sortDisplay as else as
    as.map (formulaF s fuel)
  termination_by 5 * fuel + 1
  /-- A term of a sum. -/
  termText (fuel : Nat) (t : Expr) : String :=
    if termNeedsParens t then inParens (formulaF s fuel t) else formulaF s fuel t
  termination_by 5 * fuel + 1
  /-- Factors in order. -/
  factors (fuel : Nat) (fs : List Expr) : String :=
    factorsText s (fs.mapIdx (fun i f =>
      if factorNeedsParens (i = 0) f then inParens (formulaF s fuel f) else formulaF s fuel f))
  termination_by 5 * fuel + 1
  /-- Factors in display order, or one expression. -/
  part (fuel : Nat) (fs : List Expr) : String :=
    match fs with
    | [] => "1"
    | [f] => formulaF s fuel f
    | fs => factors fuel (Expr.product fs).orderedFactors
  termination_by 5 * fuel + 2
  /-- Whether factors together go into parentheses. -/
  partNeedsParens (fs : List Expr) : Bool :=
    match fs with
    | [] => false
    | [f] => factorNeedsParens false f
    | fs => factorNeedsParens false (.product fs)
  /-- A fraction of factors. -/
  quotient (fuel : Nat) (numer denom : List Expr) : String :=
    fractionText s (partNeedsParens numer) (part fuel numer) (part fuel denom)
  termination_by 5 * fuel + 3
  /-- A product. One that was not evaluated shows its factors as they stand. -/
  productText (fuel : Nat) (e : Expr) (fs : List Expr) : String :=
    if fs.head? = some Expr.one || (fs.drop 1).any (·.isScalar) then factors fuel fs
    else
      let minus := e.leadsWithMinus
      let e := if minus then Expr.neg e else e
      let (numer, denom) := fractionFactors e.factors
      let t := if denom.isEmpty then part fuel e.factors else quotient fuel numer denom
      if !minus then t
      else if e.isSum then "- (" ++ t ++ ")"
      else "- " ++ t
  termination_by 5 * fuel + 4
  /-- A power: a root, a reciprocal, a power of a function, or a superscript. -/
  powerText (fuel : Nat) (e b x : Expr) : String :=
    match x with
    | .scalar (.exact q) =>
      if q.num.natAbs = 1 && q.den ≠ 1 then
        let root := if q.den = 2 then "\\sqrt" ++ braced (formulaF s fuel b)
          else "\\sqrt[" ++ toString q.den ++ "]" ++ braced (formulaF s fuel b)
        if q < 0 then frac "1" root else root
      else if q < 0 && b.commutes then
        let (numer, denom) := fractionFactors [e]
        quotient fuel numer denom
      else raised fuel b x
    | x => raised fuel b x
  termination_by 5 * fuel + 4
  /-- A power with its exponent as a superscript. -/
  raised (fuel : Nat) (b x : Expr) : String :=
    match b with
    | .apply .mod [a, c] => super (inParens (formulaF s fuel (.apply .mod [a, c]))) (formulaF s fuel x)
    | .apply f as => callText f (some (formulaF s fuel x)) (argTexts fuel f as)
    | b =>
      let t := formulaF s fuel b
      let t := if precedence b ≤ Precedence.power then inParens t else t
      super (if b.isSymbol then protectSuper t else t) (formulaF s fuel x)
  termination_by 5 * fuel + 3

/-- The formula of an expression. -/
def formula (s : Style) (e : Expr) : String := formulaF s (16 + 4 * e.size) e

mutual
/-- The formula of a value. -/
def valueFormula (s : Style) : Value → String
  | .expr e => formula s e
  | .truth b => "\\text" ++ braced (if b then "True" else "False")
  | .none => "\\text\x7bNone\x7d"
  | .tuple [v] => "\\left( " ++ valueFormula s v ++ ",\\right)"
  | .tuple vs => "\\left( " ++ ", \\  ".intercalate (valueFormulas s vs) ++ "\\right)"
  | .list vs => "\\left[ " ++ ", \\  ".intercalate (valueFormulas s vs) ++ "\\right]"
  | .function n => functionName n
  | v => v.plainText

/-- The formulas of values. -/
def valueFormulas (s : Style) : List Value → List String
  | [] => []
  | v :: vs => valueFormula s v :: valueFormulas s vs
end

/-- The formula of a value in its surroundings. -/
def write (s : Style) (v : Value) : String := s.surround (valueFormula s v)

end Latex

end FactorPlan
