import FactorPlan.Text.Lines

/-!
How formulas are typeset: the surroundings of a formula, the sign between factors,
and names given to symbols.

Correspondence:
  `ExprLatexPrinter`, its settings ↔ `Style`
  `mode`, `mul_symbol`             ↔ `Mode`, `timesOf`
  `_hprint_Function`               ↔ `functionName`
  `_print_Symbol`                  ↔ `Style.symbol`
  `accepted_latex_functions`       ↔ `commands`
-/

namespace FactorPlan

namespace Latex

/-- The surroundings of a formula. -/
inductive Mode where
  | plain
  | inline
  | equation
  | unnumbered
  deriving DecidableEq, Repr

/-- The mode of a name. -/
def Mode.ofName? : String → Option Mode
  | "plain" => some .plain
  | "inline" => some .inline
  | "equation" => some .equation
  | "equation*" => some .unnumbered
  | _ => none

/-- A style. -/
structure Style where
  mode : Mode := .unnumbered
  /-- The sign between factors, blanks included. -/
  times : String := " \\times "
  /-- The sign between numbers, blanks included. -/
  numberTimes : String := " \\times "
  /-- Names of symbols. -/
  symbols : List (String × String) := []

/-- A text in braces. -/
def braced (s : String) : String := "\x7b" ++ s ++ "\x7d"

/-- A text in parentheses that grow with it. -/
def inParens (s : String) : String := "\\left(" ++ s ++ "\\right)"

/-- A text as a superscript of another. -/
def super (base exponent : String) : String := base ++ "^" ++ braced exponent

/-- A fraction. -/
def frac (a b : String) : String := "\\frac" ++ braced a ++ braced b

namespace Style

/-- The signs between factors and between numbers that a word asks for; any other
word stands for itself. Numbers are never divided by a blank alone. -/
def timesOf : Option String → String × String
  | none => (" ", " \\cdot ")
  | some "ldot" => (" \\,.\\, ", " \\,.\\, ")
  | some "dot" => (" \\cdot ", " \\cdot ")
  | some "times" => (" \\times ", " \\times ")
  | some w =>
    let bare := String.ofList (Text.trim w.toList)
    if ["", "\\", "\\,", "\\:", "\\;", "\\quad"].contains bare then (w, " \\cdot ") else (w, w)

/-- The style with the sign between factors that a word asks for. -/
def withTimes (s : Style) (w : Option String) : Style :=
  let (t, n) := timesOf w
  { s with times := t, numberTimes := n }

/-- A formula in its surroundings. -/
def surround (s : Style) (tex : String) : String :=
  match s.mode with
  | .plain => tex
  | .inline => "$" ++ tex ++ "$"
  | .equation => "\\begin\x7bequation\x7d" ++ tex ++ "\\end\x7bequation\x7d"
  | .unnumbered => "\\begin\x7bequation*\x7d" ++ tex ++ "\\end\x7bequation*\x7d"

/-- Whether short fractions are written on one line. -/
def foldsShort (s : Style) : Bool := s.mode = .inline

end Style

/-! ## Names -/

/-- A name with its underscores escaped. -/
def escaped (n : String) : String :=
  String.join (n.toList.map (fun c => if c = '_' then "\\_" else String.ofList [c]))

/-- Functions that have a command of their own. -/
def commands : List String :=
  ["arcsin", "arccos", "arctan", "sin", "cos", "tan", "sinh", "cosh", "tanh", "sqrt", "ln", "log", "sec", "csc",
   "cot", "coth", "re", "im", "frac", "root", "arg"]

/-- The name of a function. -/
def functionName (n : String) : String :=
  let t := escaped n
  if commands.contains t then "\\" ++ t
  else if t.length = 1 || t.startsWith "\\" then t
  else "\\operatorname" ++ braced t

/-- A text that can carry a superscript: one that has a superscript goes into
parentheses. -/
def protectSuper (t : String) : String := if t.contains '^' then inParens t else t

/-- The name of a symbol. -/
def Style.symbol (s : Style) (n : String) : String := (s.symbols.lookup n).getD (escaped n)

end Latex

end FactorPlan
