import FactorPlan.Expr.Display

/-!
Forms of calls in generated code. A form is a template with numbered arguments:
written plainly, or in parentheses where the argument binds no tighter than the
call.

Correspondence:
  the format text of a `_print_..` method   ↔ `Part`, `writeForm`
  `self.parenthesize(arg, PREC)`            ↔ the parts in parentheses
  `_print_log`, `_print_Abs`, `_print_sign` ↔ `numberOr`
-/

namespace FactorPlan

namespace Target

/-- A part of a form. -/
inductive Part where
  | text (s : String)
  /-- The argument at a position. -/
  | arg (i : Nat)
  /-- The argument at a position, in parentheses where it binds no tighter than
  the call. -/
  | bound (i : Nat)
  /-- The argument at a position, in parentheses where it binds no tighter than a
  product. -/
  | factor (i : Nat)
  deriving DecidableEq, Repr

/-- The text of a part; an argument that is not there is an error. -/
def Part.write (level : Nat) (ps : List Piece) : Part → Except PrintError String
  | .text s => .ok s
  | .arg i => match ps[i]? with
    | some p => p.text
    | none => .error .missingArgument
  | .bound i => match ps[i]? with
    | some p => p.within level
    | none => .error .missingArgument
  | .factor i => match ps[i]? with
    | some p => p.within Precedence.product
    | none => .error .missingArgument

/-- The text of a form: its parts from left to right. -/
def writeForm (form : List Part) (level : Nat) (ps : List Piece) : Except PrintError String :=
  match form with
  | [] => .ok ""
  | part :: rest => do
    let t ← part.write level ps
    return t ++ (← writeForm rest level ps)

/-- A call with the arguments at the listed positions. -/
def callForm (name : String) (positions : List Nat) : List Part :=
  [Part.text (name ++ "(")] ++ ((positions.map Part.arg).intersperse (Part.text ", ")) ++ [Part.text ")"]

/-- A method of the first argument, with the text after the dot given around the
second argument. -/
def methodForm (before after : String) : List Part := [.bound 0, .text before, .arg 1, .text after]

/-- Calls that differ for numbers: a function of the number, or a method of anything
else. -/
def numberOr (name method : String) (level : Nat) (ps : List Piece) : Except PrintError String :=
  match ps[0]? with
  | none => .error .missingArgument
  | some p =>
    match p.expr with
    | .scalar s => .ok (name ++ "(" ++ s.text false ++ ")")
    | _ => do return (← p.within level) ++ method

end Target

end FactorPlan
