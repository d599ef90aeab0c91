import FactorPlan.Tidy.Spelling

/-!
Code of a script as trees, and its tidy text. Operators stand between blanks, except
that a power of plain names and numbers is written closely; a power under a sign is
put in parentheses.

Correspondence:
  `is_simple_power_operand`, `hug_power_op` ↔ `hugsBase`, `hugsExponent`
  `normalize_invisible_parens`              ↔ `bare`
  `str(line)`                               ↔ `Statement.lines`
-/

namespace FactorPlan

namespace Tidy

/-- An expression of a script. -/
inductive Code where
  | name (s : String)
  | number (s : String)
  /-- Quoted texts that follow each other. -/
  | texts (ss : List String)
  /-- Items in parentheses; `comma` tells whether one stands after the last item. -/
  | parens (items : List Code) (comma : Bool)
  | list (items : List Code) (comma : Bool)
  | attribute (c : Code) (name : String)
  | call (f : Code) (args : List Code) (comma : Bool)
  | index (c : Code) (items : List Code)
  | sign (op : String) (c : Code)
  | power (base exponent : Code)
  /-- An operand with operators and operands after it. -/
  | chain (first : Code) (rest : List (String × Code))
  | lambda (params : List String) (body : Code)
  /-- An argument with a name. -/
  | keyword (name value : Code)
  /-- An argument after comments. -/
  | noted (comments : List String) (c : Code)

namespace Code

/-- Whether an operand is a name, or an attribute of one. -/
def isDotted : Code → Bool
  | .name _ => true
  | .attribute c _ => c.isDotted
  | _ => false

/-- Whether an operand is a number or a dotted name. -/
def isPlain : Code → Bool
  | .number _ => true
  | c => c.isDotted

/-- Whether the base of a power is written closely. -/
def hugsBase (c : Code) : Bool := c.isPlain

/-- Whether the exponent of a power is written closely. -/
def hugsExponent : Code → Bool
  | .sign _ c => match c with
    | .power b _ => b.isPlain
    | c => c.isPlain
  | .power b _ => b.isPlain
  | c => c.isPlain

/-- Whether a base has nothing after its atom. -/
def isAtom : Code → Bool
  | .name _ => true
  | .number _ => true
  | .texts _ => true
  | .parens _ _ => true
  | .list _ _ => true
  | _ => false

/-- Whether a sign before an expression needs parentheses after it. -/
def isAtomPower : Code → Bool
  | .power b _ => b.isAtom
  | _ => false

mutual
/-- The tidy text. -/
def text : Code → String
  | .name s => s
  | .number s => numberSpelling s
  | .texts ss => " ".intercalate (ss.map quotedSpelling)
  | .parens [c] true => "(" ++ c.text ++ ",)"
  | .parens cs _ => "(" ++ ", ".intercalate (listTexts cs) ++ ")"
  | .list cs _ => "[" ++ ", ".intercalate (listTexts cs) ++ "]"
  | .attribute (.number s) n => "(" ++ numberSpelling s ++ ")." ++ n
  | .attribute c n => c.text ++ "." ++ n
  | .call f cs _ => f.text ++ "(" ++ ", ".intercalate (listTexts cs) ++ ")"
  | .index c cs => c.text ++ "[" ++ ", ".intercalate (listTexts cs) ++ "]"
  | .sign o c => if c.isAtomPower then o ++ "(" ++ c.text ++ ")" else o ++ c.text
  | .power b e => if b.hugsBase && e.hugsExponent then b.text ++ "**" ++ e.text else b.text ++ " ** " ++ e.text
  | .chain c rest => c.text ++ chainText rest
  | .lambda [] b => "lambda: " ++ b.text
  | .lambda ps b => "lambda " ++ ", ".intercalate ps ++ ": " ++ b.text
  | .keyword n v => n.text ++ "=" ++ v.text
  | .noted _ c => c.text

/-- The tidy texts of items. -/
def listTexts : List Code → List String
  | [] => []
  | c :: cs => c.text :: listTexts cs

/-- The tidy text of operators and operands. -/
def chainText : List (String × Code) → String
  | [] => ""
  | (o, c) :: rest => " " ++ o ++ " " ++ c.text ++ chainText rest
end

/-- An expression without parentheses around the whole of it. -/
def bare : Code → Code
  | .parens [c] false => c.bare
  | c => c

/-- The comments before an argument. -/
def comments : Code → List String
  | .noted ns _ => ns
  | _ => []

end Code

/-- A parameter of a function. -/
structure Param where
  name : String
  type : Option Code := none
  value : Option Code := none

/-- The tidy text of a parameter. -/
def Param.text (p : Param) : String :=
  match p.type, p.value with
  | none, none => p.name
  | none, some v => p.name ++ "=" ++ v.text
  | some t, none => p.name ++ ": " ++ t.text
  | some t, some v => p.name ++ ": " ++ t.text ++ " = " ++ v.text

/-- A statement. -/
inductive Statement where
  /-- An import, as words. -/
  | imports (words : List String)
  /-- The head of a function. -/
  | define (name : String) (params : List Param) (result : Option Code)
  | give (value : Option Code)
  /-- An expression, assigned to others. -/
  | assign (targets : List Code) (value : Code)

namespace Statement

/-- What stands before the last expression of a statement, and that expression. -/
def split : Statement → String × Option Code
  | .imports ws => (" ".intercalate ws, none)
  | .define n ps none => ("def " ++ n ++ "(" ++ ", ".intercalate (ps.map Param.text) ++ "):", none)
  | .define n ps (some r) =>
    ("def " ++ n ++ "(" ++ ", ".intercalate (ps.map Param.text) ++ ") -> " ++ r.text ++ ":", none)
  | .give none => ("return", none)
  | .give (some c) => ("return ", some c.bare)
  | .assign [] c => ("", some c)
  | .assign ts c => (String.join (ts.map (fun t => t.text ++ " = ")), some c.bare)

/-- The lines of a statement with the given indent. A call with a comma after its last
argument, or with comments, has a line for each argument. -/
def lines (indent : String) (s : Statement) : List String :=
  match s.split with
  | (pre, none) => [indent ++ pre]
  | (pre, some (.call f args comma)) =>
    if comma || args.any (fun a => !a.comments.isEmpty) then
      [indent ++ pre ++ f.text ++ "("] ++
      args.flatMap (fun a =>
        a.comments.map (fun n => indent ++ "    " ++ commentSpelling n) ++ [indent ++ "    " ++ a.text ++ ","]) ++
      [indent ++ ")"]
    else [indent ++ pre ++ (Code.call f args comma).text]
  | (pre, some c) => [indent ++ pre ++ c.text]

end Statement

end Tidy

end FactorPlan
