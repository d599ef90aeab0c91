import FactorPlan.Formula.Token

/-!
The tree of a formula, and the names that occur in it. Functions written in place
and comprehensions are scopes of their own: `names` lists the names of the
outermost scope.

Correspondence:
  the nodes of an expression that is compiled ↔ `Tree`
  `code.co_names`                             ↔ `names`
-/

namespace FactorPlan

namespace Formula

inductive UnaryOp where
  | plus | minus | invert
  deriving DecidableEq, Repr

inductive BinaryOp where
  | add | sub | mul | div | floorDiv | mod | pow | matMul | bitAnd | bitOr | bitXor | shiftLeft | shiftRight
  deriving DecidableEq, Repr

inductive CompareOp where
  | lt | le | gt | ge | eq | ne | isIn | notIn | same | notSame
  deriving DecidableEq, Repr

/-- What a comprehension makes. -/
inductive Collection where
  | list | set | dict | generator
  deriving DecidableEq, Repr

/-- The parameters of a function written in place: those by place, the first of
which are not by name; the one that takes further arguments; those by name only;
and the one that takes further arguments by name. -/
structure Parameters where
  positional : List String := []
  unnamed : Nat := 0
  further : Option String := none
  named : List String := []
  furtherNamed : Option String := none
  deriving DecidableEq, Repr

namespace Parameters

/-- All parameters. -/
def all (ps : Parameters) : List String :=
  ps.positional ++ ps.further.toList ++ ps.named ++ ps.furtherNamed.toList

/-- Parameters by place or by name, and no others. -/
def plain (ns : List String) : Parameters := { positional := ns }

end Parameters

/-- The tree of a formula. The keyword arguments of a call are a list of words
beside the list of their values, where an argument that holds further ones has no
word; the operators of a comparison stand beside its operands after the first. -/
inductive Tree where
  | name (n : String)
  | int (n : Nat)
  | float (x : Double)
  | imaginary (x : Double)
  | text (s : String)
  | bytes (bs : List Nat)
  | truth (b : Bool)
  | none
  | ellipsis
  /-- Text with fields: its parts in order. -/
  | format (parts : List Tree)
  /-- A field: its value, how that is written, and its format. -/
  | field (e : Tree) (conversion : Option Char) (spec : List Tree)
  | attribute (e : Tree) (n : String)
  | call (f : Tree) (args : List Tree) (words : List (Option String)) (values : List Tree)
  | index (e i : Tree)
  /-- A range of positions; a bound that is not given is `none`. -/
  | slice (first last step : Tree)
  /-- The items of a value in place of one item. -/
  | starred (e : Tree)
  | unary (op : UnaryOp) (e : Tree)
  | binary (op : BinaryOp) (a b : Tree)
  | compare (first : Tree) (ops : List CompareOp) (rest : List Tree)
  | logic (conjunction : Bool) (es : List Tree)
  | not (e : Tree)
  | choice (test body other : Tree)
  | tuple (es : List Tree)
  | list (es : List Tree)
  | set (es : List Tree)
  /-- A dictionary of entries and of others whose entries it takes. -/
  | dict (es : List Tree)
  | entry (key value : Tree)
  | spread (e : Tree)
  | assign (n : String) (e : Tree)
  /-- A function written in place. The values of parameters that are not given,
  those by place first, belong to the scope that it is written in. -/
  | lambda (params : Parameters) (defaults : List Tree) (body : Tree)
  /-- A comprehension: its element, the target and the source of its first clause,
  and the conditions and clauses after that. -/
  | comprehension (kind : Collection) (element : Tree) (async : Bool) (target source : Tree) (inner : List Tree)
  /-- A further clause of a comprehension. -/
  | clause (async : Bool) (target source : Tree)
  | await (e : Tree)
  | yield (e : Tree)
  | yieldFrom (e : Tree)
  deriving Repr, Inhabited

namespace Tree

mutual
/-- The names of the outermost scope, variables and attributes, in the order of
evaluation, repetitions included. -/
def outerNames : Tree → List String
  | .name n => [n]
  | .format parts => outerNamesList parts
  | .field e _ spec => outerNames e ++ outerNamesList spec
  | .attribute e n => outerNames e ++ [n]
  | .call f args _ values => outerNames f ++ outerNamesList args ++ outerNamesList values
  | .index e i => outerNames e ++ outerNames i
  | .slice first last step => outerNames first ++ outerNames last ++ outerNames step
  | .starred e => outerNames e
  | .unary _ e => outerNames e
  | .binary _ a b => outerNames a ++ outerNames b
  | .compare a _ rest => outerNames a ++ outerNamesList rest
  | .logic _ es => outerNamesList es
  | .not e => outerNames e
  | .choice test body other => outerNames test ++ outerNames body ++ outerNames other
  | .tuple es => outerNamesList es
  | .list es => outerNamesList es
  | .set es => outerNamesList es
  | .dict es => outerNamesList es
  | .entry k v => outerNames k ++ outerNames v
  | .spread e => outerNames e
  | .assign n e => outerNames e ++ [n]
  | .lambda _ defaults _ => outerNamesList defaults
  | .comprehension _ _ _ _ source _ => outerNames source
  | .clause _ target source => outerNames target ++ outerNames source
  | .await e => outerNames e
  | .yield e => outerNames e
  | .yieldFrom e => outerNames e
  | _ => []

def outerNamesList : List Tree → List String
  | [] => []
  | e :: es => outerNames e ++ outerNamesList es
end

/-- The names of the outermost scope in the order of their first use. -/
def names (t : Tree) : List String := t.outerNames.eraseDups

end Tree

end Formula

end FactorPlan
