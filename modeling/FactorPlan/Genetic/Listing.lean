/-!
Candidates of a genetic search. A candidate is listed node by node, each node before
its arguments, and every node says how many arguments it takes. Its formula is
written in one pass over the list, with the nodes that still wait for arguments on
a stack.

Correspondence:
  `stringify_for_sympy`         ↔ `formula`
  `convert_inverse_prim`        ↔ `Node.write`
  `converter`                   ↔ `binaryForm?`
  the `while` loop over `stack` ↔ `settle`
-/

namespace FactorPlan

namespace Genetic

/-- A node of a listing. -/
structure Node where
  name : String
  arity : Int
  deriving DecidableEq, Repr

/-- Why a listing has no formula. -/
inductive ListingError where
  /-- A node has fewer arguments than its form shows. -/
  | missingArgument
  deriving DecidableEq, Repr

/-- The two-argument forms: the texts before, between and after the arguments. A
difference is a sum with a negated term and a quotient a product with an inverse. -/
def binaryForm? : String → Option (String × String × String)
  | "fadd" | "iadd" => some ("Add(", ",", ")")
  | "fsub" | "isub" => some ("Add(", ", Mul(-1,", "))")
  | "fmul" | "imul" => some ("Mul(", ",", ")")
  | "fdiv" | "idiv" => some ("Mul(", ", Pow(", ", -1))")
  | "fmax" | "imax" => some ("Max(", ",", ")")
  | "fmin" | "imin" => some ("Min(", ",", ")")
  | _ => none

/-- A node's own form: its name, with the arguments in brackets if it takes any. -/
def Node.ownForm (n : Node) (args : List String) : String :=
  if n.arity = 0 then n.name
  else n.name ++ "(" ++ ", ".intercalate args ++ ")"

/-- The text of a node from the texts of its arguments. Arguments beyond those that
a form shows are left out. -/
def Node.write (n : Node) (args : List String) : Except ListingError String :=
  match binaryForm? n.name with
  | some (before, between, after) =>
    match args with
    | a :: b :: _ => .ok (before ++ a ++ between ++ b ++ after)
    | _ => .error .missingArgument
  | none =>
    if n.name = "pass_int" then
      match args with
      | a :: _ => .ok a
      | [] => .error .missingArgument
    else .ok (n.ownForm args)

/-- A node that waits for arguments, with the texts it has so far. -/
structure Frame where
  node : Node
  args : List String
  deriving DecidableEq, Repr

/-- Whether a node has all its arguments. -/
def Frame.isFull (f : Frame) : Bool := (f.args.length : Int) = f.node.arity

/-- Writes the nodes on top of the stack that have all their arguments, each text
going to the node below it. `last` is the text written last. -/
def settle (last : String) : List Frame → Except ListingError (String × List Frame)
  | [] => .ok (last, [])
  | [f] =>
    if f.isFull then (f.node.write f.args).map (·, [])
    else .ok (last, [f])
  | f :: g :: rest =>
    if f.isFull then do
      let text ← f.node.write f.args
      settle text ({ g with args := g.args ++ [text] } :: rest)
    else .ok (last, f :: g :: rest)
  termination_by stack => stack.length

/-- Reads the nodes of a listing on top of a stack. -/
def writeOn (last : String) (stack : List Frame) : List Node → Except ListingError String
  | [] => .ok last
  | n :: ns => do
    let (last, stack) ← settle last (⟨n, []⟩ :: stack)
    writeOn last stack ns

/-- The formula of a listing: the text of the node that was completed last, and
nothing for an empty listing. -/
def formula (nodes : List Node) : Except ListingError String := writeOn "" [] nodes

end Genetic

end FactorPlan
