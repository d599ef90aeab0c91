import FactorPlan.Formula.Parser
import FactorPlan.Formula.Value
import FactorPlan.Text.Names

/-!
Evaluation of formulas. Operators compute with plain values as long as no
expression is involved and build expressions otherwise. `evaluate` refuses the
names that would reach outside a formula before anything is computed. Not all that
can be read has a value here: evaluation ends at sets, dictionaries, bytes, text
with fields, ranges of positions and names that are given values.

Correspondence:
  `safe_eval`                        ↔ `evaluate`
  `compile(string)`                  ↔ `read` of `evaluateBy`
  `banned`, and the pattern `__..__` ↔ `bannedNames`, `isHidden`
  the loop over `co_names`           ↔ `checkNames`
  `eval(code, dict)`                 ↔ `eval`
  `dict`                             ↔ `Scope`
  `sympify` of an argument           ↔ `argumentExpr`, `strictExpr`
-/

namespace FactorPlan

namespace Formula

/-! ## Whole numbers -/

/-- The complement of a whole number in two's complement. -/
def complement (n : Int) : Int := -n - 1

/-- Bitwise conjunction in two's complement. -/
def bitAnd (a b : Int) : Int :=
  if 0 ≤ a then
    if 0 ≤ b then ((a.toNat &&& b.toNat : Nat) : Int)
    else a - ((a.toNat &&& (complement b).toNat : Nat) : Int)
  else
    if 0 ≤ b then b - ((b.toNat &&& (complement a).toNat : Nat) : Int)
    else complement (((complement a).toNat ||| (complement b).toNat : Nat) : Int)

def bitOr (a b : Int) : Int := complement (bitAnd (complement a) (complement b))

def bitXor (a b : Int) : Int := bitAnd (bitOr a b) (complement (bitAnd a b))

/-- The quotient of whole numbers as a double. -/
def divideInts (a b : Int) : Except EvalError Value :=
  if b = 0 then .error .zeroDivision
  else match Double.ofRat ((a : Rat) / (b : Rat)) with
    | .inf _ => .error .overflow
    | x => .ok (.float (if a = 0 ∧ b < 0 then .negZero else x))

/-! ## Doubles -/

/-- The largest whole double below a quotient. -/
def floorDivide (x y : Double) : Double :=
  match x.toRat?, y.toRat? with
  | some a, some b => .ofRat ((a / b).floor : Rat)
  | _, _ => .nan

/-- The remainder with the sign of the divisor. -/
def remainder (x y : Double) : Double :=
  match x.toRat?, y.toRat? with
  | some a, some b => .ofRat (a - b * ((a / b).floor : Rat))
  | some _, none => match y with
    | .inf n => if x.isZero || x.isNegative = n then x else y
    | _ => .nan
  | _, _ => .nan

/-- The power of doubles. -/
def powDouble (x y : Double) : Except EvalError Value :=
  match x.toRat?, y.toRat? with
  | some a, some b =>
    if b = 0 then .ok (.float (.ofRat 1))
    else if a = 0 then
      if b < 0 then .error .zeroDivision else .ok (.float .zero)
    else
      let whole := b.den = 1
      if a < 0 ∧ ¬ whole then .error .wrongType
      else
        let size := ((leadingBit a : Int) : Rat) * b
        if size > 2000 then .error .overflow
        else if size < -2000 then .ok (.float .zero)
        else
          let p := if a < 0 then
              (if b.num % 2 = 0 then (1 : Rat) else -1) * Binary.powApprox (-a) b
            else Binary.powApprox a b
          match Double.ofRat p with
          | .inf _ => .error .overflow
          | z => .ok (.float z)
  | _, some b => .ok (.float (if b = 0 then .ofRat 1 else if b < 0 then .zero else x.abs))
  | _, _ => .ok (.float y)

/-! ## Operators -/

/-- Binary operators on whole numbers; none where a double takes over. -/
def intBinary (op : BinaryOp) (a b : Int) : Except EvalError (Option Value) :=
  match op with
  | .add => .ok (some (.int (a + b)))
  | .sub => .ok (some (.int (a - b)))
  | .mul => .ok (some (.int (a * b)))
  | .div => (divideInts a b).map some
  | .floorDiv => if b = 0 then .error .zeroDivision else .ok (some (.int (Int.fdiv a b)))
  | .mod => if b = 0 then .error .zeroDivision else .ok (some (.int (Int.fmod a b)))
  | .pow =>
    if 0 ≤ b then .ok (some (.int (a.pow b.toNat)))
    else if a = 0 then .error .zeroDivision
    else .ok none
  | .bitAnd => .ok (some (.int (bitAnd a b)))
  | .bitOr => .ok (some (.int (bitOr a b)))
  | .bitXor => .ok (some (.int (bitXor a b)))
  | .shiftLeft => if b < 0 then .error .badValue else .ok (some (.int (a * Int.pow 2 b.toNat)))
  | .shiftRight => if b < 0 then .error .badValue else .ok (some (.int (Int.fdiv a (Int.pow 2 b.toNat))))
  | .matMul => .error .wrongType

/-- Binary operators on doubles. -/
def doubleBinary (op : BinaryOp) (x y : Double) : Except EvalError Value :=
  match op with
  | .add => .ok (.float (x.add y))
  | .sub => .ok (.float (x.sub y))
  | .mul => .ok (.float (x.mul y))
  | .div => if y.isZero then .error .zeroDivision else .ok (.float (x.div y))
  | .floorDiv => if y.isZero then .error .zeroDivision else .ok (.float (floorDivide x y))
  | .mod => if y.isZero then .error .zeroDivision else .ok (.float (remainder x y))
  | .pow => powDouble x y
  | _ => .error .wrongType

/-- Binary operators on expressions that are numbers. -/
def exprBinary (op : BinaryOp) (a b : Expr) : Except EvalError Value :=
  match op with
  | .add => .ok (.expr (a.add b))
  | .sub => .ok (.expr (a.sub b))
  | .mul => .ok (.expr (a.mul b))
  | .div => .ok (.expr (a.div b))
  | .floorDiv => .ok (.expr (Expr.floorOf (a.div b)))
  | .mod => if b.facts.zero then .error .zeroDivision else .ok (.expr (Expr.modOf a b))
  | .pow => .ok (.expr (a.pow b))
  | _ => .error .wrongType

/-- Binary operators on expressions that are true or false. -/
def logicalBinary (op : BinaryOp) (a b : Expr) : Except EvalError Value :=
  match op with
  | .bitAnd => .ok (.expr (Expr.andOf [a, b]))
  | .bitOr => .ok (.expr (Expr.orOf [a, b]))
  | .bitXor => .ok (.expr (Expr.xorOf [a, b]))
  | _ => .error .wrongType

/-- Text repeated. -/
def repeated (s : String) (n : Int) : String := String.join (List.replicate n.toNat s)

def applyBinary (op : BinaryOp) (a b : Value) : Except EvalError Value :=
  if a.isExpr || b.isExpr then
    match op with
    | .bitAnd | .bitOr | .bitXor =>
      match a.toLogical?, b.toLogical? with
      | some x, some y => logicalBinary op x y
      | _, _ => .error .wrongType
    | op =>
      match a.toNumeric?, b.toNumeric? with
      | some x, some y => exprBinary op x y
      | _, _ => .error .wrongType
  else
    match op, a, b with
    | .add, .text s, .text t => .ok (.text (s ++ t))
    | .add, .tuple s, .tuple t => .ok (.tuple (s ++ t))
    | .add, .list s, .list t => .ok (.list (s ++ t))
    | .bitAnd, .truth x, .truth y => .ok (.truth (x && y))
    | .bitOr, .truth x, .truth y => .ok (.truth (x || y))
    | .bitXor, .truth x, .truth y => .ok (.truth (x != y))
    | op, a, b =>
      match op, a, b.toInt?, a.toInt?, b with
      | .mul, .text s, some n, _, _ => .ok (.text (repeated s n))
      | .mul, _, _, some n, .text s => .ok (.text (repeated s n))
      | op, _, bi, ai, _ =>
        match ai, bi with
        | some m, some n =>
          match intBinary op m n with
          | .error e => .error e
          | .ok (some v) => .ok v
          | .ok none =>
            match Value.doubleOfInt m, Value.doubleOfInt n with
            | some x, some y => doubleBinary op x y
            | _, _ => .error .overflow
        | _, _ =>
          match a.toDouble?, b.toDouble? with
          | some (some x), some (some y) => doubleBinary op x y
          | some none, _ => .error .overflow
          | _, some none => .error .overflow
          | _, _ => .error .wrongType

def applyUnary (op : UnaryOp) (v : Value) : Except EvalError Value :=
  match op, v with
  | .minus, .float x => .ok (.float x.neg)
  | .plus, .float x => .ok (.float x)
  | .minus, .expr e => if e.isLogical then .error .wrongType else .ok (.expr e.neg)
  | .plus, .expr e => if e.isLogical then .error .wrongType else .ok (.expr e)
  | .invert, .expr e =>
    if e.isLogical || e.isSymbol then .ok (.expr (Expr.notOf e)) else .error .wrongType
  | op, v =>
    match v.toInt? with
    | some n => .ok (.int (match op with | .minus => -n | .plus => n | .invert => complement n))
    | none => .error .wrongType

/-- The relation that a comparison of expressions builds. -/
def relOf : CompareOp → Option Rel
  | .lt => some .lt
  | .le => some .le
  | .gt => some .gt
  | .ge => some .ge
  | _ => none

/-- Whether an order satisfies a comparison. -/
def ordered (op : CompareOp) (o : Ordering) : Bool :=
  match op with
  | .lt => o == .lt
  | .le => o != .gt
  | .gt => o == .gt
  | .ge => o != .lt
  | _ => false

/-- The order of values that are no expressions. -/
def plainOrder? (a b : Value) : Except EvalError (Option Ordering) :=
  match a, b with
  | .text s, .text t => .ok (some (compare s t))
  | a, b =>
    match a.toInt?, b.toInt? with
    | some m, some n => .ok (some (compare m n))
    | _, _ =>
      match a.toDouble?, b.toDouble? with
      | some (some x), some (some y) => .ok (x.order? y)
      | some _, some _ => .ok none
      | _, _ => .error .wrongType

def applyCompare (op : CompareOp) (a b : Value) : Except EvalError Value :=
  match op with
  | .eq => .ok (.truth (a.equals b))
  | .ne => .ok (.truth !(a.equals b))
  | .same => .ok (.truth (a.equals b))
  | .notSame => .ok (.truth !(a.equals b))
  | .isIn => (member a b).map .truth
  | .notIn => (member a b).map (fun m => .truth !m)
  | op =>
    if a.isExpr || b.isExpr then
      match relOf op, a.toNumeric?, b.toNumeric? with
      | some r, some x, some y =>
        let result := if a.isExpr then Expr.relation r x y else Expr.relation r.flip y x
        match result with
        | .ok e => .ok (.expr e)
        | .error e => .error (.ofBuild e)
      | _, _, _ => .error .wrongType
    else
      (plainOrder? a b).map (fun o => .truth ((o.map (ordered op)).getD false))
where
  /-- Whether a value is among those of a tuple or list. -/
  member (a b : Value) : Except EvalError Bool :=
    match b with
    | .tuple vs => .ok (vs.any (fun v => v.equals a))
    | .list vs => .ok (vs.any (fun v => v.equals a))
    | _ => .error .wrongType

/-! ## Calls -/

/-- The expression that a text stands for: a name or a number. -/
def textExpr (s : String) : Except EvalError Expr :=
  match parse s with
  | .ok (.name n) => .ok (.symbol n)
  | .ok (.int n) => .ok (.ofInt n)
  | .ok (.float x) => .ok (.scalar (Value.scalarOf x))
  | _ => .error .badText

/-- The argument of a function as an expression; texts are read. -/
def argumentExpr : Value → Except EvalError Expr
  | .text s => textExpr s
  | .none => .error .missingAttribute
  | v => match v.toExpr? with
    | some e => .ok e
    | none => .error .wrongType

/-- The argument of an arithmetic operation as an expression; texts are refused. -/
def strictExpr : Value → Except EvalError Expr
  | .text _ => .error .badText
  | .none => .error .badText
  | v => match v.toExpr? with
    | some e => .ok e
    | none => .error .badText

def mapArguments (f : Value → Except EvalError Expr) : List Value → Except EvalError (List Expr)
  | [] => .ok []
  | v :: vs => do
    let e ← f v
    let es ← mapArguments f vs
    return e :: es

/-- The `evaluate` option of a call; any other option is refused with the given
error. -/
def evaluateOption (err : EvalError) : List (String × Value) → Except EvalError Bool
  | [] => .ok true
  | (w, v) :: rest =>
    if w = "evaluate" then do
      let b ← v.truthy
      let _ ← evaluateOption err rest
      return b
    else .error err

/-- The names in a text, and whether the text asks for a sequence of them. -/
def symbolNames (s : String) : Except EvalError (List String × Bool) :=
  match Text.names? s.toList with
  | some (ns, sequence) => .ok (ns.map String.ofList, sequence)
  | none => .error .badValue

/-- The symbol or symbols that a text names. -/
def symbolsOf (s : String) : Except EvalError Value := do
  match ← symbolNames s with
  | ([n], false) => return .expr (.symbol n)
  | (ns, _) => return .tuple (ns.map (fun n => .expr (.symbol n)))

/-- The value of a built-in function. -/
def callBuiltin (b : Builtin) (args : List Value) (options : List (String × Value)) :
    Except EvalError Value := do
  match b with
  | .sum =>
    let evaluate ← evaluateOption .wrongType options
    let es ← mapArguments strictExpr args
    if es.any Expr.isLogical then throw .wrongType
    return .expr (if evaluate then .sumOf es else .rawSum es)
  | .product =>
    let evaluate ← evaluateOption .wrongType options
    let es ← mapArguments strictExpr args
    if es.any Expr.isLogical then throw .wrongType
    return .expr (if evaluate then .productOf es else .rawProduct es)
  | .power =>
    match args with
    | [a, c] =>
      let evaluate ← evaluateOption .wrongType options
      let x ← strictExpr a
      let y ← strictExpr c
      if x.isLogical || y.isLogical then throw .wrongType
      return .expr (if evaluate then x.pow y else .power x y)
    | _ => throw .wrongType
  | .equal =>
    match args with
    | [a, c] =>
      let evaluate ← evaluateOption .wrongType options
      let x ← strictExpr a
      let y ← strictExpr c
      if evaluate then
        match Expr.relation .eq x y with
        | .ok e => return .expr e
        | .error e => throw (.ofBuild e)
      else return .expr (.apply (.rel .eq) [x, y])
    | _ => throw .wrongType
  | .absolute =>
    match args with
    | [a] =>
      let evaluate ← evaluateOption .badValue options
      let x ← argumentExpr a
      if !evaluate then return .expr (.apply .abs [x])
      if x.isLogical then throw .wrongType
      return .expr x.absOf
    | _ => throw .wrongType
  | .logarithm =>
    let evaluate ← evaluateOption .badValue options
    match args with
    | [a] =>
      let x ← argumentExpr a
      if !evaluate then return .expr (.apply .log [x])
      if x.isLogical then throw .missingAttribute
      return .expr x.logOf
    | [a, c] =>
      let x ← argumentExpr a
      let y ← argumentExpr c
      if !evaluate then return .expr (.apply .log [x, y])
      return .expr (Expr.logBase x y)
    | _ => throw .wrongType
  | .largest => extreme .max
  | .smallest => extreme .min
  | .symbol =>
    match args with
    | [.text s] => return .expr (.symbol s)
    | _ => throw .wrongType
  | .symbols =>
    match args with
    | [.text s] => symbolsOf s
    | _ => throw .wrongType
  | .functionNamed =>
    match args with
    | [.text s] => return .function s
    | _ => throw .wrongType
  | .abs =>
    match args with
    | [.float x] => return .float x.abs
    | [.expr e] => if e.isLogical then throw .wrongType else return .expr e.absOf
    | [v] => match v.toInt? with
      | some n => return .int n.natAbs
      | none => throw .wrongType
    | _ => throw .wrongType
  | .max => best .gt
  | .min => best .lt
  | .text =>
    match args with
    | [] => return .text ""
    | [v] => return .text v.plainText
    | _ => throw .wrongType
  | .other _ => throw .wrongType
where
  /-- Largest and smallest of expressions. -/
  extreme (f : Func) : Except EvalError Value := do
    let evaluate ← evaluateOption .wrongType options
    let es ← mapArguments argumentExpr args
    if evaluate then
      match Expr.extremum f es with
      | .ok e => return .expr e
      | .error e => throw (.ofBuild e)
    else
      match es.eraseDups with
      | [] => return .expr (.scalar (.inf (f == .max)))
      | [e] => return .expr e
      | es => return .expr (.apply f (Expr.sortBySize es))
  /-- Largest and smallest of plain values, by comparing each with the best so far. -/
  best (op : CompareOp) : Except EvalError Value := do
    let vs ← match args with
      | [.tuple vs] => pure vs
      | [.list vs] => pure vs
      | [_] => throw .wrongType
      | vs => pure vs
    match vs with
    | [] => throw (if args.isEmpty then .wrongType else .badValue)
    | v :: rest => rest.foldlM (fun m x => do
        let c ← applyCompare op x m
        return if ← c.truthy then x else m) v

/-- The application of a named function. -/
def callFunction (name : String) (args : List Value) (options : List (String × Value)) :
    Except EvalError Value := do
  let es ← mapArguments argumentExpr args
  let _ ← evaluateOption .badValue options
  return .expr (.apply (.named name) es)

/-- The attribute of a value. -/
def attributeOf (v : Value) (n : String) : Except EvalError Value :=
  match n, v with
  | "name", .expr (.symbol s) => .ok (.text s)
  | "name", .expr (.apply (.named s) _) => .ok (.text s)
  | "name", .function s => .ok (.text s)
  | "args", .expr e => .ok (.tuple (e.args.map .expr))
  | _, _ => .error .missingAttribute

/-- The item of a tuple or list at a position; negative positions count from the
end. -/
def itemOf (v i : Value) : Except EvalError Value :=
  match v, i.toInt? with
  | .tuple vs, some n => pick vs n
  | .list vs, some n => pick vs n
  | _, _ => .error .wrongType
where
  pick (vs : List Value) (n : Int) : Except EvalError Value :=
    let k := if n < 0 then n + vs.length else n
    if k < 0 then .error .badIndex
    else match vs[k.toNat]? with
      | some v => .ok v
      | none => .error .badIndex

/-! ## Evaluation -/

/-- The values of arguments by name; those that hold further arguments are not supported. -/
def namedValues : List (Option String) → List Value → Except EvalError (List (String × Value))
  | some w :: words, v :: vs => do return (w, v) :: (← namedValues words vs)
  | none :: _, _ => .error .unsupported
  | _, _ => .ok []

/-- Names with their values, the first entry of a name counting. -/
abbrev Scope := List (String × Value)

mutual
/-- The value of a tree, within `fuel` nested steps. -/
def eval : Nat → Scope → Tree → Except EvalError Value
  | 0, _, _ => .error .endless
  | fuel + 1, scope, t =>
    match t with
    | .name n => match scope.lookup n with
      | some v => .ok v
      | none => .error (.unknownName n)
    | .int n => .ok (.int n)
    | .float x => .ok (.float x)
    | .text s => .ok (.text s)
    | .truth b => .ok (.truth b)
    | .none => .ok .none
    | .attribute e n => do attributeOf (← eval fuel scope e) n
    | .call f args words values => do
      let g ← eval fuel scope f
      let vs ← evalList fuel scope args
      let ws ← evalList fuel scope values
      let options ← namedValues words ws
      match g with
      | .function n => callFunction n vs options
      | .builtin b => callBuiltin b vs options
      | .lambda ps body inner =>
        if vs.length = ps.length ∧ words.isEmpty then eval fuel (ps.zip vs ++ inner) body
        else .error .wrongType
      | _ => .error .wrongType
    | .index e i => do
      let v ← eval fuel scope e
      itemOf v (← eval fuel scope i)
    | .unary op e => do applyUnary op (← eval fuel scope e)
    | .binary op a b => do
      let x ← eval fuel scope a
      applyBinary op x (← eval fuel scope b)
    | .compare a ops rest => do compareChain fuel scope (← eval fuel scope a) ops rest
    | .logic c es => evalLogic fuel scope c es
    | .not e => do return .truth !(← (← eval fuel scope e).truthy)
    | .choice test body other => do
      if ← (← eval fuel scope test).truthy then eval fuel scope body else eval fuel scope other
    | .tuple es => do return .tuple (← evalList fuel scope es)
    | .list es => do return .list (← evalList fuel scope es)
    | .lambda ps [] body =>
      if ps = .plain ps.positional then .ok (.lambda ps.positional body scope) else .error .unsupported
    | .comprehension kind element false (.name n) source inner => do
      let v ← eval fuel scope source
      if kind = .set ∨ kind = .dict then .error .unsupported
      else match v with
        | .tuple vs => return .list (← evalEach fuel scope n element inner vs)
        | .list vs => return .list (← evalEach fuel scope n element inner vs)
        | _ => .error .wrongType
    | _ => .error .unsupported

/-- The values of a list of trees, in order. -/
def evalList : Nat → Scope → List Tree → Except EvalError (List Value)
  | 0, _, _ => .error .endless
  | _, _, [] => .ok []
  | fuel + 1, scope, t :: ts => do
    let v ← eval fuel scope t
    return v :: (← evalList fuel scope ts)

/-- A chain of comparisons, up to the first that fails. -/
def compareChain : Nat → Scope → Value → List CompareOp → List Tree → Except EvalError Value
  | 0, _, _, _, _ => .error .endless
  | fuel + 1, scope, a, op :: ops, t :: ts => do
    let b ← eval fuel scope t
    let r ← applyCompare op a b
    if ts.isEmpty then return r
    if ← r.truthy then compareChain fuel scope b ops ts else return r
  | _, _, a, _, _ => .ok a

/-- The first value that decides a conjunction or disjunction, or the last one. -/
def evalLogic : Nat → Scope → Bool → List Tree → Except EvalError Value
  | 0, _, _, _ => .error .endless
  | _, _, c, [] => .ok (.truth c)
  | fuel + 1, scope, _, [t] => eval fuel scope t
  | fuel + 1, scope, c, t :: ts => do
    let v ← eval fuel scope t
    if (← v.truthy) = c then evalLogic fuel scope c ts else return v

/-- The elements of a comprehension, one for each value that meets the conditions. -/
def evalEach : Nat → Scope → String → Tree → List Tree → List Value → Except EvalError (List Value)
  | 0, _, _, _, _, _ => .error .endless
  | _, _, _, _, _, [] => .ok []
  | fuel + 1, scope, n, element, conditions, v :: vs => do
    let inner := (n, v) :: scope
    let keep ← (← evalLogic fuel inner true conditions).truthy
    let rest ← evalEach fuel scope n element conditions vs
    if keep then return (← eval fuel inner element) :: rest else return rest
end

/-- The names that no formula may use. -/
def bannedNames : List String :=
  ["eval", "compile", "exec", "getattr", "hasattr", "setattr", "delattr", "classmethod", "globals",
   "help", "input", "isinstance", "issubclass", "locals", "open", "print", "property", "staticmethod", "vars"]

/-- Whether a name begins and ends with two underscores. -/
def isHidden (n : String) : Bool :=
  let cs := n.toList
  4 ≤ cs.length && cs.take 2 = ['_', '_'] && cs.drop (cs.length - 2) = ['_', '_']

/-- Why a name is not allowed. -/
def forbidden? (n : String) : Option EvalError :=
  if isHidden n then some (.hiddenName n)
  else if bannedNames.contains n then some (.bannedName n)
  else none

/-- Refuses a tree whose outermost scope uses a forbidden name; the first one in
order counts. -/
def checkNames (t : Tree) : Except EvalError Unit :=
  match t.names.findSome? forbidden? with
  | some e => .error e
  | none => .ok ()

/-- The value of a formula in a scope, where `read` gives the trees of formulas. -/
def evaluateBy (read : String → Except ReadError Tree) (scope : Scope) (s : String) : Except EvalError Value := do
  let t ← match read s with
    | .ok t => .ok t
    | .error .malformed => .error .malformed
    | .error .indented => .error .indented
  checkNames t
  eval (s.length + 1000) scope t

/-- The value of a formula in a scope. -/
def evaluate (scope : Scope) (s : String) : Except EvalError Value := evaluateBy parse scope s

end Formula

end FactorPlan
