import FactorPlan.Formula.Tree

/-!
What may stand in which scope. A function written in place may give values on the way, a
comprehension may wait for values, and a name may be given a value where it is not a target of a
comprehension around it. What is out of place makes a text no formula (`Tree.wellScoped`).

Correspondence:
  the checks of the symbol table      ↔ `wellScoped`
  `yield` and `await` out of place    ↔ `placed`
  `:=` to a target of a comprehension ↔ `assignsWell`
-/

namespace FactorPlan

namespace Formula

namespace Tree

/-! ## Giving and waiting -/

/-- What a scope belongs to. -/
inductive Block where
  | outermost | function | generator | collection
  deriving DecidableEq, Repr

/-- Whether a scope belongs to a comprehension. -/
def Block.isComprehension : Block → Bool
  | .generator => true
  | .collection => true
  | _ => false

/-- The scope of a comprehension. -/
def Block.ofKind : Collection → Block
  | .generator => .generator
  | _ => .collection

mutual
/-- Whether the scope of the tree waits for a value. What a generator waits for it waits for later. -/
def waits : Tree → Bool
  | .await _ => true
  | .format parts => waitsList parts
  | .field e _ spec => waits e || waitsList spec
  | .attribute e _ => waits e
  | .call f args _ values => waits f || waitsList args || waitsList values
  | .index e i => waits e || waits i
  | .slice first last step => waits first || waits last || waits step
  | .starred e => waits e
  | .unary _ e => waits e
  | .binary _ a b => waits a || waits b
  | .compare a _ rest => waits a || waitsList rest
  | .logic _ es => waitsList es
  | .not e => waits e
  | .choice test body other => waits test || waits body || waits other
  | .tuple es => waitsList es
  | .list es => waitsList es
  | .set es => waitsList es
  | .dict es => waitsList es
  | .entry k v => waits k || waits v
  | .spread e => waits e
  | .assign _ e => waits e
  | .lambda _ defaults _ => waitsList defaults
  | .comprehension kind element async target source inner =>
    waits source || (kind != .generator && (async || waits target || waits element || waitsList inner))
  | .clause async target source => async || waits target || waits source
  | .yield e => waits e
  | .yieldFrom e => waits e
  | _ => false

def waitsList : List Tree → Bool
  | [] => false
  | e :: es => waits e || waitsList es
end

mutual
/-- Whether values are given in functions only and waited for in comprehensions only. A comprehension
that waits while it collects must stand in another. -/
def placed : Block → Tree → Bool
  | block, .format parts => placedList block parts
  | block, .field e _ spec => placed block e && placedList block spec
  | block, .attribute e _ => placed block e
  | block, .call f args _ values => placed block f && placedList block args && placedList block values
  | block, .index e i => placed block e && placed block i
  | block, .slice first last step => placed block first && placed block last && placed block step
  | block, .starred e => placed block e
  | block, .unary _ e => placed block e
  | block, .binary _ a b => placed block a && placed block b
  | block, .compare a _ rest => placed block a && placedList block rest
  | block, .logic _ es => placedList block es
  | block, .not e => placed block e
  | block, .choice test body other => placed block test && placed block body && placed block other
  | block, .tuple es => placedList block es
  | block, .list es => placedList block es
  | block, .set es => placedList block es
  | block, .dict es => placedList block es
  | block, .entry k v => placed block k && placed block v
  | block, .spread e => placed block e
  | block, .assign _ e => placed block e
  | block, .lambda _ defaults body => placedList block defaults && placed .function body
  | block, .comprehension kind element async target source inner =>
    placed block source && placed (.ofKind kind) target && placed (.ofKind kind) element &&
      placedList (.ofKind kind) inner && (kind == .generator || block.isComprehension ||
        !(async || waits target || waits element || waitsList inner))
  | block, .clause _ target source => placed block target && placed block source
  | block, .await e => block.isComprehension && placed block e
  | block, .yield e => block == .function && placed block e
  | block, .yieldFrom e => block == .function && placed block e
  | _, _ => true

def placedList : Block → List Tree → Bool
  | _, [] => true
  | block, e :: es => placed block e && placedList block es
end

/-! ## Giving names values -/

mutual
/-- The names that the scope of the tree reads or gives a value, and whether it is given one. -/
def scopeNames : Tree → List (String × Bool)
  | .name n => [(n, false)]
  | .format parts => scopeNamesList parts
  | .field e _ spec => scopeNames e ++ scopeNamesList spec
  | .attribute e _ => scopeNames e
  | .call f args _ values => scopeNames f ++ scopeNamesList args ++ scopeNamesList values
  | .index e i => scopeNames e ++ scopeNames i
  | .slice first last step => scopeNames first ++ scopeNames last ++ scopeNames step
  | .starred e => scopeNames e
  | .unary _ e => scopeNames e
  | .binary _ a b => scopeNames a ++ scopeNames b
  | .compare a _ rest => scopeNames a ++ scopeNamesList rest
  | .logic _ es => scopeNamesList es
  | .not e => scopeNames e
  | .choice test body other => scopeNames test ++ scopeNames body ++ scopeNames other
  | .tuple es => scopeNamesList es
  | .list es => scopeNamesList es
  | .set es => scopeNamesList es
  | .dict es => scopeNamesList es
  | .entry k v => scopeNames k ++ scopeNames v
  | .spread e => scopeNames e
  | .assign n e => (n, true) :: scopeNames e
  | .lambda _ defaults _ => scopeNamesList defaults
  | .comprehension _ _ _ _ source _ => scopeNames source
  | .clause _ target source => scopeNames target ++ scopeNames source
  | .await e => scopeNames e
  | .yield e => scopeNames e
  | .yieldFrom e => scopeNames e
  | _ => []

def scopeNamesList : List Tree → List (String × Bool)
  | [] => []
  | e :: es => scopeNames e ++ scopeNamesList es
end

/-- The names in a target. -/
def targetNames (t : Tree) : List String := t.scopeNames.map (·.1)

/-- The names that the scope of the tree gives values. -/
def assignedNames (t : Tree) : List String := (t.scopeNames.filter (·.2)).map (·.1)

/-- The names in the targets of further clauses. -/
def innerTargets : List Tree → List String
  | [] => []
  | .clause _ target _ :: rest => targetNames target ++ innerTargets rest
  | _ :: rest => innerTargets rest

mutual
/-- Whether names are given values where they may be: not in a source of a comprehension, and not the
targets `ns` of the comprehensions around. -/
def assignsWell (inSource : Bool) (ns : List String) : Tree → Bool
  | .format parts => assignsWellList inSource ns parts
  | .field e _ spec => assignsWell inSource ns e && assignsWellList inSource ns spec
  | .attribute e _ => assignsWell inSource ns e
  | .call f args _ values =>
    assignsWell inSource ns f && assignsWellList inSource ns args && assignsWellList inSource ns values
  | .index e i => assignsWell inSource ns e && assignsWell inSource ns i
  | .slice first last step =>
    assignsWell inSource ns first && assignsWell inSource ns last && assignsWell inSource ns step
  | .starred e => assignsWell inSource ns e
  | .unary _ e => assignsWell inSource ns e
  | .binary _ a b => assignsWell inSource ns a && assignsWell inSource ns b
  | .compare a _ rest => assignsWell inSource ns a && assignsWellList inSource ns rest
  | .logic _ es => assignsWellList inSource ns es
  | .not e => assignsWell inSource ns e
  | .choice test body other =>
    assignsWell inSource ns test && assignsWell inSource ns body && assignsWell inSource ns other
  | .tuple es => assignsWellList inSource ns es
  | .list es => assignsWellList inSource ns es
  | .set es => assignsWellList inSource ns es
  | .dict es => assignsWellList inSource ns es
  | .entry k v => assignsWell inSource ns k && assignsWell inSource ns v
  | .spread e => assignsWell inSource ns e
  | .assign n e => !inSource && !ns.contains n && assignsWell inSource ns e
  | .lambda _ defaults body => assignsWellList inSource ns defaults && assignsWell inSource [] body
  | .comprehension _ element _ target source inner =>
    assignsWell true ns source && target.assignedNames.isEmpty &&
      assignsWell inSource (target.targetNames ++ ns) target &&
      innerAssignsWell inSource (target.targetNames ++ ns) [] inner &&
      assignsWell inSource (innerTargets inner ++ target.targetNames ++ ns) element
  | .clause _ target source => assignsWell inSource ns target && assignsWell inSource ns source
  | .await e => assignsWell inSource ns e
  | .yield e => assignsWell inSource ns e
  | .yieldFrom e => assignsWell inSource ns e
  | _ => true

def assignsWellList (inSource : Bool) (ns : List String) : List Tree → Bool
  | [] => true
  | e :: es => assignsWell inSource ns e && assignsWellList inSource ns es

/-- The same for the conditions and clauses of a comprehension, in order: the target of a clause is no
name that a condition before it gives a value. -/
def innerAssignsWell (inSource : Bool) (ns assigned : List String) : List Tree → Bool
  | [] => true
  | .clause _ target source :: rest =>
    target.assignedNames.isEmpty && target.targetNames.all (!assigned.contains ·) &&
      assignsWell inSource (target.targetNames ++ ns) target && assignsWell true (target.targetNames ++ ns) source &&
      innerAssignsWell inSource (target.targetNames ++ ns) assigned rest
  | e :: rest => assignsWell inSource ns e && innerAssignsWell inSource ns (e.assignedNames ++ assigned) rest
end

/-- Whether nothing is out of place. -/
def wellScoped (t : Tree) : Bool := placed .outermost t && assignsWell false [] t

/-! ## Targets -/

mutual
/-- Whether values can be given to what the tree stands for. -/
def isTarget : Tree → Bool
  | .name _ => true
  | .attribute _ n => n != "__debug__"
  | .index _ _ => true
  | .tuple es => areTargets false es
  | .list es => areTargets false es
  | _ => false

/-- Whether values can be given to all, one of which may take those that are left. -/
def areTargets (starred : Bool) : List Tree → Bool
  | [] => true
  | .starred e :: es => !starred && isTarget e && areTargets true es
  | e :: es => isTarget e && areTargets starred es
end

end Tree

end Formula

end FactorPlan
