import FactorPlan.Formula.Eval
import FactorPlan.Proofs.Parsing

/-!
Names that formulas may not use. Functions written in place and comprehensions are scopes of
their own, and the check looks at the outermost scope only: a formula is refused exactly where a
forbidden name stands there (`refused_iff_occursOutside`). It is refused before anything is
evaluated, so whatever the names mean, and evaluation by itself refuses nothing (`unrefused_eval`).

The value of a tree of one scope depends on the names in it only (`eval_congr`), so what is left
of such formulas after the check cannot tell what forbidden names mean. In a function written in
place every name can be read, the forbidden ones as well (`evaluate_readInPlace`).
-/

namespace FactorPlan

namespace Formula

/-! ## Forbidden names -/

/-- A name between double underscores, or one of the banned names. -/
def Forbidden (n : String) : Prop :=
  (∃ cs, n.toList = '_' :: '_' :: (cs ++ ['_', '_'])) ∨ n ∈ bannedNames

theorem isHidden_iff {n : String} : isHidden n = true ↔ ∃ cs, n.toList = '_' :: '_' :: (cs ++ ['_', '_']) := by
  unfold isHidden
  simp only [Bool.and_eq_true, decide_eq_true_eq]
  constructor
  · rintro ⟨⟨hlength, hfirst⟩, hlast⟩
    refine ⟨(n.toList.drop 2).take (n.toList.length - 4), ?_⟩
    have hrest : n.toList.drop 2 = (n.toList.drop 2).take (n.toList.length - 4) ++ ['_', '_'] := by
      rw [← hlast]
      have hdrop : n.toList.drop (n.toList.length - 2) = (n.toList.drop 2).drop (n.toList.length - 4) := by
        rw [List.drop_drop]
        congr 1
        omega
      rw [hdrop, List.take_append_drop]
    calc n.toList = n.toList.take 2 ++ n.toList.drop 2 := (List.take_append_drop 2 _).symm
      _ = '_' :: '_' :: ((n.toList.drop 2).take (n.toList.length - 4) ++ ['_', '_']) := by
        rw [hfirst, ← hrest]
        rfl
  · rintro ⟨cs, hcs⟩
    rw [hcs]
    refine ⟨⟨by simp, rfl⟩, ?_⟩
    have hlength : ('_' :: '_' :: (cs ++ ['_', '_'])).length - 2 = ('_' :: '_' :: cs).length := by simp
    rw [hlength]
    show (('_' :: '_' :: cs) ++ ['_', '_']).drop ('_' :: '_' :: cs).length = ['_', '_']
    exact List.drop_left

/-- A run stopped because of a name that it may not use. -/
def RefusedFor {α : Type} (n : String) (r : Except EvalError α) : Prop :=
  r = .error (.hiddenName n) ∨ r = .error (.bannedName n)

theorem forbidden?_eq_none {n : String} : forbidden? n = none ↔ ¬ Forbidden n := by
  unfold forbidden? Forbidden
  rw [← isHidden_iff]
  split
  · simp [*]
  · split <;> simp_all

/-! ## Scopes -/

namespace Tree

/-- The name that a node itself reads, asks a value for or gives a value. -/
def ownNames : Tree → List String
  | .name n => [n]
  | .attribute _ n => [n]
  | .assign n _ => [n]
  | _ => []

/-- The parameters of a function written in place, which are names of its own scope. -/
def boundNames : Tree → List String
  | .lambda ps _ _ => ps.all
  | _ => []

/-- The subtrees in the scope of the node. -/
def parts : Tree → List Tree
  | .format parts => parts
  | .field e _ spec => e :: spec
  | .attribute e _ => [e]
  | .call f args _ values => f :: (args ++ values)
  | .index e i => [e, i]
  | .slice first last step => [first, last, step]
  | .starred e => [e]
  | .unary _ e => [e]
  | .binary _ a b => [a, b]
  | .compare a _ rest => a :: rest
  | .logic _ es => es
  | .not e => [e]
  | .choice test body other => [test, body, other]
  | .tuple es => es
  | .list es => es
  | .set es => es
  | .dict es => es
  | .entry k v => [k, v]
  | .spread e => [e]
  | .assign _ e => [e]
  | .lambda _ defaults _ => defaults
  | .comprehension _ _ _ _ source _ => [source]
  | .clause _ target source => [target, source]
  | .await e => [e]
  | .yield e => [e]
  | .yieldFrom e => [e]
  | _ => []

/-- The subtrees in a scope of their own: the body of a function written in place, and all of a comprehension
but its first source. -/
def inner : Tree → List Tree
  | .lambda _ _ body => [body]
  | .comprehension _ element _ target _ inner => target :: element :: inner
  | _ => []

mutual
/-- What passes from the subtrees of a node, in its scope and in others, to the node holds of every tree. -/
theorem scope_induction {P : Tree → Prop} (h : ∀ t, (∀ u ∈ t.parts, P u) → (∀ u ∈ t.inner, P u) → P t) :
    (t : Tree) → P t
  | .name _ => h _ (by simp [parts]) (by simp [inner])
  | .int _ => h _ (by simp [parts]) (by simp [inner])
  | .float _ => h _ (by simp [parts]) (by simp [inner])
  | .imaginary _ => h _ (by simp [parts]) (by simp [inner])
  | .text _ => h _ (by simp [parts]) (by simp [inner])
  | .bytes _ => h _ (by simp [parts]) (by simp [inner])
  | .truth _ => h _ (by simp [parts]) (by simp [inner])
  | .none => h _ (by simp [parts]) (by simp [inner])
  | .ellipsis => h _ (by simp [parts]) (by simp [inner])
  | .format parts => h _ (scope_inductionList h parts) (by simp [inner])
  | .field e _ spec => h _
    (List.forall_mem_cons.mpr ⟨scope_induction h e, scope_inductionList h spec⟩) (by simp [inner])
  | .attribute e _ => h _ (by simp [parts, scope_induction h e]) (by simp [inner])
  | .call f args _ values => h _
    (List.forall_mem_cons.mpr ⟨scope_induction h f,
      List.forall_mem_append.mpr ⟨scope_inductionList h args, scope_inductionList h values⟩⟩) (by simp [inner])
  | .index e i => h _ (by simp [parts, scope_induction h e, scope_induction h i]) (by simp [inner])
  | .slice first last step => h _
    (by simp [parts, scope_induction h first, scope_induction h last, scope_induction h step]) (by simp [inner])
  | .starred e => h _ (by simp [parts, scope_induction h e]) (by simp [inner])
  | .unary _ e => h _ (by simp [parts, scope_induction h e]) (by simp [inner])
  | .binary _ a b => h _ (by simp [parts, scope_induction h a, scope_induction h b]) (by simp [inner])
  | .compare a _ rest => h _
    (List.forall_mem_cons.mpr ⟨scope_induction h a, scope_inductionList h rest⟩) (by simp [inner])
  | .logic _ es => h _ (scope_inductionList h es) (by simp [inner])
  | .not e => h _ (by simp [parts, scope_induction h e]) (by simp [inner])
  | .choice test body other => h _
    (by simp [parts, scope_induction h test, scope_induction h body, scope_induction h other]) (by simp [inner])
  | .tuple es => h _ (scope_inductionList h es) (by simp [inner])
  | .list es => h _ (scope_inductionList h es) (by simp [inner])
  | .set es => h _ (scope_inductionList h es) (by simp [inner])
  | .dict es => h _ (scope_inductionList h es) (by simp [inner])
  | .entry k v => h _ (by simp [parts, scope_induction h k, scope_induction h v]) (by simp [inner])
  | .spread e => h _ (by simp [parts, scope_induction h e]) (by simp [inner])
  | .assign _ e => h _ (by simp [parts, scope_induction h e]) (by simp [inner])
  | .lambda _ defaults body => h _ (scope_inductionList h defaults) (by simp [inner, scope_induction h body])
  | .comprehension _ element _ target source inner => h _ (by simp [parts, scope_induction h source])
    (List.forall_mem_cons.mpr ⟨scope_induction h target,
      List.forall_mem_cons.mpr ⟨scope_induction h element, scope_inductionList h inner⟩⟩)
  | .clause _ target source => h _
    (by simp [parts, scope_induction h target, scope_induction h source]) (by simp [inner])
  | .await e => h _ (by simp [parts, scope_induction h e]) (by simp [inner])
  | .yield e => h _ (by simp [parts, scope_induction h e]) (by simp [inner])
  | .yieldFrom e => h _ (by simp [parts, scope_induction h e]) (by simp [inner])

theorem scope_inductionList {P : Tree → Prop} (h : ∀ t, (∀ u ∈ t.parts, P u) → (∀ u ∈ t.inner, P u) → P t) :
    (ts : List Tree) → ∀ t ∈ ts, P t
  | [] => by simp
  | t :: ts => List.forall_mem_cons.mpr ⟨scope_induction h t, scope_inductionList h ts⟩
end

/-- A name occurs in the outermost scope. -/
inductive OccursOutside (n : String) : Tree → Prop
  | own {t : Tree} : n ∈ t.ownNames → OccursOutside n t
  | part {t u : Tree} : u ∈ t.parts → OccursOutside n u → OccursOutside n t

/-- A name occurs in some scope. -/
inductive Occurs (n : String) : Tree → Prop
  | own {t : Tree} : n ∈ t.ownNames → Occurs n t
  | bound {t : Tree} : n ∈ t.boundNames → Occurs n t
  | part {t u : Tree} : u ∈ t.parts → Occurs n u → Occurs n t
  | inner {t u : Tree} : u ∈ t.inner → Occurs n u → Occurs n t

/-- A name occurs in another scope than the outermost. -/
inductive OccursWithin (n : String) : Tree → Prop
  | bound {t : Tree} : n ∈ t.boundNames → OccursWithin n t
  | inner {t u : Tree} : u ∈ t.inner → Occurs n u → OccursWithin n t
  | part {t u : Tree} : u ∈ t.parts → OccursWithin n u → OccursWithin n t

/-- A tree without functions written in place and comprehensions. -/
inductive OneScope : Tree → Prop
  | node {t : Tree} : t.inner = [] → (∀ u ∈ t.parts, OneScope u) → OneScope t

variable {n : String} {t : Tree}

theorem occurs_iff : t.Occurs n ↔ t.OccursOutside n ∨ t.OccursWithin n := by
  constructor
  · intro h
    induction h with
    | own hown => exact Or.inl (.own hown)
    | bound hbound => exact Or.inr (.bound hbound)
    | part hu _ ih => exact ih.imp (.part hu) (.part hu)
    | inner hu h _ => exact Or.inr (.inner hu h)
  · rintro (h | h)
    · induction h with
      | own hown => exact .own hown
      | part hu _ ih => exact .part hu ih
    · induction h with
      | bound hbound => exact .bound hbound
      | inner hu h => exact .inner hu h
      | part hu _ ih => exact .part hu ih

/-- Parameters come with a scope of their own. -/
theorem boundNames_of_inner (h : t.inner = []) : t.boundNames = [] := by
  cases t with
  | lambda ps defaults body => cases h
  | _ => rfl

/-- With one scope there is no other. -/
theorem OneScope.occursOutside (h : t.OneScope) (hn : t.Occurs n) : t.OccursOutside n := by
  induction hn with
  | own hown => exact .own hown
  | bound hbound =>
    cases h with
    | node hinner _ =>
      rw [boundNames_of_inner hinner] at hbound
      cases hbound
  | part hu _ ih =>
    cases h with
    | node _ hparts => exact .part hu (ih (hparts _ hu))
  | inner hu _ _ =>
    cases h with
    | node hinner _ =>
      rw [hinner] at hu
      cases hu

theorem outerNamesList_eq (ts : List Tree) : outerNamesList ts = ts.flatMap outerNames := by
  induction ts with
  | nil => rfl
  | cons t ts ih => rw [outerNamesList, ih, List.flatMap_cons]

/-- The names of the parts of a node, and then its own. -/
theorem outerNames_eq (t : Tree) : t.outerNames = t.parts.flatMap outerNames ++ t.ownNames := by
  cases t <;> simp [outerNames, ownNames, parts, outerNamesList_eq]

theorem mem_outerNames : n ∈ t.outerNames ↔ t.OccursOutside n := by
  have hnode : ∀ u : Tree, n ∈ u.outerNames ↔ (∃ v ∈ u.parts, n ∈ v.outerNames) ∨ n ∈ u.ownNames := by
    intro u
    rw [outerNames_eq, List.mem_append, List.mem_flatMap]
  constructor
  · induction t using scope_induction with
    | h t ih _ =>
      intro hn
      obtain ⟨u, hu, hn⟩ | hown := (hnode t).mp hn
      · exact .part hu (ih u hu hn)
      · exact .own hown
  · intro h
    induction h with
    | own hown => exact (hnode _).mpr (Or.inr hown)
    | part hu _ ih => exact (hnode _).mpr (Or.inl ⟨_, hu, ih⟩)

instance (n : String) (t : Tree) : Decidable (t.OccursOutside n) := decidable_of_iff _ mem_outerNames

end Tree

/-! ## The check -/

theorem forbidden?_cases {n : String} {e : EvalError} (h : forbidden? n = some e) :
    Forbidden n ∧ (e = .hiddenName n ∨ e = .bannedName n) := by
  unfold forbidden? at h
  split at h
  · rename_i hhidden
    exact ⟨Or.inl (isHidden_iff.mp hhidden), Or.inl (Option.some.inj h).symm⟩
  · split at h
    · rename_i hbanned
      exact ⟨Or.inr (List.contains_iff_mem.mp hbanned), Or.inr (Option.some.inj h).symm⟩
    · cases h

/-- The check passes where no name of the outermost scope is forbidden, and otherwise names one that is. -/
theorem checkNames_cases (t : Tree) : (checkNames t = .ok () ∧ ∀ n, t.OccursOutside n → ¬ Forbidden n) ∨
    ∃ n, t.OccursOutside n ∧ Forbidden n ∧ RefusedFor n (checkNames t) := by
  unfold checkNames
  split
  · rename_i e he
    obtain ⟨n, hn, hreason⟩ := List.exists_of_findSome?_eq_some he
    rw [Tree.names, List.mem_eraseDups, Tree.mem_outerNames] at hn
    obtain ⟨hforbidden, rfl | rfl⟩ := forbidden?_cases hreason
    · exact Or.inr ⟨n, hn, hforbidden, Or.inl rfl⟩
    · exact Or.inr ⟨n, hn, hforbidden, Or.inr rfl⟩
  · rename_i he
    refine Or.inl ⟨rfl, fun n hn => ?_⟩
    rw [← Tree.mem_outerNames, ← List.mem_eraseDups] at hn
    exact forbidden?_eq_none.mp (List.findSome?_eq_none_iff.mp he n hn)

/-! ## Evaluation refuses nothing -/

/-- A run that is not stopped because of a name that it may not use. -/
def Unrefused {α : Type} (r : Except EvalError α) : Prop := ∀ n, ¬ RefusedFor n r

namespace Unrefused

variable {α β : Type}

@[simp]
theorem ok (a : α) : Unrefused (.ok a) := by
  intro n h
  rcases h with h | h <;> cases h

@[simp]
theorem pure' (a : α) : Unrefused (pure a : Except EvalError α) := ok a

@[simp]
theorem error_iff {e : EvalError} :
    Unrefused (.error e : Except EvalError α) ↔ ∀ n, e ≠ .hiddenName n ∧ e ≠ .bannedName n := by
  simp [Unrefused, RefusedFor]

@[simp]
theorem throw_iff {e : EvalError} :
    Unrefused (throw e : Except EvalError α) ↔ ∀ n, e ≠ .hiddenName n ∧ e ≠ .bannedName n := error_iff

theorem bind {x : Except EvalError α} {f : α → Except EvalError β} (hx : Unrefused x)
    (hf : ∀ a, Unrefused (f a)) : Unrefused (x >>= f) := by
  cases x with
  | ok a => exact hf a
  | error e => exact error_iff.mpr (error_iff.mp hx)

theorem map {x : Except EvalError α} (f : α → β) (hx : Unrefused x) : Unrefused (x.map f) := by
  cases x with
  | ok a => exact ok (f a)
  | error e => exact error_iff.mpr (error_iff.mp hx)

/-- The error of such a run may be passed on. -/
theorem of_error {x : Except EvalError α} {e : EvalError} (hx : Unrefused x) (h : x = .error e) :
    ∀ n, e ≠ .hiddenName n ∧ e ≠ .bannedName n := error_iff.mp (h ▸ hx)

theorem ite' {c : Prop} [Decidable c] {x y : Except EvalError α} (hx : Unrefused x) (hy : Unrefused y) :
    Unrefused (if c then x else y) := by
  split
  · exact hx
  · exact hy

theorem foldlM {f : β → α → Except EvalError β} (hf : ∀ b a, Unrefused (f b a)) (as : List α) (b : β) :
    Unrefused (as.foldlM f b) := by
  induction as generalizing b with
  | nil => exact ok b
  | cons a as ih => exact (hf b a).bind ih

end Unrefused

@[simp]
theorem unrefused_truthy (v : Value) : Unrefused v.truthy := by
  unfold Value.truthy
  repeat' split
  all_goals simp

@[simp]
theorem unrefused_divideInts (a b : Int) : Unrefused (divideInts a b) := by
  unfold divideInts
  repeat' split
  all_goals simp

@[simp]
theorem unrefused_powDouble (x y : Double) : Unrefused (powDouble x y) := by
  unfold powDouble
  dsimp only
  repeat' split
  all_goals simp

@[simp]
theorem unrefused_intBinary (op : BinaryOp) (a b : Int) : Unrefused (intBinary op a b) := by
  cases op with
  | div => exact (unrefused_divideInts a b).map some
  | _ =>
    unfold intBinary
    dsimp only
    repeat' split
    all_goals simp

@[simp]
theorem unrefused_doubleBinary (op : BinaryOp) (x y : Double) : Unrefused (doubleBinary op x y) := by
  unfold doubleBinary
  repeat' split
  all_goals simp

@[simp]
theorem unrefused_exprBinary (op : BinaryOp) (a b : Expr) : Unrefused (exprBinary op a b) := by
  unfold exprBinary
  repeat' split
  all_goals simp

@[simp]
theorem unrefused_logicalBinary (op : BinaryOp) (a b : Expr) : Unrefused (logicalBinary op a b) := by
  unfold logicalBinary
  split <;> simp

theorem unrefused_applyBinary (op : BinaryOp) (a b : Value) : Unrefused (applyBinary op a b) := by
  unfold applyBinary
  repeat' split
  all_goals simp
  rename_i hints
  exact (unrefused_intBinary _ _ _).of_error hints

theorem unrefused_applyUnary (op : UnaryOp) (v : Value) : Unrefused (applyUnary op v) := by
  unfold applyUnary
  repeat' split
  all_goals simp

theorem unrefused_plainOrder? (a b : Value) : Unrefused (plainOrder? a b) := by
  unfold plainOrder?
  repeat' split
  all_goals simp

theorem unrefused_member (a b : Value) : Unrefused (applyCompare.member a b) := by
  unfold applyCompare.member
  split <;> simp

theorem unrefused_ofBuild {α : Type} (e : BuildError) : Unrefused (.error (.ofBuild e) : Except EvalError α) := by
  cases e <;> simp [EvalError.ofBuild]

theorem unrefused_applyCompare (op : CompareOp) (a b : Value) : Unrefused (applyCompare op a b) := by
  unfold applyCompare
  split
  · exact .ok _
  · exact .ok _
  · exact .ok _
  · exact .ok _
  · exact (unrefused_member a b).map _
  · exact (unrefused_member a b).map _
  · split
    · split
      · dsimp only
        split
        · exact .ok _
        · exact unrefused_ofBuild _
      · simp
    · exact (unrefused_plainOrder? a b).map _

/-! ### Calls -/

theorem unrefused_textExpr (s : String) : Unrefused (textExpr s) := by
  unfold textExpr
  split <;> simp

theorem unrefused_argumentExpr (v : Value) : Unrefused (argumentExpr v) := by
  unfold argumentExpr
  split
  · exact unrefused_textExpr _
  · simp
  · split <;> simp

theorem unrefused_strictExpr (v : Value) : Unrefused (strictExpr v) := by
  unfold strictExpr
  repeat' split
  all_goals simp

theorem unrefused_mapArguments {f : Value → Except EvalError Expr} (hf : ∀ v, Unrefused (f v)) (vs : List Value) :
    Unrefused (mapArguments f vs) := by
  induction vs with
  | nil => exact .ok _
  | cons v vs ih => exact (hf v).bind fun _ => ih.bind fun _ => .ok _

theorem unrefused_evaluateOption {err : EvalError} (herr : Unrefused (.error err : Except EvalError Bool))
    (options : List (String × Value)) : Unrefused (evaluateOption err options) := by
  induction options with
  | nil => exact .ok _
  | cons o options ih =>
    obtain ⟨w, v⟩ := o
    unfold evaluateOption
    split
    · exact (unrefused_truthy v).bind fun _ => ih.bind fun _ => .ok _
    · exact herr

theorem unrefused_symbolsOf (s : String) : Unrefused (symbolsOf s) := by
  have hnames : Unrefused (symbolNames s) := by
    unfold symbolNames
    cases Text.names? s.toList with
    | none => simp
    | some p => exact .ok _
  refine hnames.bind fun p => ?_
  split <;> simp

theorem unrefused_extreme (args : List Value) (options : List (String × Value)) (f : Func) :
    Unrefused (callBuiltin.extreme args options f) := by
  refine (unrefused_evaluateOption (by simp) options).bind fun evaluate => ?_
  refine (unrefused_mapArguments unrefused_argumentExpr args).bind fun es => ?_
  split
  · split
    · exact .ok _
    · exact unrefused_ofBuild _
  · split <;> exact .ok _

theorem unrefused_best (args : List Value) (op : CompareOp) : Unrefused (callBuiltin.best args op) := by
  have hnone : Unrefused (throw (if args.isEmpty then .wrongType else .badValue) : Except EvalError Value) := by
    split <;> simp
  have hstep : ∀ m x, Unrefused (do
      let c ← applyCompare op x m
      return if ← c.truthy then x else m) :=
    fun m x => (unrefused_applyCompare op x m).bind fun c => (unrefused_truthy c).bind fun _ => .ok _
  unfold callBuiltin.best
  dsimp only
  split
  all_goals
    refine Unrefused.bind (by simp) fun vs => ?_
    cases vs with
    | nil => exact hnone
    | cons v rest => exact .foldlM hstep rest v

theorem unrefused_callBuiltin (b : Builtin) (args : List Value) (options : List (String × Value)) :
    Unrefused (callBuiltin b args options) := by
  have hwrong : ∀ {α}, Unrefused (throw .wrongType : Except EvalError α) := by simp
  have hoptions : ∀ {err}, err = .wrongType ∨ err = .badValue → Unrefused (evaluateOption err options) := by
    rintro err (rfl | rfl)
    all_goals exact unrefused_evaluateOption (by simp) options
  have hnumbers := unrefused_mapArguments unrefused_strictExpr args
  -- options are read before arguments, and what fails there is a type or a value
  cases b with
  | sum =>
    exact (hoptions (.inl rfl)).bind fun _ => hnumbers.bind fun _ => .ite' (hwrong.bind fun _ => .ok _) (.ok _)
  | product =>
    exact (hoptions (.inl rfl)).bind fun _ => hnumbers.bind fun _ => .ite' (hwrong.bind fun _ => .ok _) (.ok _)
  | power =>
    dsimp only [callBuiltin]
    split
    · refine (hoptions (.inl rfl)).bind fun _ => (unrefused_strictExpr _).bind fun _ =>
        (unrefused_strictExpr _).bind fun _ => ?_
      exact .ite' (hwrong.bind fun _ => .ok _) (.ok _)
    · exact hwrong
  | equal =>
    dsimp only [callBuiltin]
    split
    · refine (hoptions (.inl rfl)).bind fun _ => (unrefused_strictExpr _).bind fun _ =>
        (unrefused_strictExpr _).bind fun _ => .ite' ?_ (.ok _)
      split
      · exact .ok _
      · exact unrefused_ofBuild _
    · exact hwrong
  | absolute =>
    dsimp only [callBuiltin]
    split
    · refine (hoptions (.inr rfl)).bind fun _ => (unrefused_argumentExpr _).bind fun _ => .ite' (.ok _) ?_
      exact .ite' (hwrong.bind fun _ => .ok _) (.ok _)
    · exact hwrong
  | largest => exact unrefused_extreme args options .max
  | smallest => exact unrefused_extreme args options .min
  | logarithm =>
    refine (hoptions (.inr rfl)).bind fun _ => ?_
    split
    · refine (unrefused_argumentExpr _).bind fun _ => .ite' (.ok _) ?_
      exact .ite' (.bind (by simp) fun _ => .ok _) (.ok _)
    · exact (unrefused_argumentExpr _).bind fun _ => (unrefused_argumentExpr _).bind fun _ => .ite' (.ok _) (.ok _)
    · exact hwrong
  | symbol =>
    dsimp only [callBuiltin]
    split <;> simp
  | symbols =>
    dsimp only [callBuiltin]
    split
    · exact unrefused_symbolsOf _
    · exact hwrong
  | functionNamed =>
    dsimp only [callBuiltin]
    split <;> simp
  | abs =>
    dsimp only [callBuiltin]
    repeat' split
    all_goals simp
  | max => exact unrefused_best args .gt
  | min => exact unrefused_best args .lt
  | text =>
    dsimp only [callBuiltin]
    split <;> simp
  | other name => exact hwrong

theorem unrefused_callFunction (name : String) (args : List Value) (options : List (String × Value)) :
    Unrefused (callFunction name args options) :=
  (unrefused_mapArguments unrefused_argumentExpr args).bind fun _ =>
    (unrefused_evaluateOption (by simp) options).bind fun _ => .ok _

theorem unrefused_namedValues (words : List (Option String)) (vs : List Value) :
    Unrefused (namedValues words vs) := by
  fun_induction namedValues words vs with
  | case1 w words v vs ih => exact ih.bind fun _ => .ok _
  | case2 => simp
  | case3 => exact .ok _

theorem unrefused_attributeOf (v : Value) (n : String) : Unrefused (attributeOf v n) := by
  unfold attributeOf
  split <;> simp

theorem unrefused_itemOf (v i : Value) : Unrefused (itemOf v i) := by
  have hpick : ∀ vs n, Unrefused (itemOf.pick vs n) := by
    intro vs n
    unfold itemOf.pick
    dsimp only
    repeat' split
    all_goals simp
  unfold itemOf
  split
  · exact hpick _ _
  · exact hpick _ _
  · simp

/-! ### Runs -/

/-- Runs of the given depth refuse nothing. -/
structure RefusesNothing (fuel : Nat) : Prop where
  tree : ∀ scope t, Unrefused (eval fuel scope t)
  trees : ∀ scope ts, Unrefused (evalList fuel scope ts)
  chain : ∀ scope a ops ts, Unrefused (compareChain fuel scope a ops ts)
  logic : ∀ scope c ts, Unrefused (evalLogic fuel scope c ts)
  each : ∀ scope n element conditions vs, Unrefused (evalEach fuel scope n element conditions vs)

namespace RefusesNothing

variable {fuel : Nat}

theorem unrefused_unsupported : Unrefused (.error .unsupported : Except EvalError Value) := by simp

theorem tree_succ (h : RefusesNothing fuel) (scope : Scope) : (t : Tree) → Unrefused (eval (fuel + 1) scope t)
  | .name n => by cases hn : scope.lookup n <;> simp [eval, hn]
  | .int _ => .ok _
  | .float _ => .ok _
  | .text _ => .ok _
  | .truth _ => .ok _
  | .none => .ok _
  | .attribute e n => (h.tree scope e).bind fun _ => unrefused_attributeOf _ n
  | .call f args words values => by
    refine (h.tree scope f).bind fun g => (h.trees scope args).bind fun vs => (h.trees scope values).bind fun ws =>
      (unrefused_namedValues words ws).bind fun options => ?_
    split
    · exact unrefused_callFunction _ _ _
    · exact unrefused_callBuiltin _ _ _
    · exact .ite' (h.tree _ _) (by simp)
    · simp
  | .index e i => (h.tree scope e).bind fun _ => (h.tree scope i).bind fun _ => unrefused_itemOf _ _
  | .unary op e => (h.tree scope e).bind fun _ => unrefused_applyUnary _ _
  | .binary op a b => (h.tree scope a).bind fun _ => (h.tree scope b).bind fun _ => unrefused_applyBinary _ _ _
  | .compare a ops rest => (h.tree scope a).bind fun _ => h.chain _ _ _ _
  | .logic c es => h.logic scope c es
  | .not e => (h.tree scope e).bind fun _ => (unrefused_truthy _).bind fun _ => .ok _
  | .choice test body other =>
    (h.tree scope test).bind fun _ => (unrefused_truthy _).bind fun _ => .ite' (h.tree _ _) (h.tree _ _)
  | .tuple es => (h.trees scope es).bind fun _ => .ok _
  | .list es => (h.trees scope es).bind fun _ => .ok _
  | .lambda _ [] _ => .ite' (.ok _) unrefused_unsupported
  | .lambda _ (_ :: _) _ => unrefused_unsupported
  | .comprehension _ _ true _ _ _ => unrefused_unsupported
  | .comprehension kind element false target source inner => by
    cases target with
    | name n =>
      refine (h.tree scope source).bind fun v => .ite' unrefused_unsupported ?_
      split
      · exact (h.each _ _ _ _ _).bind fun _ => .ok _
      · exact (h.each _ _ _ _ _).bind fun _ => .ok _
      · simp
    | _ => exact unrefused_unsupported
  | .imaginary _ => unrefused_unsupported
  | .bytes _ => unrefused_unsupported
  | .ellipsis => unrefused_unsupported
  | .format _ => unrefused_unsupported
  | .field _ _ _ => unrefused_unsupported
  | .slice _ _ _ => unrefused_unsupported
  | .starred _ => unrefused_unsupported
  | .set _ => unrefused_unsupported
  | .dict _ => unrefused_unsupported
  | .entry _ _ => unrefused_unsupported
  | .spread _ => unrefused_unsupported
  | .assign _ _ => unrefused_unsupported
  | .clause _ _ _ => unrefused_unsupported
  | .await _ => unrefused_unsupported
  | .yield _ => unrefused_unsupported
  | .yieldFrom _ => unrefused_unsupported

theorem succ (h : RefusesNothing fuel) : RefusesNothing (fuel + 1) where
  tree := h.tree_succ
  trees scope ts := by
    cases ts with
    | nil => simp [evalList]
    | cons t ts => exact (h.tree scope t).bind fun _ => (h.trees scope ts).bind fun _ => .ok _
  chain scope a ops ts := by
    cases ops with
    | nil => exact .ok _
    | cons op ops =>
      cases ts with
      | nil => exact .ok _
      | cons t ts =>
        refine (h.tree scope t).bind fun _ => (unrefused_applyCompare _ _ _).bind fun _ => ?_
        exact .ite' (.ok _) ((unrefused_truthy _).bind fun _ => .ite' (h.chain _ _ _ _) (.ok _))
  logic scope c ts := by
    obtain _ | ⟨t, _ | ⟨u, us⟩⟩ := ts
    · exact .ok _
    · exact h.tree scope t
    · exact (h.tree scope t).bind fun _ => (unrefused_truthy _).bind fun _ => .ite' (h.logic _ _ _) (.ok _)
  each scope n element conditions vs := by
    cases vs with
    | nil => exact .ok _
    | cons v vs =>
      refine (h.logic _ _ _).bind fun _ => (unrefused_truthy _).bind fun _ => (h.each _ _ _ _ _).bind fun _ => ?_
      exact .ite' ((h.tree _ _).bind fun _ => .ok _) (.ok _)

end RefusesNothing

theorem refusesNothing (fuel : Nat) : RefusesNothing fuel := by
  induction fuel with
  | zero =>
    have hendless : ∀ {α}, Unrefused (.error .endless : Except EvalError α) := by simp
    exact ⟨fun _ _ => hendless, fun _ _ => hendless, fun _ _ _ _ => hendless, fun _ _ _ => hendless,
      fun _ _ _ _ _ => hendless⟩
  | succ fuel ih => exact ih.succ

theorem unrefused_eval (fuel : Nat) (scope : Scope) (t : Tree) : Unrefused (eval fuel scope t) :=
  (refusesNothing fuel).tree scope t

/-! ## What a value depends on -/

/-- A tree of one scope, to whose names two scopes give the same values. -/
def AgreeOn (scope scope' : Scope) (t : Tree) : Prop :=
  t.OneScope ∧ ∀ n, t.Occurs n → scope.lookup n = scope'.lookup n

section Agreement
variable {scope scope' : Scope}

theorem AgreeOn.part {t u : Tree} (h : AgreeOn scope scope' t) (hu : u ∈ t.parts) : AgreeOn scope scope' u := by
  obtain ⟨⟨_, hparts⟩, hnames⟩ := h
  exact ⟨hparts u hu, fun n hn => hnames n (.part hu hn)⟩

/-- Runs of the given depth have the same outcome in both scopes. -/
structure SameRuns (scope scope' : Scope) (fuel : Nat) : Prop where
  tree : ∀ t, AgreeOn scope scope' t → eval fuel scope t = eval fuel scope' t
  trees : ∀ ts, (∀ t ∈ ts, AgreeOn scope scope' t) → evalList fuel scope ts = evalList fuel scope' ts
  chain : ∀ a ops ts, (∀ t ∈ ts, AgreeOn scope scope' t) →
    compareChain fuel scope a ops ts = compareChain fuel scope' a ops ts
  logic : ∀ c ts, (∀ t ∈ ts, AgreeOn scope scope' t) → evalLogic fuel scope c ts = evalLogic fuel scope' c ts

namespace SameRuns

variable {fuel : Nat}

theorem tree_succ (ih : SameRuns scope scope' fuel) :
    (t : Tree) → AgreeOn scope scope' t → eval (fuel + 1) scope t = eval (fuel + 1) scope' t
  | .name n, h => by simp only [eval, h.2 n (.own (by simp [Tree.ownNames]))]
  | .attribute e n, h => by simp only [eval, ih.tree e (h.part (by simp [Tree.parts]))]
  | .call f args words values, h => by
    have hargs := ih.trees args fun t ht => h.part (by simp [Tree.parts, ht])
    have hvalues := ih.trees values fun t ht => h.part (by simp [Tree.parts, ht])
    simp only [eval, ih.tree f (h.part (by simp [Tree.parts])), hargs, hvalues]
  | .index e i, h => by
    simp only [eval, ih.tree e (h.part (by simp [Tree.parts])), ih.tree i (h.part (by simp [Tree.parts]))]
  | .unary op e, h => by simp only [eval, ih.tree e (h.part (by simp [Tree.parts]))]
  | .binary op a b, h => by
    simp only [eval, ih.tree a (h.part (by simp [Tree.parts])), ih.tree b (h.part (by simp [Tree.parts]))]
  | .compare a ops rest, h => by
    have hrest : ∀ t ∈ rest, AgreeOn scope scope' t := fun t ht => h.part (by simp [Tree.parts, ht])
    simp only [eval, ih.tree a (h.part (by simp [Tree.parts])), ih.chain _ ops rest hrest]
  | .logic c es, h => ih.logic c es fun _ ht => h.part ht
  | .not e, h => by simp only [eval, ih.tree e (h.part (by simp [Tree.parts]))]
  | .choice test body other, h => by
    simp only [eval, ih.tree test (h.part (by simp [Tree.parts])), ih.tree body (h.part (by simp [Tree.parts])),
      ih.tree other (h.part (by simp [Tree.parts]))]
  | .tuple es, h => by simp only [eval, ih.trees es fun _ ht => h.part ht]
  | .list es, h => by simp only [eval, ih.trees es fun _ ht => h.part ht]
  -- functions and comprehensions have scopes of their own
  | .lambda _ _ _, h => by
    obtain ⟨⟨hinner, _⟩, _⟩ := h
    cases hinner
  | .comprehension _ _ _ _ _ _, h => by
    obtain ⟨⟨hinner, _⟩, _⟩ := h
    cases hinner
  | .int _, _ => rfl
  | .float _, _ => rfl
  | .imaginary _, _ => rfl
  | .text _, _ => rfl
  | .bytes _, _ => rfl
  | .truth _, _ => rfl
  | .none, _ => rfl
  | .ellipsis, _ => rfl
  | .format _, _ => rfl
  | .field _ _ _, _ => rfl
  | .slice _ _ _, _ => rfl
  | .starred _, _ => rfl
  | .set _, _ => rfl
  | .dict _, _ => rfl
  | .entry _ _, _ => rfl
  | .spread _, _ => rfl
  | .assign _ _, _ => rfl
  | .clause _ _ _, _ => rfl
  | .await _, _ => rfl
  | .yield _, _ => rfl
  | .yieldFrom _, _ => rfl

theorem succ (ih : SameRuns scope scope' fuel) : SameRuns scope scope' (fuel + 1) where
  tree := ih.tree_succ
  trees ts h := by
    cases ts with
    | nil => rfl
    | cons t ts =>
      obtain ⟨ht, hts⟩ := List.forall_mem_cons.mp h
      simp only [evalList, ih.tree t ht, ih.trees ts hts]
  chain a ops ts h := by
    cases ops with
    | nil => rfl
    | cons op ops =>
      cases ts with
      | nil => rfl
      | cons t ts =>
        obtain ⟨ht, hts⟩ := List.forall_mem_cons.mp h
        simp only [compareChain, ih.tree t ht, ih.chain _ ops ts hts]
  logic c ts h := by
    obtain _ | ⟨t, _ | ⟨u, us⟩⟩ := ts
    · rfl
    · exact ih.tree t (h t List.mem_cons_self)
    · obtain ⟨ht, hts⟩ := List.forall_mem_cons.mp h
      simp only [evalLogic, ih.tree t ht, ih.logic c (u :: us) hts]

end SameRuns

/-- The value of a tree of one scope depends on the names that occur in it only. -/
theorem eval_congr (fuel : Nat) {t : Tree} (h : AgreeOn scope scope' t) : eval fuel scope t = eval fuel scope' t := by
  have hruns : SameRuns scope scope' fuel := by
    induction fuel with
    | zero => exact ⟨fun _ _ => rfl, fun _ _ => rfl, fun _ _ _ _ => rfl, fun _ _ _ => rfl⟩
    | succ fuel ih => exact ih.succ
  exact hruns.tree t h

end Agreement

/-! ## Formulas -/

section Reading
variable {read : String → Except ReadError Tree}

theorem evaluateBy_of_read {s : String} {t : Tree} (h : read s = .ok t) (scope : Scope) :
    evaluateBy read scope s = (checkNames t >>= fun _ => eval (s.length + 1000) scope t) := by
  unfold evaluateBy
  rw [h]
  rfl

/-- Once the check is passed, the formula has the value of its tree. -/
theorem evaluateBy_of_checkNames {s : String} {t : Tree} (h : read s = .ok t) (hcheck : checkNames t = .ok ())
    (scope : Scope) : evaluateBy read scope s = eval (s.length + 1000) scope t := by
  rw [evaluateBy_of_read h, hcheck]
  rfl

/-- What the check refuses is refused, whatever the names mean. -/
theorem refusedFor_of_checkNames {s : String} {t : Tree} (h : read s = .ok t) {n : String}
    (hcheck : RefusedFor n (checkNames t)) (scope : Scope) : RefusedFor n (evaluateBy read scope s) := by
  rw [evaluateBy_of_read h]
  rcases hcheck with hcheck | hcheck <;> rw [hcheck]
  · exact Or.inl rfl
  · exact Or.inr rfl

/-- A formula that cannot be read is not refused for a name. -/
theorem unrefused_of_read_error {s : String} {e : ReadError} (h : read s = .error e) (scope : Scope) :
    Unrefused (evaluateBy read scope s) := by
  cases e with
  | malformed =>
    have hrun : evaluateBy read scope s = .error .malformed := by rw [evaluateBy, h]; rfl
    rw [hrun]
    simp
  | indented =>
    have hrun : evaluateBy read scope s = .error .indented := by rw [evaluateBy, h]; rfl
    rw [hrun]
    simp

/-- A refusal is that of the check, which names a forbidden name of the outermost scope. -/
theorem occursOutside_of_refusedFor {scope : Scope} {s n : String} (h : RefusedFor n (evaluateBy read scope s)) :
    ∃ t, read s = .ok t ∧ t.OccursOutside n ∧ Forbidden n := by
  cases hs : read s with
  | error e => exact absurd h (unrefused_of_read_error hs scope n)
  | ok t =>
    obtain ⟨hcheck, -⟩ | ⟨m, hm, hforbidden, hcheck⟩ := checkNames_cases t
    · rw [evaluateBy_of_checkNames hs hcheck] at h
      exact absurd h (unrefused_eval _ scope t n)
    · -- the run is refused for one name only
      have hrefused := refusedFor_of_checkNames hs hcheck scope
      have hmn : m = n := by
        rcases hrefused with hm | hm <;> rcases h with hn | hn <;> simp_all
      exact ⟨t, rfl, hmn ▸ hm, hmn ▸ hforbidden⟩

theorem evaluateBy_of_unrefused {scope : Scope} {s : String} {t : Tree} (hs : read s = .ok t)
    (h : Unrefused (evaluateBy read scope s)) : (∀ n, t.OccursOutside n → ¬ Forbidden n) ∧
      ∀ scope', evaluateBy read scope' s = eval (s.length + 1000) scope' t := by
  obtain ⟨hcheck, hnames⟩ | ⟨n, -, -, hcheck⟩ := checkNames_cases t
  · exact ⟨hnames, evaluateBy_of_checkNames hs hcheck⟩
  · exact absurd (refusedFor_of_checkNames hs hcheck scope) (h n)

end Reading

/-- The lexemes of a function of one parameter, written in place and called, that reads a name. -/
def readInPlace (n : String) : List Lexeme :=
  [mark "(", word "lambda", .blank, word "x", mark ":", .blank, word n, mark ")", mark "(", .token (.int 0), mark ")"]

theorem parse_readInPlace {n : String} (hn : IsWord n) : parse (String.ofList (spell (readInPlace n))) =
    .ok (.call (.lambda (.plain ["x"]) [] (.name n)) [.int 0] [] []) := by
  have hbody : Phrase .expression [word n] (.name n) := .expression (.sum (.term (.factor (.operand (.name hn)))))
  have hfunction := Phrase.group (.lambda (n := "x") (by decide +kernel) hbody)
  have hzero : Phrase .expression [.token (.int 0)] (.int 0) := .expression (.sum (.term (.factor (.int 0))))
  have hcall := @Phrase.call _ _ [([.token (.int 0)], .int 0)] [] hfunction (by simpa using hzero) (by simp)
    (by simp) (by simp)
  exact parse_phrase (.expression (.sum (.term (.factor (.operand hcall)))))

/-- Any name can be read in a function written in place. -/
theorem evaluate_readInPlace {n : String} (hn : IsWord n) (hx : n ≠ "x") (scope : Scope) {v : Value}
    (hv : scope.lookup n = some v) : evaluate scope (String.ofList (spell (readInPlace n))) = .ok v := by
  have hcheck : checkNames (.call (.lambda (.plain ["x"]) [] (.name n)) [.int 0] [] []) = .ok () := rfl
  have hbody : ∀ fuel, eval (fuel + 1) (("x", .int 0) :: scope) (.name n) = .ok v := by
    intro fuel
    have hparameter : (n == "x") = false := beq_eq_false_iff_ne.mpr hx
    simp only [eval, List.lookup_cons, hparameter, hv]
  -- one step for the call, one for its parts and one for the body
  have hcall : ∀ fuel, eval (fuel + 3) scope (.call (.lambda (.plain ["x"]) [] (.name n)) [.int 0] [] []) = .ok v := by
    intro fuel
    exact hbody (fuel + 1)
  rw [evaluate, evaluateBy_of_checkNames (parse_readInPlace hn) hcheck]
  exact hcall _

end Formula

end FactorPlan
