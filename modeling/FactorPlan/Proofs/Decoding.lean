import Mathlib.Algebra.BigOperators.Group.List.Basic
import Mathlib.Data.Rat.Cast.Defs
import Mathlib.Tactic.FieldSimp
import FactorPlan.Formula.Tree
import FactorPlan.Expr.Arith

/-!
What generated code means. In a field an expression has a value (`Valuation.value`), whatever
its symbols and functions mean there, and code is read back as an expression: a column as a
symbol, a method of a column or a helper function as the operator that it computes
(`readCode`). Code denotes an expression if it is read as one that has the same value in all
fields (`Denotes`).
-/

namespace FactorPlan

open Formula

/-! ## Values in a field -/

/-- What symbols and functions mean in a field, and what is no arithmetic of exact numbers. -/
structure Valuation (K : Type*) where
  symbol : String → K
  apply : Func → List K → K
  power : K → K → K
  scalar : Scalar → K
  constant : Constant → K
  truth : Bool → K

/-- The whole number that an exponent is. -/
def Expr.whole? : Expr → Option Int
  | .scalar s => s.toInt?
  | _ => none

namespace Valuation

variable {K : Type*} [Field K] (V : Valuation K)

mutual
/-- The value of an expression. -/
def value : Expr → K
  | .symbol n => V.symbol n
  | .scalar (.exact q) => q
  | .scalar s => V.scalar s
  | .constant c => V.constant c
  | .truth b => V.truth b
  | .sum ts => (valueList ts).sum
  | .product fs => (valueList fs).prod
  | .power b x => x.whole?.elim (V.power (value b) (value x)) (value b ^ ·)
  | .apply f as => V.apply f (valueList as)

/-- The values of listed expressions. -/
def valueList : List Expr → List K
  | [] => []
  | a :: as => value a :: valueList as
end

theorem valueList_eq (as : List Expr) : V.valueList as = as.map V.value := by
  induction as with
  | nil => rfl
  | cons a as ih => rw [valueList, ih, List.map_cons]

@[simp] theorem value_symbol (n : String) : V.value (.symbol n) = V.symbol n := by rw [value]

@[simp] theorem value_exact (q : Rat) : V.value (.scalar (.exact q)) = q := by rw [value]

@[simp] theorem value_sum (ts : List Expr) : V.value (.sum ts) = (ts.map V.value).sum := by
  rw [value, valueList_eq]

@[simp] theorem value_product (fs : List Expr) : V.value (.product fs) = (fs.map V.value).prod := by
  rw [value, valueList_eq]

@[simp] theorem value_apply (f : Func) (as : List Expr) : V.value (.apply f as) = V.apply f (as.map V.value) := by
  rw [value, valueList_eq]

@[simp] theorem value_power_ofInt (b : Expr) (n : Int) : V.value (.power b (.ofInt n)) = V.value b ^ n := by
  have hwhole : (Expr.ofInt n).whole? = some n := by simp [Expr.ofInt, Expr.whole?, Scalar.toInt?]
  rw [value, hwhole]
  rfl

@[simp] theorem value_ofInt (n : Int) : V.value (.ofInt n) = n := by simp [Expr.ofInt]

@[simp] theorem value_negOne : V.value .negOne = -1 := by simp [Expr.negOne]

@[simp] theorem value_one : V.value .one = 1 := by simp [Expr.one]

@[simp] theorem value_power_negOne (b : Expr) : V.value (.power b .negOne) = (V.value b)⁻¹ := by
  have hnegOne : Expr.negOne = .ofInt (-1) := rfl
  rw [hnegOne, value_power_ofInt, zpow_neg_one]

end Valuation

/-! ## Reading code -/

/-- The column that is asked for. -/
def columnName? : Tree → List Tree → Option String
  | .attribute (.name "pl") "col", [.text s] => some s
  | _, _ => none

/-- A function written in place, which is part of what is called: the product of a window is known. -/
def inPlace? : Tree → Option String
  | .lambda ⟨["x"], 0, none, [], none⟩ []
      (.call (.attribute (.name "np") "product") [.call (.attribute (.name "x") "to_numpy") [] [] []] [] []) =>
    some " product"
  | .lambda _ _ _ => some " unknown"
  | _ => none

/-- The name of what is called: a function, a function of a library, or a method. -/
def calleeName : Tree → String
  | .name f => f
  | .attribute (.name m) f => m ++ "." ++ f
  | .attribute _ f => "." ++ f
  | _ => ""

/-- What is called, with the keywords it is given, and the operator that it computes. -/
def signatures : List ((String × List String) × Func) :=
  [((".rolling_mean", []), .named "ts_mean"), ((".rolling_std", ["ddof"]), .named "ts_std_dev"),
   ((".rolling_max", []), .named "ts_max"), ((".rolling_min", []), .named "ts_min"),
   ((".rolling_sum", []), .named "ts_sum"), ((".diff", []), .named "ts_delta"), ((".shift", []), .named "ts_delay"),
   ((".rolling_apply product", ["window_size"]), .named "ts_product"),
   (("pl.rolling_corr", ["window_size", "ddof"]), .named "ts_corr"),
   (("pl.rolling_cov", ["window_size", "ddof"]), .named "ts_covariance"),
   (("_rolling_argmax", []), .named "ts_arg_max"), (("_rolling_argmin", []), .named "ts_arg_min"),
   (("_rolling_rank", []), .named "ts_rank"), (("_ts_decay_linear", []), .named "ts_decay_linear"),
   (("_rank_pct", []), .named "cs_rank"), (("_scale", []), .named "cs_scale"),
   (("_signed_power", []), .named "signed_power"),
   ((".log", []), .log), ((".abs", []), .abs), ((".sign", []), .named "sign"),
   (("np.log", []), .log), (("np.abs", []), .abs), (("np.sign", []), .named "sign")]

/-- The expression with its sign changed; of a number, the number. -/
def changeSign : Expr → Expr
  | .scalar (.exact q) => .scalar (.exact (-q))
  | e => .product [.negOne, e]

/-- What an operator makes of two expressions. -/
def readBinary : BinaryOp → Expr → Expr → Option Expr
  | .add, a, b => some (.sum [a, b])
  | .sub, a, b => some (.sum [a, changeSign b])
  | .mul, a, b => some (.product [a, b])
  | .div, a, b => some (.product [a, .power b .negOne])
  | .pow, a, b => some (.power a b)
  | _, _, _ => none

def isZero : Tree → Bool
  | .int 0 => true
  | _ => false

mutual
/-- The expression that code computes. -/
def readCode : Tree → Option Expr
  | .int n => some (.ofInt n)
  | .unary .minus a => do return changeSign (← readCode a)
  | .binary op a b => do readBinary op (← readCode a) (← readCode b)
  | .call f args words values =>
    match columnName? f args with
    | some s => some (.symbol s)
    | none => do
      let g ← signatures.lookup (calleeName f ++ String.join (args.filterMap inPlace?), words.filterMap id)
      return .apply g ((← readReceiver f) ++ (← readArgs args) ++ (← readKeys words values))
  | _ => none

/-- The column that a method belongs to is the first argument of the operator. -/
def readReceiver : Tree → Option (List Expr)
  | .attribute (.name _) _ => some []
  | .attribute x _ => do return [← readCode x]
  | _ => some []

def readArgs : List Tree → Option (List Expr)
  | [] => some []
  | a :: as => if (inPlace? a).isSome then readArgs as else do return (← readCode a) :: (← readArgs as)

/-- The values of keywords are arguments as well, but deviations are of the whole population. -/
def readKeys : List (Option String) → List Tree → Option (List Expr)
  | [], _ => some []
  | some w :: ws, v :: vs =>
    if w = "ddof" then (if isZero v then readKeys ws vs else none) else do return (← readCode v) :: (← readKeys ws vs)
  | _, _ => none
end

theorem readCode_name (n : String) : readCode (.name n) = none := by
  rw [readCode] <;> simp

/-! ## What code denotes -/

universe u

/-- The expressions have the same value in all fields. -/
def Expr.Agrees (a b : Expr) : Prop := ∀ (K : Type u) [Field K] (V : Valuation K), V.value a = V.value b

/-- The code is read as an expression that has the value of the given one. -/
def Denotes (t : Tree) (e : Expr) : Prop := ∃ d, readCode t = some d ∧ Expr.Agrees.{u} d e

/-- What is read has, one by one, the values of the expressions. -/
def AgreeEach (read : Option (List Expr)) (es : List Expr) : Prop :=
  ∃ ds, read = some ds ∧ List.Forall₂ Expr.Agrees.{u} ds es

section Denotes
variable {s t : Tree} {a b : Expr}

theorem Denotes.congr (h : Denotes.{u} t a) (hab : Expr.Agrees.{u} a b) : Denotes.{u} t b := by
  obtain ⟨d, hd, hda⟩ := h
  exact ⟨d, hd, fun K _ V => (hda K V).trans (hab K V)⟩

theorem Denotes.ne_name (h : Denotes.{u} t a) (x : String) : t ≠ .name x := by
  rintro rfl
  obtain ⟨d, hd, _⟩ := h
  rw [readCode_name] at hd
  cases hd

theorem Denotes.inPlace?_eq (h : Denotes.{u} t a) : inPlace? t = none := by
  obtain ⟨d, hd, _⟩ := h
  cases t with
  | lambda ps defaults body =>
    have hnone : readCode (.lambda ps defaults body) = none := by rw [readCode] <;> simp
    rw [hnone] at hd
    cases hd
  | _ => rfl

theorem denotes_int (n : Nat) : Denotes.{u} (.int n) (.ofInt n) := ⟨_, by rw [readCode], fun _ _ _ => rfl⟩

theorem denotes_column (s : String) :
    Denotes.{u} (.call (.attribute (.name "pl") "col") [.text s] [] []) (.symbol s) :=
  ⟨_, by rw [readCode]; rfl, fun _ _ _ => rfl⟩

theorem value_changeSign {K : Type*} [Field K] (V : Valuation K) (e : Expr) :
    V.value (changeSign e) = - V.value e := by
  unfold changeSign
  split <;> simp

theorem Denotes.minus (h : Denotes.{u} t a) : Denotes.{u} (.unary .minus t) (changeSign a) := by
  obtain ⟨d, hd, hda⟩ := h
  refine ⟨changeSign d, by rw [readCode, hd]; rfl, fun K _ V => ?_⟩
  rw [value_changeSign, value_changeSign, hda K V]

/-- An operator that does the same to expressions of the same values. -/
theorem Denotes.binary {op : BinaryOp} (make : Expr → Expr → Expr) (ha : Denotes.{u} s a) (hb : Denotes.{u} t b)
    (hop : ∀ c d, readBinary op c d = some (make c d))
    (hmake : ∀ c d, Expr.Agrees.{u} c a → Expr.Agrees.{u} d b → Expr.Agrees.{u} (make c d) (make a b)) :
    Denotes.{u} (.binary op s t) (make a b) := by
  obtain ⟨c, hc, hca⟩ := ha
  obtain ⟨d, hd, hdb⟩ := hb
  refine ⟨make c d, ?_, hmake c d hca hdb⟩
  rw [readCode, hc, hd]
  exact hop c d

/-- What the operands of an operator are read as, they denote. -/
theorem Denotes.operands {op : BinaryOp} {e : Expr} (h : Denotes.{u} (.binary op s t) e) :
    ∃ a b d, Denotes.{u} s a ∧ Denotes.{u} t b ∧ readBinary op a b = some d ∧ Expr.Agrees.{u} d e := by
  obtain ⟨d, hd, hde⟩ := h
  rw [readCode] at hd
  obtain ⟨a, ha, hd⟩ := Option.bind_eq_some_iff.mp hd
  obtain ⟨b, hb, hd⟩ := Option.bind_eq_some_iff.mp hd
  exact ⟨a, b, d, ⟨a, ha, fun _ _ _ => rfl⟩, ⟨b, hb, fun _ _ _ => rfl⟩, hd, hde⟩

theorem Denotes.add (ha : Denotes.{u} s a) (hb : Denotes.{u} t b) : Denotes.{u} (.binary .add s t) (.sum [a, b]) :=
  ha.binary (fun c d => .sum [c, d]) hb (fun _ _ => rfl) fun c d hc hd K _ V => by simp [hc K V, hd K V]

theorem Denotes.sub (ha : Denotes.{u} s a) (hb : Denotes.{u} t b) :
    Denotes.{u} (.binary .sub s t) (.sum [a, changeSign b]) :=
  ha.binary (fun c d => .sum [c, changeSign d]) hb (fun _ _ => rfl) fun c d hc hd K _ V => by
    simp [value_changeSign, hc K V, hd K V]

theorem Denotes.mul (ha : Denotes.{u} s a) (hb : Denotes.{u} t b) :
    Denotes.{u} (.binary .mul s t) (.product [a, b]) :=
  ha.binary (fun c d => .product [c, d]) hb (fun _ _ => rfl) fun c d hc hd K _ V => by simp [hc K V, hd K V]

theorem Denotes.div (ha : Denotes.{u} s a) (hb : Denotes.{u} t b) :
    Denotes.{u} (.binary .div s t) (.product [a, .power b .negOne]) :=
  ha.binary (fun c d => .product [c, .power d .negOne]) hb (fun _ _ => rfl) fun c d hc hd K _ V => by
    simp [hc K V, hd K V]

/-- A power, of an exponent that is read as the whole number that it is. -/
theorem Denotes.pow (ha : Denotes.{u} s a) {n : Int} (hn : readCode t = some (.ofInt n)) :
    Denotes.{u} (.binary .pow s t) (.power a (.ofInt n)) := by
  obtain ⟨c, hc, hca⟩ := ha
  refine ⟨.power c (.ofInt n), by rw [readCode, hc, hn]; rfl, fun K _ V => ?_⟩
  simp [hca K V]

/-! ## Calls -/

theorem Expr.agrees_apply {f : Func} {ds es : List Expr} (h : List.Forall₂ Expr.Agrees.{u} ds es) :
    Expr.Agrees.{u} (.apply f ds) (.apply f es) := by
  intro K _ V
  have hvalues : ds.map V.value = es.map V.value := by
    induction h with
    | nil => rfl
    | cons hd _ ih => rw [List.map_cons, List.map_cons, hd K V, ih]
  simp [hvalues]

theorem agreeEach_nil : AgreeEach.{u} (some []) [] := ⟨[], rfl, .nil⟩

theorem agreeEach_receiver (h : Denotes.{u} t a) (m : String) : AgreeEach.{u} (readReceiver (.attribute t m)) [a] := by
  have hname := h.ne_name
  obtain ⟨d, hd, hda⟩ := h
  refine ⟨[d], ?_, .cons hda .nil⟩
  rw [readReceiver]
  · simp [hd]
  · exact hname

theorem calleeName_method (h : Denotes.{u} t a) (m : String) : calleeName (.attribute t m) = "." ++ m := by
  rw [calleeName]
  exact h.ne_name

theorem columnName?_method (h : Denotes.{u} t a) (m : String) (args : List Tree) :
    columnName? (.attribute t m) args = none := by
  have hname := h.ne_name
  unfold columnName?
  split
  · rename_i heq
    cases heq
    exact absurd rfl (hname _)
  · rfl

/-- A call denotes the operator that it computes, over what its receiver, its arguments and its keywords denote. -/
theorem Denotes.call {f : Tree} {args values : List Tree} {words : List String} {g : Func} {xs ys zs : List Expr}
    (hcolumn : columnName? f args = none)
    (hg : signatures.lookup (calleeName f ++ String.join (args.filterMap inPlace?), words) = some g)
    (hx : AgreeEach.{u} (readReceiver f) xs) (hy : AgreeEach.{u} (readArgs args) ys)
    (hz : AgreeEach.{u} (readKeys (words.map some) values) zs) :
    Denotes.{u} (.call f args (words.map some) values) (.apply g (xs ++ ys ++ zs)) := by
  obtain ⟨cs, hcs, hcx⟩ := hx
  obtain ⟨ds, hds, hdy⟩ := hy
  obtain ⟨es, hes, hez⟩ := hz
  refine ⟨.apply g (cs ++ ds ++ es), ?_, Expr.agrees_apply (List.rel_append (List.rel_append hcx hdy) hez)⟩
  rw [readCode]
  simp [hcolumn, hg, hcs, hds, hes]

end Denotes

end FactorPlan
