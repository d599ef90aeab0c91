import FactorPlan.Proofs.Completion
import Mathlib.Data.List.Basic

/-!
Values. An interpretation says what numbers, sums, products, powers and functions
mean, and given the columns an expression has a value (`Expr.eval`). In a dependency
graph a source has the value of its column and any other vertex that of its
expression over the values of its predecessors (`Graph.Solves`); where no column
depends on itself these equations have one solution, `Graph.value`.

What is proved: whichever columns are kept and inlined, in whatever order, those that
are left have the value they had (`value_middle`). Of building a node again only that
it keeps the value of the node is assumed (`Interpretation.Faithful`), and that of the nodes
only that the run at hand builds: all others may be refused without a change (`Build.within`).
-/

namespace FactorPlan

/-- What numbers, operations and functions mean. -/
structure Interpretation (D : Type*) where
  scalar : Scalar → D
  constant : Constant → D
  truth : Bool → D
  sum : List D → D
  product : List D → D
  power : D → D → D
  apply : Func → List D → D

variable {D : Type*} (A : Interpretation D)

namespace Expr

mutual
/-- The value of an expression, given those of the symbols. -/
def eval (ρ : String → D) : Expr → D
  | .symbol n => ρ n
  | .scalar s => A.scalar s
  | .constant c => A.constant c
  | .truth b => A.truth b
  | .sum ts => A.sum (evalList ρ ts)
  | .product fs => A.product (evalList ρ fs)
  | .power b x => A.power (eval ρ b) (eval ρ x)
  | .apply f as => A.apply f (evalList ρ as)

/-- The values of listed expressions. -/
def evalList (ρ : String → D) : List Expr → List D
  | [] => []
  | a :: as => eval ρ a :: evalList ρ as
end

end Expr

/-- A node that is built again over other arguments has the value of that node over them. -/
def Interpretation.Faithful (build : Build) : Prop :=
  ∀ (ρ : String → D) (e : Expr) (us : List Expr) (d : Expr), e.isAtom = false →
    us.length = e.args.length → build e us = .ok d → d.eval A ρ = (e.withArgs us).eval A ρ

/-- Building that refuses all nodes but some. -/
def Build.within (build : Build) (made : Expr → List Expr → Bool) : Build := fun e us =>
  if made e us then build e us else .error .unsupported

variable {A} in
/-- The completed building is faithful too. -/
theorem Interpretation.Faithful.complete {build : Build} (h : A.Faithful build) :
    A.Faithful build.complete.always := by
  intro ρ e us d he hlen hd
  cases hd
  cases hb : build e us with
  | ok y =>
    rw [Build.complete_of_ok hb]
    exact h ρ e us y he hlen hb
  | error y => simp only [Build.complete, hb]

namespace Expr

variable {A} {ρ ρ' : String → D}

mutual
/-- The value depends on the symbols of the expression only. -/
theorem eval_congr : (e : Expr) → (∀ x ∈ e.symbols, ρ x = ρ' x) → e.eval A ρ = e.eval A ρ'
  | .symbol n, h => h n (by simp [symbols])
  | .scalar _, _ => rfl
  | .constant _, _ => rfl
  | .truth _, _ => rfl
  | .sum ts, h => congrArg A.sum (evalList_congr ts h)
  | .product fs, h => congrArg A.product (evalList_congr fs h)
  | .power b x, h => by
    simp only [symbols, List.mem_append] at h
    rw [eval, eval, eval_congr b fun y hy => h y (Or.inl hy), eval_congr x fun y hy => h y (Or.inr hy)]
  | .apply f as, h => congrArg (A.apply f) (evalList_congr as h)

theorem evalList_congr : (as : List Expr) → (∀ x ∈ symbolsList as, ρ x = ρ' x) →
    evalList A ρ as = evalList A ρ' as
  | [], _ => rfl
  | a :: as, h => by
    simp only [symbolsList, List.mem_append] at h
    rw [evalList, evalList, eval_congr a fun y hy => h y (Or.inl hy),
      evalList_congr as fun y hy => h y (Or.inr hy)]
end

/-! ## Replacing nodes -/

/-- The value of a node over new arguments that have the values of the old ones. -/
theorem eval_withArgs {e : Expr} {us : List Expr} (he : e.isAtom = false)
    (h : evalList A ρ us = evalList A ρ' e.args) : (e.withArgs us).eval A ρ = e.eval A ρ' := by
  cases e with
  | symbol n => cases he
  | scalar s => cases he
  | constant c => cases he
  | truth b => cases he
  | sum ts => exact congrArg A.sum h
  | product fs => exact congrArg A.product h
  | apply f as => exact congrArg (A.apply f) h
  | power b x =>
    obtain _ | ⟨c, _ | ⟨y, _ | _⟩⟩ := us <;> simp [args, evalList] at h
    simp only [withArgs, eval, h.1, h.2]

theorem evalList_of_forall₂ {us as : List Expr}
    (h : List.Forall₂ (fun new old => new.eval A ρ = old.eval A ρ') us as) :
    evalList A ρ us = evalList A ρ' as := by
  induction h with
  | nil => rfl
  | cons hab _ ih => rw [evalList, evalList, hab, ih]

/-- The substitution lemma: putting an expression for a symbol is giving the symbol its value. -/
theorem eval_putFor {rebuild : Rebuild} (hA : A.Faithful rebuild.always) (v : String) (e d : Expr) :
    (putFor rebuild v e d).eval A ρ = d.eval A (Function.update ρ v (e.eval A ρ)) := by
  refine (Relates.replaceWith (R := fun new old =>
    new.eval A ρ = old.eval A (Function.update ρ v (e.eval A ρ))) ⟨?_, ?_, ?_, ?_⟩ d :)
  · intro y r hy
    split at hy
    · rename_i hyv
      cases hy
      simp [hyv, eval]
    · cases hy
  · intro y hy hleaf
    cases y <;> simp only [isAtom, Bool.false_eq_true] at hleaf
    case symbol x =>
      have hxv : x ≠ v := by
        rintro rfl
        simp at hy
      rw [eval, eval, Function.update_of_ne hxv]
    all_goals rfl
  · intro y hy hargs
    have hself : y.withArgs y.args = y := by cases y <;> rfl
    have heval := eval_withArgs hy (evalList_of_forall₂ hargs)
    rwa [hself] at heval
  · intro y us hy hargs
    exact (hA ρ y us _ hy hargs.length_eq rfl).trans (eval_withArgs hy (evalList_of_forall₂ hargs))

end Expr

/-! ## Values in a graph -/

namespace Plan

namespace Graph

/-- The values that an expression sees: those of the predecessors, and columns. -/
def seen (cols : String → D) (ps : List String) (val : String → D) (u : String) : D :=
  if u ∈ ps then val u else cols u

/-- The value of a vertex, following edges back for the given number of steps. -/
def valueWithin (cols : String → D) (g : Graph) : Nat → String → D
  | 0, v => cols v
  | n + 1, v =>
    if g.pred v = [] then cols v
    else match g.exprOf v with
      | some e => e.eval A (seen cols (g.pred v) (valueWithin cols g n))
      | none => cols v

/-- The value of a vertex. -/
def value (cols : String → D) (g : Graph) (v : String) : D :=
  valueWithin A cols g g.nodes.length v

/-- The equations that give each vertex its value. -/
structure Solves (cols : String → D) (g : Graph) (val : String → D) : Prop where
  given : ∀ v ∈ g.vertices, g.pred v = [] → val v = cols v
  computed : ∀ v ∈ g.vertices, g.pred v ≠ [] →
    ∃ e, g.exprOf v = some e ∧ val v = e.eval A (seen cols (g.pred v) val)

theorem seen_of_mem {cols val : String → D} {ps : List String} {u : String} (h : u ∈ ps) :
    seen cols ps val u = val u := if_pos h

theorem seen_congr {cols val val' : String → D} {ps : List String}
    (h : ∀ u ∈ ps, val u = val' u) : seen cols ps val = seen cols ps val' := by
  funext u
  unfold seen
  split
  · exact h u ‹_›
  · rfl

section Solutions
variable {A} {cols : String → D} {g : Graph} {r : String → Nat}

/-- As many steps as the rank are enough. -/
theorem valueWithin_of_le (hr : g.Ranked r) {n m : Nat} {v : String} (hv : r v ≤ n) (hnm : n ≤ m) :
    valueWithin A cols g m v = valueWithin A cols g n v := by
  have hbelow : ∀ u ∈ g.pred v, r u < r v := fun u hu => hr (u, v) ((Digraph.mem_pred g u v).mp hu)
  induction n generalizing m v with
  | zero =>
    have hnil : g.pred v = [] := by
      rw [List.eq_nil_iff_forall_not_mem]
      intro u hu
      have := hbelow u hu
      omega
    cases m with
    | zero => rfl
    | succ m => simp [valueWithin, hnil]
  | succ n ih =>
    obtain ⟨m, rfl⟩ : ∃ k, m = k + 1 := ⟨m - 1, by omega⟩
    have hsame : seen cols (g.pred v) (valueWithin A cols g m) =
        seen cols (g.pred v) (valueWithin A cols g n) := by
      refine seen_congr fun u hu => ?_
      have hu' := hbelow u hu
      exact ih (by omega) (by omega) fun w hw => hr (w, u) ((Digraph.mem_pred g w u).mp hw)
    simp only [valueWithin, hsame]

/-- Where no column depends on itself, the values solve the equations. -/
theorem value_solves (hg : g.WellFormed) (hx : ∀ v ∈ g.vertices, ∃ e, g.exprOf v = some e)
    (hrest : g.generations.2 = []) : Solves A cols g (value A cols g) := by
  have hr := Digraph.level_ranked hg hrest
  have hlt : ∀ v ∈ g.vertices, ∃ n, g.nodes.length = n + 1 ∧ g.level v ≤ n := fun v hv => by
    have := Digraph.level_lt hg hrest hv
    rw [Digraph.length_vertices] at this
    exact ⟨g.nodes.length - 1, by omega, by omega⟩
  refine ⟨fun v hv hp => ?_, fun v hv hp => ?_⟩
  · obtain ⟨n, hn, _⟩ := hlt v hv
    rw [value, hn, valueWithin, if_pos hp]
  · obtain ⟨n, hn, hle⟩ := hlt v hv
    obtain ⟨e, he⟩ := hx v hv
    refine ⟨e, he, ?_⟩
    have hsame : seen cols (g.pred v) (valueWithin A cols g n) =
        seen cols (g.pred v) (value A cols g) := by
      refine seen_congr fun u hu => ?_
      have hu' := hr (u, v) ((Digraph.mem_pred g u v).mp hu)
      dsimp only at hu'
      exact (valueWithin_of_le hr (by omega) (by omega)).symm
    rw [value, hn, valueWithin, if_neg hp, he]
    exact congrArg (e.eval A) hsame

/-- The equations have at most one solution. -/
theorem Solves.unique (hg : g.WellFormed) (hr : g.Ranked r) {val val' : String → D}
    (h : Solves A cols g val) (h' : Solves A cols g val') : ∀ v ∈ g.vertices, val v = val' v := by
  have hall : ∀ n, ∀ v ∈ g.vertices, r v < n → val v = val' v := by
    intro n
    induction n with
    | zero => intro v _ hv; omega
    | succ n ih =>
      intro v hv hlt
      by_cases hp : g.pred v = []
      · rw [h.given v hv hp, h'.given v hv hp]
      · obtain ⟨e, he, hval⟩ := h.computed v hv hp
        obtain ⟨e', he', hval'⟩ := h'.computed v hv hp
        rw [he] at he'
        cases he'
        rw [hval, hval']
        refine congrArg (e.eval A) (seen_congr fun u hu => ?_)
        have hm := (Digraph.mem_pred g u v).mp hu
        have hru := hr (u, v) hm
        exact ih u (hg.fst_mem (u, v) hm) (by dsimp only at hru; omega)
  exact fun v hv => hall (r v + 1) v hv (Nat.lt_succ_self _)

end Solutions

/-! ## What keeps the values -/

/-- The values solve the equations of a graph in which no column depends on itself and each
expression depends on the predecessors of its column only. -/
structure Explains (cols val : String → D) (r : String → Nat) (g : Graph) : Prop where
  ranked : g.Ranked r
  solves : Solves A cols g val
  reads : ∀ v ∈ g.vertices, g.pred v ≠ [] → ∀ e, g.exprOf v = some e →
    ∀ ρ ρ' : String → D, (∀ u ∈ g.pred v, ρ u = ρ' u) → e.eval A ρ = e.eval A ρ'

namespace Explains

variable {A} {cols val : String → D} {r : String → Nat} {g g' : Graph}

/-- The value of a column is that of its expression wherever the predecessors have theirs. -/
theorem eval_eq (h : Explains A cols val r g) {v : String} (hv : v ∈ g.vertices)
    (hp : g.pred v ≠ []) {e : Expr} (he : g.exprOf v = some e) {ρ : String → D}
    (hρ : ∀ u ∈ g.pred v, ρ u = val u) : e.eval A ρ = val v := by
  obtain ⟨e', he', hval⟩ := h.solves.computed v hv hp
  rw [he] at he'
  cases he'
  rw [hval]
  exact h.reads v hv hp e he _ _ fun u hu => (hρ u hu).trans (seen_of_mem hu).symm

theorem keeps (h : Explains A cols val r g) (hk : Digraph.Keeps g g') : Explains A cols val r g' := by
  have hexpr : ∀ v ∈ g'.vertices, g'.exprOf v = g.exprOf v := fun v hv => by
    unfold exprOf
    rw [hk.attributes v hv]
  refine ⟨hk.ranked h.ranked, ⟨?_, ?_⟩, ?_⟩
  · intro v hv hp
    refine h.solves.given v (hk.vertices v hv) ?_
    by_contra hne
    exact (hk.pred_ne_nil hv).mpr hne hp
  · intro v hv hp
    have hp' := (hk.pred_ne_nil hv).mp hp
    obtain ⟨e, he, _⟩ := h.solves.computed v (hk.vertices v hv) hp'
    refine ⟨e, (hexpr v hv).trans he, (h.eval_eq (hk.vertices v hv) hp' he fun u hu => ?_).symm⟩
    exact seen_of_mem ((hk.mem_pred hv).mpr hu)
  · intro v hv hp e he ρ ρ' hρ
    rw [hexpr v hv] at he
    exact h.reads v (hk.vertices v hv) ((hk.pred_ne_nil hv).mp hp) e he ρ ρ'
      fun u hu => hρ u ((hk.mem_pred hv).mpr hu)

theorem sameContent (h : Explains A cols val r g) (hs : SameContent g g') :
    Explains A cols val r g' := by
  have hp : g'.pred = g.pred := funext hs.pred
  refine ⟨?_, ⟨?_, ?_⟩, ?_⟩
  · intro e he
    exact h.ranked e (hs.edges ▸ he)
  · rw [hs.vertices, hp]
    exact h.solves.given
  · rw [hs.vertices, hp, funext hs.exprOf]
    exact h.solves.computed
  · rw [hs.vertices, hp, funext hs.exprOf]
    exact h.reads

/-- Inlining one column leaves the others their values: where the column stood there is its
expression, which has its value because the columns it needs are predecessors now. -/
theorem inlined {rebuild : Rebuild} (hA : A.Faithful rebuild.always) (h : Explains A cols val r g)
    (hg : Planned g) {v : String} {e : Expr} (hi : Inlined rebuild g v e g') :
    Explains A cols val r g' := by
  obtain ⟨a₀, ha₀⟩ := Digraph.exists_mem_of_pred_ne_nil hi.pred_ne_nil
  have hv : v ∈ g.vertices := hg.wellFormed.snd_mem (a₀, v) ha₀
  have hexpr : ∀ w ∈ g'.vertices, ∃ d, g.exprOf w = some d ∧ w ≠ v ∧ w ∈ g.vertices := by
    intro w hw
    obtain ⟨hwg, hwv⟩ := (hi.vertices w).mp hw
    obtain ⟨d, hd⟩ := hg.exprOf w hwg
    exact ⟨d, hd, hwv, hwg⟩
  refine ⟨hi.ranked h.ranked, ⟨?_, ?_⟩, ?_⟩
  · intro w hw hp
    obtain ⟨_, _, hwv, hwg⟩ := hexpr w hw
    refine h.solves.given w hwg ?_
    by_contra hne
    exact (hi.pred_ne_nil_iff h.ranked hwv).mpr hne hp
  · intro w hw hp
    obtain ⟨d, hd, hwv, hwg⟩ := hexpr w hw
    have hp' := hi.pred_ne_nil_of hp
    refine ⟨_, hi.exprOf hwv hd, ?_⟩
    by_cases hs : w ∈ g.succ v
    · -- in place of `v` stands the value of its expression, which is the value of `v`
      rw [if_pos hs, Expr.eval_putFor hA]
      refine (h.eval_eq hwg hp' hd fun u hu => ?_).symm
      by_cases huv : u = v
      · rw [huv, Function.update_self]
        exact h.eval_eq hv hi.pred_ne_nil hi.expr fun a ha =>
          seen_of_mem (hi.mem_pred_of_mem_succ h.ranked hwv hs ha)
      · rw [Function.update_of_ne huv]
        exact seen_of_mem (hi.mem_pred hwv hu huv)
    · rw [if_neg hs]
      exact (h.eval_eq hwg hp' hd fun u hu =>
        seen_of_mem (hi.mem_pred_of_not_mem_succ hwv hs hu)).symm
  · -- what the new expressions read are again predecessors
    intro w hw hp d' hd' ρ ρ' hρ
    obtain ⟨d, hd, hwv, hwg⟩ := hexpr w hw
    have hp' := hi.pred_ne_nil_of hp
    rw [hi.exprOf hwv hd] at hd'
    cases hd'
    by_cases hs : w ∈ g.succ v
    · rw [if_pos hs, Expr.eval_putFor hA, Expr.eval_putFor hA]
      refine h.reads w hwg hp' d hd _ _ fun u hu => ?_
      by_cases huv : u = v
      · rw [huv, Function.update_self, Function.update_self]
        exact h.reads v hv hi.pred_ne_nil e hi.expr ρ ρ' fun a ha =>
          hρ a (hi.mem_pred_of_mem_succ h.ranked hwv hs ha)
      · rw [Function.update_of_ne huv, Function.update_of_ne huv]
        exact hρ u (hi.mem_pred hwv hu huv)
    · rw [if_neg hs]
      exact h.reads w hwg hp' d hd ρ ρ' fun u hu => hρ u (hi.mem_pred_of_not_mem_succ hwv hs hu)

theorem inlining {rebuild : Rebuild} (hA : A.Faithful rebuild.always) (h : Explains A cols val r g)
    (hg : Planned g) (hi : Inlining rebuild g g') : Explains A cols val r g' :=
  (hi.keeps (fun g => Planned g ∧ Explains A cols val r g)
    (fun _ _ _ _ hs hp => ⟨hs.planned hp.1, hp.2.inlined hA hp.1 hs⟩) ⟨hg, h⟩).2

end Explains

/-- At the start expressions depend on the predecessors only. -/
theorem Started.explains {s : Setting} {bs : List (Slot × Formula.Value)} {g : Graph}
    (h : Started s bs g) (cols : String → D) :
    Explains A cols (value A cols g) g.level g := by
  refine ⟨Digraph.level_ranked h.wellFormed h.layered, 
    value_solves h.wellFormed h.planned.exprOf h.layered, ?_⟩
  intro v hv hp e he ρ ρ' hρ
  obtain ⟨u, hu⟩ := Digraph.exists_mem_of_pred_ne_nil hp
  obtain ⟨b, hb, _⟩ := (h.edges u v).mp hu
  obtain ⟨c, d, hc, hd, _, hx⟩ := h.column v b hb
  have hde : d = e := by
    have := (exprOf_eq_some_iff g v d).mpr ⟨c, hc, hx⟩
    rw [he] at this
    exact (Option.some.inj this).symm
  refine Expr.eval_congr e fun x hx => hρ x ((Digraph.mem_pred g x v).mpr ((h.edges x v).mpr ?_))
  exact ⟨d, hd, hde ▸ symbols_subset_origins e x hx⟩

/-- **Merging keeps the meaning.** For every interpretation in which the nodes that are built have
the values of what they are built from, and all given columns: where the middle of a plan is not
stopped by a refused node, a column that is left was there at the start and has the value it had
there, each of the two being the solution of the equations of its graph. -/
theorem value_middle (cols : String → D) (s : Setting) {build : Build}
    (made : Expr → List Expr → Bool) (hA : A.Faithful (build.within made))
    (order : List String → List String) (names : List String)
    {bs : List (Slot × Formula.Value)} {g g' : Graph} {r : Except PlanError Unit}
    (h : start s bs = .ok g) (hm : middle s build order g names = (g', r))
    (hmade : middle s (build.within made) order g names = middle s build order g names)
    (hr : ∀ x, r ≠ .error (.build x)) :
    Solves A cols g (value A cols g) ∧ Solves A cols g' (value A cols g') ∧
    ∀ v ∈ g'.vertices, v ∈ g.vertices ∧ value A cols g' v = value A cols g v := by
  have hstart := start_started h
  have hg := hstart.planned
  have hkeeps := Digraph.keepOnly_keeps order names hg.wellFormed
  obtain ⟨g₁, hrun, hsame, _⟩ := middle_spec (build.within made).complete s order hg names
  have hend : middle s (build.within made).complete.always order g names = (g', r) := by
    rcases middle_complete (build.within made) order s g names with hsame | ⟨_, _, x, _, hx⟩
    · exact hsame.symm.trans (hmade.trans hm)
    · rw [hmade, hm] at hx
      exact absurd hx (hr x)
  rw [hend] at hsame
  have hex : Explains A cols (value A cols g) g.level g' :=
    (((hstart.explains A cols).keeps hkeeps).inlining hA.complete (hg.keeps hkeeps) hrun).sameContent
      hsame
  have hplan := hrun.planned (hg.keeps hkeeps)
  have hwf := hsame.wellFormed hplan.wellFormed
  have hknown : ∀ v ∈ g'.vertices, ∃ e, g'.exprOf v = some e := by
    rw [hsame.vertices, funext hsame.exprOf]
    exact hplan.exprOf
  have hsolves : Solves A cols g' (value A cols g') :=
    value_solves hwf hknown (Digraph.generations_rest_eq_nil hwf hex.ranked)
  refine ⟨value_solves hg.wellFormed hg.exprOf hstart.layered, hsolves, fun v hv => ⟨?_, ?_⟩⟩
  · exact hkeeps.vertices v (hrun.vertices v (hsame.vertices ▸ hv))
  · exact hsolves.unique hwf hex.ranked hex.solves v hv

/-- A sum of two columns, and the mean over time of the sum of it and a third. -/
def meanOfSum : List (Slot × Formula.Value) :=
  [(.column "a", .expr (.sum [.symbol "CLOSE", .symbol "OPEN"])),
    (.column "b", .expr (.apply (.named "ts_mean") [.sum [.symbol "HIGH", .symbol "a"]]))]

/-- Whole numbers, with functions that add one to the sum of their arguments. -/
def counting : Interpretation Int where
  scalar _ := 0
  constant _ := 0
  truth _ := 0
  sum as := as.foldr (· + ·) 0
  product as := as.foldr (· * ·) 1
  power a _ := a
  apply _ as := as.foldr (· + ·) 1

/-- The nodes that are built when the first sum goes into the second. -/
def meanOfSumMade (e : Expr) (us : List Expr) : Bool :=
  (e, us) = (.sum [.symbol "HIGH", .symbol "a"],
      [.symbol "HIGH", .sum [.symbol "CLOSE", .symbol "OPEN"]]) ∨
    (e, us) = (.apply (.named "ts_mean") [.sum [.symbol "HIGH", .symbol "a"]],
      [.sum [.symbol "CLOSE", .symbol "HIGH", .symbol "OPEN"]])

theorem faithful_meanOfSumMade : counting.Faithful (Build.within Expr.build meanOfSumMade) := by
  intro ρ e us d _ _ hd
  unfold Build.within at hd
  split at hd
  · rename_i hmade
    unfold meanOfSumMade at hmade
    rcases of_decide_eq_true hmade with heq | heq
    · cases heq
      have hsum : Expr.build (.sum [.symbol "HIGH", .symbol "a"])
          [.symbol "HIGH", .sum [.symbol "CLOSE", .symbol "OPEN"]] =
            .ok (.sum [.symbol "CLOSE", .symbol "HIGH", .symbol "OPEN"]) := by decide +kernel
      rw [hsum] at hd
      cases hd
      simp only [Expr.eval, Expr.evalList, Expr.withArgs, counting, List.foldr]
      omega
    · cases heq
      have hmean : Expr.build (.apply (.named "ts_mean") [.sum [.symbol "HIGH", .symbol "a"]])
          [.sum [.symbol "CLOSE", .symbol "HIGH", .symbol "OPEN"]] = .ok (.apply (.named "ts_mean")
            [.sum [.symbol "CLOSE", .symbol "HIGH", .symbol "OPEN"]]) := by decide +kernel
      rw [hmean] at hd
      cases hd
      rfl
  · cases hd

/-- The sum is inlined, and the mean over it keeps its value. -/
theorem value_middle_meanOfSum : ∃ g g', start {} meanOfSum = .ok g ∧ "a" ∈ g.vertices ∧
    middle {} Expr.build id g ["b"] = (g', .ok ()) ∧ g'.vertices = ["CLOSE", "OPEN", "b", "HIGH"] ∧
    value counting (fun _ => 7) g' "b" = 22 ∧ value counting (fun _ => 7) g "b" = 22 := by
  let g : Graph := (start {} meanOfSum).toOption.getD {}
  have hg : start {} meanOfSum = .ok g := rfl
  have hok : (middle {} Expr.build id g ["b"]).2 = .ok () := by decide +kernel
  have hleft : (middle {} Expr.build id g ["b"]).1.vertices = ["CLOSE", "OPEN", "b", "HIGH"] := by
    decide +kernel
  have hmade : middle {} (Build.within Expr.build meanOfSumMade) id g ["b"] =
      middle {} Expr.build id g ["b"] := by decide +kernel
  have hvalue : value counting (fun _ => 7) g "b" = 22 := by decide +kernel
  have ha : "a" ∈ g.vertices := by decide +kernel
  rcases hm : middle {} Expr.build id g ["b"] with ⟨g', r⟩
  rw [hm] at hok hleft
  cases (hok : r = .ok ())
  have hall := (value_middle counting (fun _ => 7) {} meanOfSumMade faithful_meanOfSumMade id ["b"]
    hg hm hmade (by simp)).2.2 "b" (by rw [hleft]; decide)
  exact ⟨g, g', hg, ha, hm, hleft, hall.2.trans hvalue, hvalue⟩

end Graph

end Plan

end FactorPlan
