import FactorPlan.Proofs.Availability
import FactorPlan.Proofs.Cutting

/-!
Kinds of columns. `Kinded` says of every column by which keys its grouped operators are
computed, and that operators within groups are grouped by given columns. Putting the
expression of a column into those that use it keeps this where its keys are among theirs
(`Kinded.inlined`); evaluating what is built anew brings in no operator.

Where every column has one key as its label, merging with neighbours makes no other step, so
the first pass keeps all labels (`mergeColumns_kinded`). Finding the groups does not fail then
and finds them again, or none where no grouped operator is left (`Kinded.classifyAll`).
-/

namespace FactorPlan

namespace Expr

variable {rebuild : Rebuild} {rule : Expr → Option Expr}

theorem snd_replaceFlagList_eq_false {as : List Expr}
    (h : ∀ a ∈ as, (replaceFlag rebuild rule a).2 = false) :
    (replaceFlagList rebuild rule as).2 = false := by
  induction as with
  | nil => rw [replaceFlagList_nil]
  | cons a as ih =>
    obtain ⟨ha, has⟩ := List.forall_mem_cons.mp h
    rw [replaceFlagList_cons, ha, ih has]
    rfl

/-- Nothing is put in place of a symbol that does not occur. -/
theorem putFor_of_not_mem (rebuild : Rebuild) {v : String} (e : Expr) {d : Expr}
    (h : v ∉ d.symbols) : putFor rebuild v e d = d := by
  refine replaceFlag_of_false ?_
  induction d using args_induction with
  | h d ih =>
    cases hd : d.isAtom with
    | true =>
      have hne : d ≠ .symbol v := by
        rintro rfl
        exact h (by simp [symbols])
      rw [replaceFlag_leaf hd, if_neg hne]
      rfl
    | false =>
      have hne : d ≠ .symbol v := by
        rintro rfl
        cases hd
      rw [symbols_of_node hd, symbolsList_eq] at h
      have hargs := snd_replaceFlagList_eq_false fun a ha =>
        ih a ha fun hv => h (List.mem_flatMap.mpr ⟨a, ha, hv⟩)
      rw [replaceFlag_node hd (if_neg hne), hargs]
      rfl

end Expr

namespace Plan

open Grouping

variable {s : Setting} {given : String → Prop} {keys : Key → Prop}

/-! ## Expressions of a kind -/

/-- The operators that are computed on whole columns or by one of the keys, those within groups
being grouped by given columns. -/
def kindStock (s : Setting) (given : String → Prop) (keys : Key → Prop) : Stock where
  symbol _ := True
  function f h :=
    (∃ k, Key.ofOperator s.columns s.naming f (h.toList.map .symbol) = .ok k ∧
      (k = Key.plain ∨ keys k)) ∧
    (Naming.isWithinGroup s.naming f = true → ∃ n, h = some n ∧ given n)
  open_first f n h := by
    have hf : Naming.isWithinGroup s.naming f ≠ true := fun hf => by
      obtain ⟨_, hn, _⟩ := h.2 hf
      cases hn
    refine ⟨?_, fun hf' => absurd hf' hf⟩
    rw [ofOperator_congr s.columns fun hf' => absurd hf' hf]
    exact h.1

/-- A node is in the stock of some keys where it has one of them or none, and is grouped as it has
to be. -/
theorem admits_kindStock_iff {a : Expr} : (kindStock s given keys).Admits a ↔
    (∃ k, s.rule a = .ok k ∧ (k = Key.plain ∨ keys k)) ∧
    ∀ f as, a = .apply (.named f) as → Naming.isWithinGroup s.naming f = true →
      ∃ n rest, as = .symbol n :: rest ∧ given n := by
  cases a with
  | apply g as =>
    cases g with
    | named f =>
      -- the key depends on the first argument only within groups, where it has to be a symbol
      have hkey : (Naming.isWithinGroup s.naming f = true →
          ∃ n, as.head?.bind Expr.symbol? = some n) →
          Key.ofOperator s.columns s.naming f ((as.head?.bind Expr.symbol?).toList.map .symbol) =
            Key.ofOperator s.columns s.naming f as := by
        intro h
        refine ofOperator_congr _ fun hf => ?_
        obtain ⟨n, hn⟩ := h hf
        cases as with
        | nil => cases hn
        | cons b bs => cases b <;> cases hn; rfl
      have hfirst : ∀ n, as.head?.bind Expr.symbol? = some n ↔ ∃ rest, as = .symbol n :: rest := by
        intro n
        cases as with
        | nil => simp
        | cons b bs => cases b <;> simp [Expr.symbol?]
      show (_ ∧ _) ↔ _
      constructor
      · rintro ⟨hj, hgiven⟩
        rw [hkey fun hf => (hgiven hf).imp fun _ h => h.1] at hj
        refine ⟨hj, ?_⟩
        rintro f' as' heq hf
        cases heq
        obtain ⟨n, hn, hgn⟩ := hgiven hf
        obtain ⟨rest, hrest⟩ := (hfirst n).mp hn
        exact ⟨n, rest, hrest, hgn⟩
      · rintro ⟨hj, hgiven⟩
        have hnamed : Naming.isWithinGroup s.naming f = true →
            ∃ n, as.head?.bind Expr.symbol? = some n ∧ given n := fun hf => by
          obtain ⟨n, rest, hrest, hgn⟩ := hgiven f as rfl hf
          exact ⟨n, (hfirst n).mpr ⟨rest, hrest⟩, hgn⟩
        refine ⟨?_, hnamed⟩
        rw [hkey fun hf => (hnamed hf).imp fun _ h => h.1]
        exact hj
    | _ => exact ⟨fun _ => ⟨⟨_, rfl, Or.inl rfl⟩, by rintro _ _ ⟨⟩⟩, fun _ => trivial⟩
  | _ => exact ⟨fun _ => ⟨⟨_, rfl, Or.inl rfl⟩, by rintro _ _ ⟨⟩⟩, fun _ => trivial⟩

theorem supplies_kindStock_iff {e : Expr} : (kindStock s given keys).Supplies e ↔
    Splits s.rule e ∧ (∀ k ∈ keysWithin s.rule e, keys k) ∧ GroupedBy s given e := by
  unfold Stock.Supplies
  simp only [admits_kindStock_iff]
  rw [splits_iff]
  constructor
  · intro h
    refine ⟨fun a ha => ?_, fun j hj => ?_, fun f as ha hf => (h _ ha).2 f as rfl hf⟩
    · obtain ⟨⟨j, hj, _⟩, _⟩ := h a ha
      exact ⟨j, hj⟩
    · obtain ⟨a, ha, hja⟩ := List.mem_flatMap.mp hj
      obtain ⟨hrule, hne⟩ := mem_ownKey.mp hja
      obtain ⟨⟨i, hi, hik⟩, _⟩ := h a ha
      rw [hrule] at hi
      cases hi
      exact hik.resolve_left hne
  · rintro ⟨hs, hom, hgrouped⟩ a ha
    obtain ⟨j, hj⟩ := hs a ha
    refine ⟨⟨j, hj, or_iff_not_imp_left.mpr fun hne => ?_⟩, ?_⟩
    · exact hom j (List.mem_flatMap.mpr ⟨a, ha, mem_ownKey.mpr ⟨hj, hne⟩⟩)
    · rintro f as rfl hf
      exact hgrouped f as ha hf

theorem supplies_kindStock_mono {keys' : Key → Prop} {e : Expr}
    (hkeys : ∀ k, keys k → k = Key.plain ∨ keys' k) (h : (kindStock s given keys).Supplies e) :
    (kindStock s given keys').Supplies e := by
  obtain ⟨hs, hall, hgrouped⟩ := supplies_kindStock_iff.mp h
  exact supplies_kindStock_iff.mpr ⟨hs, fun k hk =>
    (hkeys k (hall k hk)).resolve_left (ne_plain_of_mem_keysWithin hk), hgrouped⟩

/-- An expression may be put in place of a column that is not given. -/
theorem supplies_kindStock_putFor {rebuild : Rebuild} (hb : Expr.BringsNothing rebuild.always)
    {v : String} {e d : Expr} (hv : ¬ given v) (he : (kindStock s given keys).Supplies e)
    (hd : (kindStock s given keys).Supplies d) :
    (kindStock s given keys).Supplies (Expr.putFor rebuild v e d) := by
  refine Stock.supplies_putFor (hb.rebuilds _) he (fun f hf => ?_) hd
  have hfree : Naming.isWithinGroup s.naming f ≠ true := fun hg => by
    obtain ⟨n, hn, hgn⟩ := hf.2 hg
    cases hn
    exact hv hgn
  refine ⟨?_, fun hg => absurd hg hfree⟩
  rw [ofOperator_congr s.columns fun hg => absurd hg hfree]
  exact hf.1

/-- What the key of a node can be. One within groups is named by the first argument. -/
theorem rule_cases {a : Expr} {k : Key} (h : s.rule a = .ok k) :
    k = Key.plain ∨ k = Key.overTime s.columns.asset s.columns.date ∨
      k = Key.acrossMarket s.columns.date ∨
      ∃ f x as n, a = .apply (.named f) (x :: as) ∧ Naming.isWithinGroup s.naming f = true ∧
        x.name? = some n ∧ k = Key.withinGroup s.columns.date n := by
  have hgroup : ∀ {f as}, a = .apply (.named f) as → Naming.isWithinGroup s.naming f = true →
      Key.ofGroup s.columns.date as = .ok k →
      ∃ f x as n, a = .apply (.named f) (x :: as) ∧ Naming.isWithinGroup s.naming f = true ∧
        x.name? = some n ∧ k = Key.withinGroup s.columns.date n := by
    intro f as ha hf h
    unfold Key.ofGroup at h
    split at h
    · cases h
    · split at h
      · rename_i n hn
        exact ⟨f, _, _, n, ha, hf, hn, (Except.ok.inj h).symm⟩
      · cases h
  unfold Setting.rule Key.ofRoot at h
  split at h
  · unfold Key.ofOperator at h
    split at h
    · rename_i hnaming
      split at h
      · exact Or.inr (Or.inl (Except.ok.inj h).symm)
      · exact Or.inr (Or.inr (Or.inl (Except.ok.inj h).symm))
      · rename_i hletters
        refine Or.inr (Or.inr (Or.inr (hgroup rfl ?_ h)))
        simp [hnaming, Naming.isWithinGroup, hletters]
      · exact Or.inl (Except.ok.inj h).symm
      · cases h
    · rename_i hnaming
      split at h
      · exact Or.inr (Or.inl (Except.ok.inj h).symm)
      split at h
      · exact Or.inr (Or.inr (Or.inl (Except.ok.inj h).symm))
      split at h
      · rename_i htime hmarket hlisted
        refine Or.inr (Or.inr (Or.inr (hgroup rfl ?_ h)))
        simp [hnaming, Naming.isWithinGroup, htime, hmarket, hlisted]
      · exact Or.inl (Except.ok.inj h).symm
  · exact Or.inl (Except.ok.inj h).symm

/-- A key that begins as that of whole columns is that key. -/
theorem eq_plain_of_rule {a : Expr} {k : Key} (h : s.rule a = .ok k) (hk : k.head? = some "cl") :
    k = Key.plain := by
  rcases rule_cases h with hplain | rfl | rfl | ⟨_, _, _, _, _, _, _, rfl⟩
  · exact hplain
  · simp [Key.overTime] at hk
  · simp [Key.acrossMarket] at hk
  · simp [Key.withinGroup] at hk

/-- The sole key of an expression is that of one of its operators, unless it is that of whole
columns. -/
theorem mem_keysWithin_of_soleKey {e : Expr} {m : Met} {ks : List Key} {k : Key}
    (hsplit : split s.rule e = (m, .ok ks)) (hsole : soleKey ks = .ok k) :
    k = Key.plain ∨ k ∈ keysWithin s.rule e := by
  obtain ⟨hs, hks, _⟩ := splits_of_split hsplit
  unfold soleKey at hsole
  split at hsole
  · exact Or.inl (Except.ok.inj hsole).symm
  · cases hsole
    exact Or.inr (outerKeys_subset hs k (by rw [hks]; exact List.mem_singleton_self k))
  · cases hsole

theorem eq_plain_of_soleKey {e : Expr} {m : Met} {ks : List Key} {k : Key}
    (hsplit : split s.rule e = (m, .ok ks)) (hsole : soleKey ks = .ok k)
    (hk : k.head? = some "cl") : k = Key.plain := by
  rcases mem_keysWithin_of_soleKey hsplit hsole with hplain | hmem
  · exact hplain
  · obtain ⟨a, _, ha⟩ := List.mem_flatMap.mp hmem
    exact eq_plain_of_rule (mem_ownKey.mp ha).1 hk

namespace Graph

open Formula (Value)

variable {rebuild : Rebuild} {bs : List (Slot × Value)} {g g' : Graph} {kinds : String → Key → Prop}
  {label : String → Key} {r : String → Nat}

/-! ## Columns of a kind -/

/-- Every column has grouped operators of the keys of its kind only, and its operators within groups
are grouped by given columns, which are not computed. -/
structure Kinded (s : Setting) (given : String → Prop) (kinds : String → Key → Prop) (g : Graph) :
    Prop where
  planned : Planned g
  computed : ∀ v, g.pred v ≠ [] → ¬ given v
  kind : ∀ v e, g.exprOf v = some e → (kindStock s given (kinds v)).Supplies e

/-- Inlining a column keeps all kinds where the keys of its own are among those of the columns that
it occurs in. -/
theorem Kinded.inlined (hb : Expr.BringsNothing rebuild.always) (h : Kinded s given kinds g)
    {p : String} {e : Expr} (hi : Inlined rebuild g p e g')
    (hkeys : ∀ w ∈ g.succ p, ∀ d, g.exprOf w = some d → p ∈ d.symbols →
      ∀ k, kinds p k → k = Key.plain ∨ kinds w k) : Kinded s given kinds g' := by
  refine ⟨hi.planned h.planned, fun v hv => h.computed v (hi.pred_ne_nil_of hv), fun w d' hd' => ?_⟩
  obtain ⟨hw, hne⟩ := (hi.vertices w).mp (mem_vertices_of_exprOf hd')
  obtain ⟨d, hd⟩ := h.planned.exprOf w hw
  rw [hi.exprOf hne hd] at hd'
  cases hd'
  have hkind := h.kind w d hd
  by_cases hs : w ∈ g.succ p
  · rw [if_pos hs]
    by_cases hp : p ∈ d.symbols
    · exact supplies_kindStock_putFor hb (h.computed p hi.pred_ne_nil)
        (supplies_kindStock_mono (hkeys w hs d hd hp) (h.kind p e hi.expr)) hkind
    · rw [Expr.putFor_of_not_mem _ _ hp]
      exact hkind
  · rw [if_neg hs]
    exact hkind

theorem Kinded.keeps (h : Kinded s given kinds g) (hk : Digraph.Keeps g g') :
    Kinded s given kinds g' := by
  refine ⟨h.planned.keeps hk, fun v hv => ?_, fun v e he => ?_⟩
  · obtain ⟨u, hu⟩ := Digraph.exists_mem_of_pred_ne_nil hv
    exact h.computed v (Digraph.pred_ne_nil_of_mem ((hk.edges (u, v)).mp hu).1)
  · rw [exprOf, hk.attributes v (mem_vertices_of_exprOf he)] at he
    exact h.kind v e he

/-! ## One key for each column -/

/-- The key of a column; whole columns where there is none. -/
def labelOf (g : Graph) (v : String) : Key := (g.keyOf v).getD Key.plain

/-- The kinds of columns that have one key each. -/
abbrev kindsOf (label : String → Key) (v : String) (k : Key) : Prop := k = label v

/-- Between columns of one key each, the one that is inlined has the key of the other or is computed
on whole columns. -/
theorem kindsOf_le {p w : String} (h : label p = Key.plain ∨ label p = label w) :
    ∀ k, kindsOf label p k → k = Key.plain ∨ kindsOf label w k := by
  rintro k rfl
  exact h

theorem oneKind_iff {v : String} : OneKind s g v ↔
    ∃ e ∈ g.exprOf v, ∃ k ∈ g.keyOf v, Homogeneous s.rule k e := by
  constructor
  · rintro ⟨c, e, k, hc, hx, hk, hom⟩
    exact ⟨e, (exprOf_eq_some_iff g v e).mpr ⟨c, hc, hx⟩, k, (keyOf_eq hc).trans hk, hom⟩
  · rintro ⟨e, he, k, hk, hom⟩
    obtain ⟨c, hc, hx⟩ := (exprOf_eq_some_iff g v e).mp he
    exact ⟨c, e, k, hc, hx, (keyOf_eq hc).symm.trans hk, hom⟩

instance {v : String} : Decidable (OneKind s g v) := decidable_of_iff _ oneKind_iff.symm

theorem labelOf_eq {v : String} {k : Key} (hk : g.keyOf v = some k) : g.labelOf v = k := by
  rw [labelOf, hk, Option.getD_some]

/-- The key of a classified column is the sole one of its expression. -/
theorem Classified.split_exprOf {v : String} {e : Expr} (h : Classified s g v)
    (he : g.exprOf v = some e) : ∃ m ks k, split s.rule e = (m, .ok ks) ∧ soleKey ks = .ok k ∧
      g.keyOf v = some k := by
  obtain ⟨c, d, m, ks, k, hc, hx, hsplit, hsole, hk, _⟩ := h
  have hd := (exprOf_eq_some_iff g v d).mpr ⟨c, hc, hx⟩
  rw [he] at hd
  cases hd
  exact ⟨m, ks, k, hsplit, hsole, (keyOf_eq hc).trans hk⟩

/-- A started plan of columns of one kind, in which operators within groups are grouped by given
columns. -/
theorem Started.kinded (h : Started s bs g) (hkind : ∀ v ∈ g.vertices, OneKind s g v)
    (hgrouped : ∀ v e, g.exprOf v = some e → GroupedBy s (· ∈ g.sources) e) :
    Kinded s (· ∈ g.sources) (kindsOf g.labelOf) g := by
  refine ⟨h.planned, fun v hv hs => hv ((g.mem_sources v).mp hs).2, fun v e he => ?_⟩
  have hv := mem_vertices_of_exprOf he
  obtain ⟨d, hd, k, hk, hom⟩ := oneKind_iff.mp (hkind v hv)
  obtain rfl : e = d := Option.some.inj (he.symm.trans hd)
  obtain ⟨m, ks, _, hsplit, _⟩ := (h.classified v hv).split_exprOf he
  exact supplies_kindStock_iff.mpr ⟨(splits_of_split hsplit).1,
    fun j hj => (hom j hj).trans (labelOf_eq hk).symm, hgrouped v e he⟩

/-! ## Taking in what nothing else uses -/

/-- A step that inlines a column only where one other at most uses it, and the condition holds. -/
def TakesIn (rebuild : Rebuild) (cond : Graph → String → Prop)
    (f : Graph → String → Graph × Except PlanError Unit) : Prop :=
  ∀ g p, Planned g → (f g p).1 = g ∨
    ∃ e, Inlined rebuild g p e (f g p).1 ∧ (g.succ p).length ≤ 1 ∧ cond g p

theorem inline_takesIn (hg : Planned g) {p : String}
    (hs : (g.succ p).length ≤ 1) {c : Prop} (hc : c) :
    (inline rebuild.always g p).1 = g ∨ ∃ e, Inlined rebuild g p e (inline rebuild.always g p).1 ∧
      (g.succ p).length ≤ 1 ∧ c := by
  rcases inline_cases rebuild hg p with ⟨_, hi⟩ | ⟨_, hi⟩ | ⟨_, e, g', hi, hin⟩
  · exact Or.inl (by rw [hi])
  · exact Or.inl (by rw [hi])
  · exact Or.inr ⟨e, by rw [hi]; exact hin, hs, hc⟩

theorem absorb_takesIn (rebuild : Rebuild) (key : Key) (symbols : List String) :
    TakesIn rebuild (fun g p => g.keyOf p = some key) (absorb rebuild.always key symbols) := by
  intro g p hg
  unfold absorb
  split
  · exact Or.inl rfl
  split
  · exact Or.inl rfl
  rename_i d hd
  split
  · rename_i k _ hk _
    split
    · rename_i hsame
      exact inline_takesIn hg hsame.2.le ((keyOf_eq hd).trans (hk.trans (hsame.1 ▸ rfl)))
    · exact Or.inl rfl
  · exact Or.inl rfl

theorem inlineUnshared_takesIn (rebuild : Rebuild) :
    TakesIn rebuild (fun _ _ => True) (inlineUnshared rebuild.always) := by
  intro g p hg
  unfold inlineUnshared
  split
  · exact Or.inl rfl
  · rename_i hs
    exact inline_takesIn hg (Nat.le_of_not_lt hs) trivial

/-- Taking in predecessors of a column one after the other keeps what each such step keeps. Each
is inlined into that column only; what is there in the end was there after every step. -/
theorem forEach_takesIn {rebuild : Rebuild} {cond : Graph → String → Prop}
    {f : Graph → String → Graph × Except PlanError Unit} (hf : TakesIn rebuild cond f) {v : String}
    {last : Graph} (P : Graph → Prop)
    (hstep : ∀ g p e g', Planned g → g.Ranked r → P g → Inlined rebuild g p e g' →
      g.succ p = [v] → cond g p → (∀ w ∈ last.vertices, w ∈ g'.vertices) → P g')
    {ps : List String} (hnd : ps.Nodup) (hps : ∀ p ∈ ps, (p, v) ∈ g.edges) (hg : Planned g)
    (hr : g.Ranked r) (h : P g) (hlast : (forEach f g ps).1 = last) : P last := by
  have hinl : ∀ g p, Planned g → Inlining rebuild g (f g p).1 := by
    intro g p hg
    rcases hf g p hg with heq | ⟨e, hi, _⟩
    · rw [heq]; exact Relation.ReflTransGen.refl
    · exact Relation.ReflTransGen.single ⟨p, e, hi⟩
  induction ps generalizing g with
  | nil => exact hlast ▸ h
  | cons p ps ih =>
    obtain ⟨hp, hnd⟩ := List.nodup_cons.mp hnd
    obtain ⟨hpv, hps⟩ := List.forall_mem_cons.mp hps
    have hplanned := (hinl g p hg).planned hg
    have hranked := (hinl g p hg).ranked hr
    -- whether or not the step fails, the rest of the run only inlines
    have hrest : ∀ w ∈ last.vertices, w ∈ (f g p).1.vertices := by
      unfold forEach at hlast
      split at hlast
      · rename_i g₁ hfp
        rw [hfp] at hplanned ⊢
        rw [← hlast]
        have hrun := forEach_keeps (Inlining rebuild g₁)
          (fun g' q hg' => hg'.trans (hinl g' q (hg'.planned hplanned))) Relation.ReflTransGen.refl ps
        exact hrun.vertices
      · rename_i hfp
        rw [hfp, ← hlast]
        exact fun _ hw => hw
    have hkept : P (f g p).1 ∧ ∀ q ∈ ps, (q, v) ∈ (f g p).1.edges := by
      rcases hf g p hg with heq | ⟨e, hi, hlen, hc⟩
      · rw [heq]; exact ⟨h, hps⟩
      · have hsucc : g.succ p = [v] := by
          obtain ⟨w, hw⟩ := List.length_eq_one_iff.mp
            (Nat.le_antisymm hlen (List.length_pos_iff.mpr hi.succ_ne_nil))
          have hmem := (Digraph.mem_succ g p v).mpr hpv
          rw [hw] at hmem ⊢
          rw [List.mem_singleton.mp hmem]
        refine ⟨hstep g p e _ hg hr h hi hsucc hc hrest, fun q hq => (hi.edges q v).mpr
          ⟨Or.inl (hps q hq), fun hqp => hp (hqp ▸ hq), ?_⟩⟩
        rintro rfl
        exact Nat.lt_irrefl _ (hr _ hpv)
    unfold forEach at hlast
    split at hlast
    · rename_i hfp
      rw [hfp] at hplanned hranked hkept
      exact ih hnd hkept.2 hplanned hranked hkept.1 hlast
    · rename_i hfp
      rw [hfp] at hkept
      exact hlast ▸ hkept.1

/-! ## Merging with neighbours -/

/-- The labels are the keys of the columns. -/
def Labelled (label : String → Key) (g : Graph) : Prop :=
  ∀ v ∈ g.vertices, g.keyOf v = some (label v) ∧
    ((label v).head? = some "cl" → label v = Key.plain)

theorem Started.labelled (h : Started s bs g) : Labelled g.labelOf g := by
  intro v hv
  obtain ⟨e, he⟩ := h.planned.exprOf v hv
  obtain ⟨m, ks, k, hsplit, hsole, hk⟩ := (h.classified v hv).split_exprOf he
  rw [labelOf_eq hk]
  exact ⟨hk, eq_plain_of_soleKey hsplit hsole⟩

theorem Labelled.keeps (h : Labelled label g) (hk : Digraph.Keeps g g') : Labelled label g' := by
  intro v hv
  rw [keyOf, hk.attributes v hv]
  exact h v (hk.vertices v hv)

theorem Labelled.inlined (h : Labelled label g) {p : String} {e : Expr}
    (hi : Inlined rebuild g p e g') : Labelled label g' := by
  intro v hv
  obtain ⟨hv, hne⟩ := (hi.vertices v).mp hv
  obtain ⟨c, hc⟩ := (Digraph.mem_vertices_iff g v).mp hv
  obtain ⟨c', hc', _, hk, _⟩ := hi.get?_cases hne hc
  rw [keyOf_eq hc', hk, ← keyOf_eq hc]
  exact h v hv

/-- Merging a column with its neighbours keeps all kinds. -/
theorem mergeNode_kinded (hb : Expr.BringsNothing rebuild.always) (hr : g.Ranked r)
    (h : Kinded s given (kindsOf label) g) (hl : Labelled label g) (v : String) :
    Kinded s given (kindsOf label) (mergeNode rebuild.always g v).1 := by
  unfold mergeNode
  split
  · exact h
  rename_i c hc
  dsimp only
  split
  · exact h
  split
  · rename_i key e symbols hk _ _
    have hv := (Digraph.mem_vertices_iff g v).mpr ⟨c, hc⟩
    have hkey : label v = key := by
      have hlv := (hl v hv).1
      rw [keyOf_eq hc, hk] at hlv
      exact (Option.some.inj hlv).symm
    split
    · -- what is computed on whole columns goes into columns of any kind
      rename_i hplain
      split
      · rcases inline_cases rebuild h.planned v with ⟨_, hi⟩ | ⟨_, hi⟩ | ⟨_, e, g', hi, hin⟩
        · rw [hi]; exact h
        · rw [hi]; exact h
        · rw [hi]
          exact h.inlined hb hin fun _ _ _ _ _ => kindsOf_le (Or.inl ((hl v hv).2 (hkey ▸ hplain)))
      · exact h
    · -- what is grouped takes in only what has the same key
      refine (forEach_takesIn (r := r) (absorb_takesIn rebuild key symbols) (v := v)
        (fun g => Kinded s given (kindsOf label) g ∧ Labelled label g) ?_
        (h.planned.wellFormed.nodup_pred v) (fun p hp => (Digraph.mem_pred g p v).mp hp)
        h.planned hr ⟨h, hl⟩ rfl).1
      rintro g₁ p e g₂ _ _ ⟨hk₁, hl₁⟩ hi hsucc hpkey _
      refine ⟨hk₁.inlined hb hi fun w hw _ _ _ => kindsOf_le (Or.inr ?_), hl₁.inlined hi⟩
      rw [hsucc, List.mem_singleton] at hw
      obtain ⟨u, hu⟩ := Digraph.exists_mem_of_pred_ne_nil hi.pred_ne_nil
      have hlp := (hl₁ p (hk₁.planned.wellFormed.snd_mem _ hu)).1
      rw [hpkey] at hlp
      rw [hw, hkey]
      exact (Option.some.inj hlp).symm
  · exact h

/-- **The first pass mixes no groups.** -/
theorem mergeColumns_kinded (hb : Expr.BringsNothing rebuild.always)
    (order : List String → List String) (hr : g.Ranked r) (h : Kinded s given (kindsOf label) g)
    (hl : Labelled label g) (starts : List String) :
    Kinded s given (kindsOf label) (mergeColumns rebuild.always order g starts).1 := by
  refine (mergeColumns_keeps rebuild.always
    (fun g => g.Ranked r ∧ Kinded s given (kindsOf label) g ∧ Labelled label g) ?_ order ⟨hr, h, hl⟩
    starts).2.1
  rintro g v ⟨hr, h, hl⟩
  have hrun := mergeNode_inlining rebuild h.planned v
  exact ⟨hrun.ranked hr, mergeNode_kinded hb hr h hl v,
    hrun.keeps (Labelled label) (fun _ _ _ _ hi hl => hl.inlined hi) hl⟩

/-! ## Finding the groups again -/

/-- What finding the groups gives for a column with a label: the column is of one kind, and its key
is the label or, where no grouped operator is left, that of whole columns. -/
def KeptKind (s : Setting) (label : String → Key) (g : Graph) (v : String) : Prop :=
  OneKind s g v ∧ (g.keyOf v = some (label v) ∨
    (g.keyOf v = some Key.plain ∧ ∃ e, g.exprOf v = some e ∧ keysWithin s.rule e = []))

/-- The sole key of a labelled column. -/
theorem Kinded.sole (h : Kinded s given (kindsOf label) g) {v : String} {e : Expr}
    (he : g.exprOf v = some e) : ∃ m ks k, split s.rule e = (m, .ok ks) ∧ soleKey ks = .ok k ∧
      Homogeneous s.rule k e ∧ (k = label v ∨ (k = Key.plain ∧ keysWithin s.rule e = [])) := by
  obtain ⟨hs, hom, _⟩ := supplies_kindStock_iff.mp (h.kind v e he)
  obtain ⟨m, ks, k, hsplit, _, hk, homk, hplain⟩ := Homogeneous.sole hom hs
  refine ⟨m, ks, k, hsplit, hk, homk, ?_⟩
  -- a grouped operator has both the label and the sole key
  cases hwithin : keysWithin s.rule e with
  | nil => exact Or.inr ⟨hplain hwithin, rfl⟩
  | cons j js =>
    have hj : j ∈ keysWithin s.rule e := by rw [hwithin]; exact List.mem_cons_self
    exact Or.inl ((homk j hj).symm.trans (hom j hj))

/-- Finding the groups of labelled columns goes through and keeps their kinds. -/
theorem Kinded.classifyAll (h : Kinded s given (kindsOf label) g) (hrest : g.generations.2 = []) :
    ∃ g', Graph.classifyAll s g = (g', .ok ()) ∧ ∀ v ∈ g'.vertices, KeptKind s label g' v := by
  have hok : (Graph.classifyAll s g).2 = .ok () := by
    cases hc : (Graph.classifyAll s g).2 with
    | ok u => rfl
    | error x =>
      rcases classifyAll_error h.planned.wellFormed hc with ⟨_, hne⟩ | ⟨v, hv, hx⟩
      · exact absurd hrest hne
      · obtain ⟨c, e, _, _, hget, hce, _⟩ := h.planned.known v hv
        obtain ⟨m, ks, k, hsplit, hk, _⟩ := h.sole ((exprOf_eq_some_iff g v e).mpr ⟨c, hget, hce⟩)
        simp only [hget, Option.bind_some, hce, classOf, hsplit, hk] at hx
        cases hx
  have hrun : Graph.classifyAll s g = ((Graph.classifyAll s g).1, .ok ()) := Prod.ext rfl hok
  have hsame := classifyAll_sameContent s g
  refine ⟨_, hrun, fun v hv => ?_⟩
  rw [hsame.vertices] at hv
  obtain ⟨e, he⟩ := h.planned.exprOf v hv
  obtain ⟨m, ks, k, hsplit, hk, hom, hcases⟩ := h.sole he
  have he' := (hsame.exprOf v).trans he
  obtain ⟨m', ks', k', hsplit', hk', hkey⟩ :=
    ((classifyAll_ok h.planned.wellFormed hrun).2 v hv).split_exprOf he'
  rw [hsplit] at hsplit'
  cases hsplit'
  rw [hk] at hk'
  cases hk'
  refine ⟨oneKind_iff.mpr ⟨e, he', k, hkey, hom⟩, ?_⟩
  rcases hcases with rfl | ⟨rfl, hnone⟩
  · exact Or.inl hkey
  · exact Or.inr ⟨hkey, e, he', hnone⟩

/-- A column with what finding the groups makes known of it. -/
def grouped (n : String) (e : Expr) (keys : List Key) (symbols : List String) (depth : Nat) :
    String × Column :=
  (n, { symbol := some (.expr (.symbol n)), expr := some (.expr e), keys := some keys,
        key := (soleKey keys).toOption, symbols := some symbols, depth := some depth })

end Graph

end Plan

end FactorPlan
