import FactorPlan.Plan.Bindings
import FactorPlan.Proofs.SymbolNames
import FactorPlan.Proofs.Values
import Mathlib.Data.List.Nodup
import Mathlib.Tactic.Choose

/-!
Bindings of factors. The parts that factors share are bound to names of their own, and the factors
to slots that their names stand for. A later binding takes the place of an earlier one, so there is
one binding for each part and each factor exactly where the slots are different from each other and
from the names of parts.

Where they are, what a factor is bound to, with the parts put in for their names (`unfolded`), has
the value of the factor (`bind_unfolds`). Of taking out parts it is assumed that it gives one
expression for each one, in their order, with parts under different names (`Sharing.Orderly`), and
of taking out and simplifying that they keep values. Taking out under numbered names is orderly
(`orderly_extract`). `names_share_slot` shows two factors of which one is lost.
-/

namespace FactorPlan

/-! ## Numbered names -/

namespace Sharing

variable {pre : String}

theorem freshName_eq (taken : List String) (fuel n : Nat) :
    ∃ m, n ≤ m ∧ freshName pre taken fuel n = (pre ++ toString m, m + 1) := by
  induction fuel generalizing n with
  | zero => exact ⟨n, Nat.le_refl n, rfl⟩
  | succ fuel ih =>
    rw [freshName]
    split
    · obtain ⟨m, hm, heq⟩ := ih (n + 1)
      exact ⟨m, by omega, heq⟩
    · exact ⟨n, Nat.le_refl n, rfl⟩

/-- The names of parts have numbers that grow, all below the next one. -/
def Numbered (pre : String) (s : Named) : Prop :=
  ∃ ns : List Nat, s.parts.map (·.1) = ns.map (fun n => pre ++ toString n) ∧ ns.Pairwise (· < ·) ∧
    ∀ n ∈ ns, n < s.next

theorem Numbered.settle {s : Named} (h : Numbered pre s) (o : Occurrences) (p : Pending) (e : Expr) :
    Numbered pre (settle o pre p e s).2 := by
  obtain ⟨ns, hnames, hgrow, hbelow⟩ := h
  unfold Sharing.settle
  split
  · obtain ⟨m, hm, hfresh⟩ := freshName_eq o.names o.names.length s.next
    rw [hfresh]
    refine ⟨ns ++ [m], by simp [hnames], ?_, ?_⟩
    · refine List.pairwise_append.mpr ⟨hgrow, List.pairwise_singleton _ m, fun n hn k hk => ?_⟩
      rw [List.mem_singleton.mp hk]
      exact Nat.lt_of_lt_of_le (hbelow n hn) hm
    · intro n hn
      rcases List.mem_append.mp hn with hn | hn
      · exact Nat.lt_succ_of_lt (Nat.lt_of_lt_of_le (hbelow n hn) hm)
      · rw [List.mem_singleton.mp hn]
        exact Nat.lt_succ_self m
  · exact ⟨ns, hnames, hgrow, hbelow⟩

theorem rebuildList_from (step : Named → Pending → Expr × Named) (s : Named) (ps : List Pending) (before : List Expr) :
    ps.foldl (fun acc p => (acc.1 ++ [(step acc.2 p).1], (step acc.2 p).2)) (before, s) =
      (before ++ (rebuildList step s ps).1, (rebuildList step s ps).2) := by
  induction ps generalizing s before with
  | nil => simp [rebuildList]
  | cons p ps ih =>
    have hone : rebuildList step s (p :: ps) = ([(step s p).1] ++ (rebuildList step (step s p).2 ps).1,
      (rebuildList step (step s p).2 ps).2) := ih (step s p).2 [(step s p).1]
    rw [List.foldl_cons, ih, hone]
    simp

theorem rebuildList_cons (step : Named → Pending → Expr × Named) (s : Named) (p : Pending) (ps : List Pending) :
    rebuildList step s (p :: ps) =
      ((step s p).1 :: (rebuildList step (step s p).2 ps).1, (rebuildList step (step s p).2 ps).2) :=
  rebuildList_from step (step s p).2 ps [(step s p).1]

theorem Numbered.rebuildList {step : Named → Pending → Expr × Named}
    (hstep : ∀ s p, Numbered pre s → Numbered pre (step s p).2) {s : Named} (h : Numbered pre s) (ps : List Pending) :
    Numbered pre (rebuildList step s ps).2 := by
  induction ps generalizing s with
  | nil => exact h
  | cons p ps ih =>
    rw [rebuildList_cons]
    exact ih (hstep s p h)

theorem length_rebuildList (step : Named → Pending → Expr × Named) (s : Named) (ps : List Pending) :
    (rebuildList step s ps).1.length = ps.length := by
  induction ps generalizing s with
  | nil => rfl
  | cons p ps ih => rw [rebuildList_cons, List.length_cons, ih, List.length_cons]

theorem Numbered.rebuildF {subs : Substitutes} {o : Occurrences} (fuel : Nat) {s : Named} (h : Numbered pre s)
    (p : Pending) : Numbered pre (rebuildF subs o pre fuel s p).2 := by
  induction fuel generalizing s p with
  | zero => cases p <;> exact h
  | succ fuel ih =>
    have hlist (ps : List Pending) := Numbered.rebuildList (fun s p h => ih h p) h ps
    cases p with
    | whole e =>
      rw [Sharing.rebuildF]
      split
      · exact h
      · split
        · exact h
        · split
          · exact (hlist _).settle _ _ _
          · exact (hlist _).settle _ _ _
    | held e op args =>
      rw [Sharing.rebuildF]
      split
      · exact h
      · exact (hlist _).settle _ _ _

/-- Parts have different names. -/
theorem nodup_partNames (pre : String) (es : List Expr) : ((extract pre es).parts.map (·.1)).Nodup := by
  obtain ⟨ns, hnames, hgrow, -⟩ : Numbered pre (rebuildList
      (rebuildF (substitutes (es.map prepare))
        (((es.map prepare).map Pending.whole).foldl
          (count (substitutes (es.map prepare)) (64 + 4 * Expr.sizeList (es.map prepare))) {})
        pre (64 + 4 * Expr.sizeList (es.map prepare))) {} ((es.map prepare).map Pending.whole)).2 :=
    Numbered.rebuildList (fun s p h => h.rebuildF _ p) ⟨[], rfl, .nil, by simp⟩ _
  have hparts : (extract pre es).parts.map (·.1) = ns.map (fun n => pre ++ toString n) := by
    rw [← hnames, extract]
    simp [Function.comp_def]
  rw [hparts]
  refine List.Nodup.map (fun n m h => ?_) (hgrow.imp Nat.ne_of_lt)
  have hdigits : Nat.toDigits 10 n = Nat.toDigits 10 m := by
    have hchars := congrArg String.toList h
    simpa [Nat.toList_repr] using hchars
  simpa using congrArg (fun ds => Nat.ofDigitChars 10 ds 0) hdigits

/-- There is an expression over the parts for each one given. -/
theorem length_exprs (pre : String) (es : List Expr) : (extract pre es).exprs.length = es.length := by
  simp [extract, length_rebuildList]

/-- There are parts under different names, and an expression over them for each one given. -/
structure Orderly (share : List Expr → Shared) : Prop where
  nodup : ∀ es, ((share es).parts.map (·.1)).Nodup
  length : ∀ es, (share es).exprs.length = es.length

theorem orderly_extract (pre : String) : Orderly (extract pre) :=
  ⟨nodup_partNames pre, length_exprs pre⟩

end Sharing

/-! ## Unfolding -/

namespace Plan

open Formula (Value)

universe u

variable {D : Type u} {A : Interpretation D}

/-- Puts parts into an expression for their names. The last part goes first, since a part may use
those before it. -/
def unfolded (parts : List (String × Expr)) (e : Expr) : Expr :=
  parts.foldr (fun p d => Expr.putFor Expr.withArgs p.1 p.2 d) e

/-- The columns together with the parts, each with the value that it has over those before it. -/
def withParts (A : Interpretation D) (ρ : String → D) (parts : List (String × Expr)) : String → D :=
  parts.foldl (fun ρ p => Function.update ρ p.1 (p.2.eval A ρ)) ρ

theorem eval_unfolded (parts : List (String × Expr)) (e : Expr) (ρ : String → D) :
    (unfolded parts e).eval A ρ = e.eval A (withParts A ρ parts) := by
  have hfaithful : A.Faithful (Rebuild.always Expr.withArgs) := by
    intro ρ e us d he hlen hd
    cases hd
    rfl
  induction parts generalizing ρ with
  | nil => rfl
  | cons p parts ih =>
    rw [unfolded, List.foldr_cons, Expr.eval_putFor hfaithful]
    exact ih _

theorem withParts_simplify {simplify : Expr → Expr} {parts : List (String × Expr)}
    (h : ∀ p ∈ parts, ∀ ρ, (simplify p.2).eval A ρ = p.2.eval A ρ) (ρ : String → D) :
    withParts A ρ (parts.map fun p => (p.1, simplify p.2)) = withParts A ρ parts := by
  induction parts generalizing ρ with
  | nil => rfl
  | cons p parts ih =>
    have hhead := h p List.mem_cons_self ρ
    have htail := ih (fun q hq => h q (List.mem_cons_of_mem p hq)) (Function.update ρ p.1 (p.2.eval A ρ))
    simp only [withParts, List.map_cons, List.foldl_cons] at htail ⊢
    rw [hhead]
    exact htail

/-- Extracting parts keeps values: each expression over the parts, with the parts put in, has the
value of the expression it came from. -/
def KeepsValues (A : Interpretation D) (shared : Sharing.Shared) (es : List Expr) : Prop :=
  ∀ ρ, (shared.exprs.map (unfolded shared.parts)).map (Expr.eval A ρ) = es.map (Expr.eval A ρ)

/-! ## Entries -/

theorem slots_cons {n : String} {names : List String} {ts : List Slot} (h : slots (n :: names) = .ok ts) :
    ∃ t rest, Slot.ofName n = .ok t ∧ slots names = .ok rest ∧ ts = t :: rest := by
  unfold slots at h
  cases ht : Slot.ofName n with
  | error x => rw [ht] at h; cases h
  | ok t =>
    cases hrest : slots names with
    | error x => rw [ht, hrest] at h; cases h
    | ok rest =>
      rw [ht, hrest] at h
      cases h
      exact ⟨t, rest, rfl, rfl, rfl⟩

theorem length_slots {names : List String} {ts : List Slot} (h : slots names = .ok ts) : ts.length = names.length := by
  induction names generalizing ts with
  | nil => cases h; rfl
  | cons n names ih =>
    obtain ⟨t, rest, _, hrest, rfl⟩ := slots_cons h
    rw [List.length_cons, List.length_cons, ih hrest]

theorem slots_getElem? {names : List String} {ts : List Slot} (h : slots names = .ok ts) {i : Nat} {n : String}
    (hn : names[i]? = some n) : ∃ t, ts[i]? = some t ∧ Slot.ofName n = .ok t := by
  induction names generalizing ts i with
  | nil => simp at hn
  | cons m names ih =>
    obtain ⟨t, rest, ht, hrest, rfl⟩ := slots_cons h
    cases i with
    | zero =>
      obtain rfl : m = n := by simpa using hn
      exact ⟨t, rfl, ht⟩
    | succ i => exact ih hrest (by simpa using hn)

theorem expressions_map (es : List Expr) : expressions (es.map .expr) = .ok es := by
  induction es with
  | nil => rfl
  | cons e es ih =>
    rw [List.map_cons, expressions, ih]
    rfl

/-- What is bound, before later bindings take the place of earlier ones. -/
def entries (simplify : Expr → Expr) (shared : Sharing.Shared) (ts : List Slot) : List (Slot × Expr) :=
  shared.parts.map (fun p => (Slot.column p.1, simplify p.2)) ++
    ts.zip ((shared.exprs.drop (shared.exprs.length - ts.length)).map simplify)

theorem bind_eq {share : List Expr → Sharing.Shared} {simplify : Expr → Expr} {merged : List Value} {es : List Expr}
    (hes : expressions merged = .ok es) {names : List String} {ts : List Slot} (hts : slots names = .ok ts)
    (hne : names ≠ []) :
    Plan.bind share simplify merged names = .ok (Table.ofList (entries simplify (share es) ts)) := by
  have hempty : names.isEmpty = false := by simpa using hne
  unfold Plan.bind
  rw [hes, hts]
  simp only [hempty, Bool.false_eq_true, if_false, entries, length_slots hts, List.map_append, List.map_map,
    List.zip_map_right]
  rfl

/-- The slots of the factors are different from each other and from the names of the parts. -/
def Apart (shared : Sharing.Shared) (ts : List Slot) : Prop :=
  ts.Nodup ∧ ∀ p ∈ shared.parts, Slot.column p.1 ∉ ts

section Entries

variable {simplify : Expr → Expr} {shared : Sharing.Shared} {ts : List Slot}

theorem keys_entries (hlength : ts.length ≤ shared.exprs.length) :
    (entries simplify shared ts).map (·.1) =
      shared.parts.map (fun p => Slot.column p.1) ++ ts := by
  have hzip : ts.length ≤ ((shared.exprs.drop
      (shared.exprs.length - ts.length)).map simplify).length := by
    rw [List.length_map, List.length_drop]
    omega
  rw [entries, List.map_append, List.map_fst_zip hzip, List.map_map]
  rfl

theorem length_entries (hlength : ts.length ≤ shared.exprs.length) :
    (entries simplify shared ts).length = shared.parts.length + ts.length := by
  have hkeys : (entries simplify shared ts).map (·.1) =
      shared.parts.map (fun p => Slot.column p.1) ++ ts := keys_entries hlength
  have hlengths := congrArg List.length hkeys
  rwa [List.length_map, List.length_append, List.length_map] at hlengths

theorem nodup_keys_entries (hnodup : (shared.parts.map (·.1)).Nodup)
    (hlength : ts.length ≤ shared.exprs.length) :
    ((entries simplify shared ts).map (·.1)).Nodup ↔ Apart shared ts := by
  have hparts : (shared.parts.map (fun p => Slot.column p.1)).Nodup := by
    rw [← Function.comp_def Slot.column (fun p : String × Expr => p.1), ← List.map_map]
    exact hnodup.map fun m n h => Slot.column.inj h
  rw [keys_entries hlength, List.nodup_append]
  constructor
  · rintro ⟨-, hts, happart⟩
    exact ⟨hts, fun p hp hmem => happart _ (List.mem_map_of_mem hp) _ hmem rfl⟩
  · rintro ⟨hts, happart⟩
    refine ⟨hparts, hts, fun t ht t' ht' heq => ?_⟩
    obtain ⟨p, hp, rfl⟩ := List.mem_map.mp ht
    exact happart p hp (heq ▸ ht')

/-- The parts among bindings: what is bound to a column that belongs to no factor. -/
def partsAmong (ts : List Slot) (b : Bindings) : List (String × Expr) :=
  b.filterMap fun p => match p.1 with
    | .column n => if Slot.column n ∈ ts then none else some (n, p.2)
    | .columns _ => none

theorem partsAmong_entries (h : Apart shared ts) :
    partsAmong ts (entries simplify shared ts) =
      shared.parts.map fun p => (p.1, simplify p.2) := by
  have hfactors (ds : List Expr) : partsAmong ts (ts.zip ds) = [] := by
    refine List.filterMap_eq_nil_iff.mpr fun p hp => ?_
    obtain ⟨t, d⟩ := p
    have hmem : t ∈ ts := (List.of_mem_zip hp).1
    cases t with
    | column n => simp [hmem]
    | columns ns => rfl
  have hparts : partsAmong ts (shared.parts.map fun p => (Slot.column p.1, simplify p.2)) =
      shared.parts.map fun p => (p.1, simplify p.2) := by
    rw [partsAmong, List.filterMap_map, ← List.filterMap_eq_map]
    refine List.filterMap_congr fun p hp => ?_
    simp [h.2 p hp]
  have happend (b b' : Bindings) : partsAmong ts (b ++ b') = partsAmong ts b ++ partsAmong ts b' :=
    List.filterMap_append
  rw [entries, happend, hfactors, hparts, List.append_nil]

/-- The last expressions are those of the factors, in their order. -/
theorem exists_entry {ps values : List Expr}
    (hcount : shared.exprs.length = ps.length + values.length) (hlength : ts.length = values.length)
    (hsimplify : ∀ e ∈ shared.parts.map (·.2) ++ shared.exprs, ∀ ρ, (simplify e).eval A ρ = e.eval A ρ)
    (hkeeps : KeepsValues A shared (ps ++ values)) {i : Nat} {t : Slot} {e : Expr} (ht : ts[i]? = some t)
    (he : values[i]? = some e) : ∃ d, (t, d) ∈ entries simplify shared ts ∧
      ∀ ρ, (unfolded (shared.parts.map fun p => (p.1, simplify p.2)) d).eval A ρ = e.eval A ρ := by
  have hdrop : shared.exprs.length - ts.length = ps.length := by omega
  have hat : (ps ++ values)[ps.length + i]? = some e := by
    rw [List.getElem?_append_right (Nat.le_add_right _ _), Nat.add_sub_cancel_left]
    exact he
  obtain ⟨d, hd⟩ : ∃ d, shared.exprs[ps.length + i]? = some d := by
    have hbound : i < values.length := (List.getElem?_eq_some_iff.mp he).1
    exact ⟨_, List.getElem?_eq_getElem (by omega)⟩
  have hvalue (ρ : String → D) : (unfolded shared.parts d).eval A ρ = e.eval A ρ := by
    have h : ((shared.exprs.map (unfolded shared.parts)).map (Expr.eval A ρ))[ps.length + i]? =
        ((ps ++ values).map (Expr.eval A ρ))[ps.length + i]? := by rw [hkeeps ρ]
    rw [List.getElem?_map, List.getElem?_map, List.getElem?_map, hd, hat] at h
    exact Option.some.inj h
  refine ⟨simplify d, List.mem_append_right _ (List.mem_of_getElem? (i := i) ?_), fun ρ => ?_⟩
  · rw [List.getElem?_zip_eq_some, List.getElem?_map, List.getElem?_drop, hdrop, hd]
    exact ⟨ht, rfl⟩
  · have hparts : ∀ p ∈ shared.parts, ∀ ρ, (simplify p.2).eval A ρ = p.2.eval A ρ := fun p hp =>
      hsimplify p.2 (List.mem_append_left _ (List.mem_map_of_mem hp))
    have hlast := hsimplify d (List.mem_append_right _ (List.mem_of_getElem? hd))
    calc (unfolded (shared.parts.map fun p => (p.1, simplify p.2)) (simplify d)).eval A ρ
        = (simplify d).eval A (withParts A ρ shared.parts) := by rw [eval_unfolded, withParts_simplify hparts]
      _ = d.eval A (withParts A ρ shared.parts) := hlast _
      _ = (unfolded shared.parts d).eval A ρ := (eval_unfolded _ _ ρ).symm
      _ = e.eval A ρ := hvalue ρ

end Entries

/-! ## Factors -/

theorem merge_eq {s : Setting} {simplify : Expr → Expr} {factors : Table String Value} {merged : List Value}
    {syms : List String} (h : merge s simplify factors = .ok (merged, syms)) :
    ∃ ps : List Expr, merged = ps.map .expr ++ factors.map (·.2) := by
  unfold merge at h
  split at h
  · cases h
  · cases hm : partsOfAll s simplify (factors.map (·.2)) with
    | error x => rw [hm] at h; cases h
    | ok m =>
      rw [hm] at h
      cases h
      exact ⟨_, rfl⟩

/-- A name that is read as one symbol, the one with this name. -/
def IsSymbolName (n : String) : Prop :=
  n ≠ "" ∧ ∀ c ∈ n.toList, c ∉ [',', ':', '\\'] ∧ Text.isSpace c = false

instance (n : String) : Decidable (IsSymbolName n) :=
  @instDecidableAnd _ _ inferInstance (List.decidableBAll _ n.toList)

theorem ofName_of_isSymbolName {n : String} (h : IsSymbolName n) : Slot.ofName n = .ok (.column n) :=
  (ofName_eq_self_iff n).mpr ⟨h.1, fun c hc =>
    ⟨fun heq => (h.2 c hc).1 (by simp [heq]), fun heq => (h.2 c hc).1 (by simp [heq]), (h.2 c hc).2⟩⟩

theorem slots_of_isSymbolName {names : List String} (h : ∀ n ∈ names, IsSymbolName n) :
    slots names = .ok (names.map .column) := by
  induction names with
  | nil => rfl
  | cons n names ih =>
    rw [slots, ofName_of_isSymbolName (h n List.mem_cons_self), ih fun m hm => h m (List.mem_cons_of_mem n hm)]
    rfl

/-- Names that are read as symbols are apart if they differ from each other and from those of parts. -/
theorem apart_of_isSymbolName {shared : Sharing.Shared} {names : List String} {ts : List Slot}
    (hts : slots names = .ok ts) (hplain : ∀ n ∈ names, IsSymbolName n) (hnodup : names.Nodup)
    (hfresh : ∀ p ∈ shared.parts, p.1 ∉ names) : Apart shared ts := by
  rw [slots_of_isSymbolName hplain] at hts
  cases hts
  refine ⟨hnodup.map fun m n h => Slot.column.inj h, fun p hp hmem => ?_⟩
  obtain ⟨n, hn, heq⟩ := List.mem_map.mp hmem
  exact hfresh p hp (Slot.column.inj heq ▸ hn)

/-- The expressions of factors, each at the place of its name. -/
theorem exists_values {factors : Table String Value} (hexprs : ∀ p ∈ factors, ∃ e, p.2 = Value.expr e) :
    ∃ values : List Expr, factors.map (·.2) = values.map Value.expr ∧ values.length = factors.length ∧
      ∀ k e, (k, Value.expr e) ∈ factors → ∃ i : Nat, factors.keys[i]? = some k ∧ values[i]? = some e := by
  choose! f hf using hexprs
  refine ⟨factors.map f, ?_, List.length_map _, fun k e hk => ?_⟩
  · rw [List.map_map]
    exact List.map_congr_left hf
  · obtain ⟨i, hi⟩ := List.getElem?_of_mem hk
    have hvalue : f (k, Value.expr e) = e := (Value.expr.inj (hf _ hk)).symm
    refine ⟨i, ?_, ?_⟩
    · rw [Table.keys, List.getElem?_map, hi]
      rfl
    · rw [List.getElem?_map, hi, Option.map_some, hvalue]

/-- **Each factor is bound to its own expression.** For factors that are merged and whose names are
those of symbols, with parts taken out in an orderly way:

* there is a binding for each part and each factor exactly where the slots of the factors are
  different from each other and from the names of parts;
* then what a factor is bound to, with the parts put in for their names, has the value of the
  factor, under every interpretation that simplifying and extracting parts respect;
* this is so where each name is read as one symbol of this name, and none is that of a part. -/
theorem bind_unfolds {s : Setting} {share : List Expr → Sharing.Shared} (hshare : Sharing.Orderly share)
    {simplify : Expr → Expr} {factors : Table String Value}
    (hne : factors ≠ []) (hexprs : ∀ p ∈ factors, ∃ e, p.2 = Value.expr e) {merged : List Value} {syms : List String}
    (hm : merge s simplify factors = .ok (merged, syms)) {ts : List Slot} (hts : slots factors.keys = .ok ts) :
    ∃ es b, expressions merged = .ok es ∧ Plan.bind share simplify merged factors.keys = .ok b ∧
      (b.length = (share es).parts.length + factors.length ↔ Apart (share es) ts) ∧
      (Apart (share es) ts → ∀ (D : Type u) (A : Interpretation D),
        (∀ e ∈ (share es).parts.map (·.2) ++ (share es).exprs,
          ∀ ρ, (simplify e).eval A ρ = e.eval A ρ) →
        KeepsValues A (share es) es →
        ∀ k e, (k, Value.expr e) ∈ factors → ∃ t d, Slot.ofName k = .ok t ∧ Table.get? t b = some d ∧
          ∀ ρ, (unfolded (partsAmong ts b) d).eval A ρ = e.eval A ρ) ∧
      ((∀ k ∈ factors.keys, IsSymbolName k) → factors.keys.Nodup →
        (∀ p ∈ (share es).parts, p.1 ∉ factors.keys) → Apart (share es) ts) := by
  obtain ⟨ps, rfl⟩ := merge_eq hm
  obtain ⟨values, hvalues, hcounted, hplaces⟩ := exists_values hexprs
  have hes : expressions (ps.map Value.expr ++ factors.map (·.2)) = .ok (ps ++ values) := by
    rw [hvalues, ← List.map_append, expressions_map]
  have hnames : factors.keys ≠ [] := by simpa [Table.keys] using hne
  have hslots : ts.length = factors.length := by rw [length_slots hts, Table.keys, List.length_map]
  have hcount : (share (ps ++ values)).exprs.length = ps.length + values.length := by
    rw [hshare.length, List.length_append]
  have hlisted : ts.length ≤ (share (ps ++ values)).exprs.length := by omega
  have hkeys : ((entries simplify (share (ps ++ values)) ts).map (·.1)).Nodup ↔
      Apart (share (ps ++ values)) ts := nodup_keys_entries (hshare.nodup _) hlisted
  refine ⟨ps ++ values, _, hes, bind_eq hes hts hnames, ?_, fun hapart D A hsimplify hkeeps k e hk => ?_,
    apart_of_isSymbolName hts⟩
  · rw [← hslots, ← length_entries hlisted, Table.length_ofList_eq_iff, hkeys]
  · obtain ⟨i, hname, hvalue⟩ := hplaces k e hk
    obtain ⟨t, ht, hofName⟩ := slots_getElem? hts hname
    obtain ⟨d, hd, hunfold⟩ := exists_entry hcount (hslots.trans hcounted.symm) hsimplify hkeeps ht hvalue
    rw [Table.ofList_of_nodup (hkeys.mpr hapart), partsAmong_entries hapart]
    exact ⟨t, d, hofName, (Table.mem_iff_get? (hkeys.mpr hapart) t d).mp hd, hunfold⟩

/-- The rank of the opening price. -/
def rankOpen : Expr := .apply (.named "cs_rank") [.symbol "OPEN"]

/-- The mean of this rank. -/
def meanRank : Expr := .apply (.named "ts_mean") [rankOpen, .ofInt 5]

/-- One mean under two names, and the rank that is taken out of it. -/
def meanTwice : Table String Value := [("a", .expr meanRank), ("b", .expr meanRank), ("c", .expr rankOpen)]

/-- Two parts and three factors are five bindings, and the second name has its mean. Nothing is
simplified here. -/
theorem bind_unfolds_meanTwice : ∃ merged syms b,
    merge {} id meanTwice = .ok (merged, syms) ∧ Plan.bind (Sharing.extract "_x_") id merged ["a", "b", "c"] = .ok b ∧
    b.length = 5 ∧ ∀ (D : Type u) (A : Interpretation D), ∃ d, Table.get? (.column "b") b = some d ∧
      ∀ ρ, (unfolded (partsAmong [.column "a", .column "b", .column "c"] b) d).eval A ρ = meanRank.eval A ρ := by
  have hm : merge {} id meanTwice = .ok
      ([.expr rankOpen, .expr meanRank, .expr meanRank, .expr rankOpen], ["OPEN"]) := rfl
  have hshared : Sharing.extract "_x_" [rankOpen, meanRank, meanRank, rankOpen] =
      { parts := [("_x_0", rankOpen), ("_x_1", .apply (.named "ts_mean") [.symbol "_x_0", .ofInt 5])],
        exprs := [.symbol "_x_0", .symbol "_x_1", .symbol "_x_1", .symbol "_x_0"] } := by
    decide +kernel
  have hnames : ∀ k ∈ meanTwice.keys, IsSymbolName k := by decide
  obtain ⟨es, b, hes, hb, hcount, hvalues, hplain⟩ :=
    bind_unfolds (Sharing.orderly_extract "_x_") (by decide) (by simp [meanTwice]) hm
    (slots_of_isSymbolName hnames)
  obtain rfl : [rankOpen, meanRank, meanRank, rankOpen] = es := Except.ok.inj hes
  have hapart := hplain hnames (by decide) (by rw [hshared]; decide)
  refine ⟨_, _, b, hm, hb, ?_, fun D A => ?_⟩
  · rw [hcount.mpr hapart, hshared]
    rfl
  · have hkeeps : KeepsValues A (Sharing.extract "_x_" [rankOpen, meanRank, meanRank, rankOpen])
        [rankOpen, meanRank, meanRank, rankOpen] := by
      rw [hshared]
      exact fun ρ => rfl
    obtain ⟨t, d, ht, hd, hunfold⟩ := hvalues hapart D A (fun _ _ _ => rfl) hkeeps "b" meanRank (by simp [meanTwice])
    rw [ofName_of_isSymbolName (hnames "b" (by decide))] at ht
    cases ht
    exact ⟨d, hd, hunfold⟩

/-- Two factors whose names stand for the same pair of symbols. -/
def namedAlike : Table String Value := [("a b", .expr (.symbol "OPEN")), ("a,b", .expr (.symbol "CLOSE"))]

/-- The names are different and no symbols, but only one of the factors is bound, and under the name
of the first stands the second. -/
theorem names_share_slot :
    merge {} id namedAlike = .ok ([.expr (.symbol "OPEN"), .expr (.symbol "CLOSE")], ["OPEN", "CLOSE"]) ∧
    Plan.bind (Sharing.extract "_x_") id [.expr (.symbol "OPEN"), .expr (.symbol "CLOSE")] ["a b", "a,b"] =
      .ok [(.columns ["a", "b"], .symbol "CLOSE")] ∧
    Slot.ofName "a b" = .ok (.columns ["a", "b"]) := by
  refine ⟨rfl, ?_, rfl⟩
  have hshared : Sharing.extract "_x_" [.symbol "OPEN", .symbol "CLOSE"] =
      { parts := [], exprs := [.symbol "OPEN", .symbol "CLOSE"] } := by
    decide +kernel
  have hes : expressions [.expr (.symbol "OPEN"), .expr (.symbol "CLOSE")] = .ok [.symbol "OPEN", .symbol "CLOSE"] := rfl
  have hts : slots ["a b", "a,b"] = .ok [.columns ["a", "b"], .columns ["a", "b"]] := rfl
  rw [bind_eq hes hts (by simp), hshared]
  rfl

end Plan

end FactorPlan
