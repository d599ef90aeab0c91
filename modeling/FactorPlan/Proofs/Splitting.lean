import FactorPlan.Plan.Parts
import FactorPlan.Proofs.Replacement
import Mathlib.Data.List.Nodup

/-!
Splitting an expression by group. The keys that splitting returns are those of the
outermost grouped operators (`outerKeys_subset`), and there are none exactly where no
operator is grouped (`keysWithin_eq_nil`). `split_cases` says what splitting a node consists
of: each argument is split, and from the key of the node and those of the arguments follow its
keys and the parts that it makes necessary (`mem_needed`).
-/

namespace FactorPlan

namespace Expr

theorem args_of_isAtom (e : Expr) (he : e.isAtom = true) : e.args = [] := by
  cases e with
  | sum ts => cases he
  | product fs => cases he
  | power b x => cases he
  | apply f as => cases he
  | _ => rfl

theorem nodesList_eq (as : List Expr) : nodesList as = as.flatMap nodes := by
  induction as with
  | nil => rfl
  | cons a as ih => rw [nodesList, ih, List.flatMap_cons]

theorem nodes_eq (e : Expr) : e.nodes = e :: e.args.flatMap nodes := by
  cases e with
  | power b x => simp [nodes, args]
  | _ => simp [nodes, args, nodesList_eq]

theorem mem_nodes_iff {a e : Expr} : a ∈ e.nodes ↔ a = e ∨ ∃ b ∈ e.args, a ∈ b.nodes := by
  rw [nodes_eq, List.mem_cons, List.mem_flatMap]

theorem mem_nodes_self (e : Expr) : e ∈ e.nodes := mem_nodes_iff.mpr (Or.inl rfl)

theorem mem_nodes_of_arg {a b e : Expr} (hb : b ∈ e.args) (ha : a ∈ b.nodes) : a ∈ e.nodes :=
  mem_nodes_iff.mpr (Or.inr ⟨b, hb, ha⟩)

theorem forall_mem_nodes {p : Expr → Prop} {e : Expr} :
    (∀ a ∈ e.nodes, p a) ↔ p e ∧ ∀ b ∈ e.args, ∀ a ∈ b.nodes, p a := by
  rw [nodes_eq, List.forall_mem_cons, List.forall_mem_flatMap]

theorem isAtom_of_isValue {e : Expr} {n : Int} (h : e.isValue n = true) : e.isAtom = true := by
  cases e with
  | scalar s => rfl
  | _ => cases h

/-- An expression is kept as it is, or by the factors of a product beside 1 or -1. -/
theorem sharedParts_cases (e : Expr) :
    e.sharedParts = [e] ∨ ∃ a rest, e = .product (a :: rest) ∧ a.isAtom = true ∧
      e.sharedParts = rest.filter (!·.isAtom) := by
  unfold sharedParts
  split
  · rename_i a rest
    by_cases ha : (a.isValue (-1) || a.isValue 1) = true
    · refine Or.inr ⟨a, rest, rfl, ?_, if_pos ha⟩
      rcases Bool.or_eq_true_iff.mp ha with h | h
      · exact isAtom_of_isValue h
      · exact isAtom_of_isValue h
    · exact Or.inl (if_neg ha)
  · exact Or.inl rfl

end Expr

namespace Grouping

variable {rule : Expr → Except GroupError Key}

/-! ## Keys of grouped operators -/

/-- The key of a grouped operator at the root. -/
def ownKey (rule : Expr → Except GroupError Key) (e : Expr) : List Key :=
  match rule e with
  | .ok k => if k = Key.plain then [] else [k]
  | .error _ => []

/-- The keys of grouped operators at any depth. -/
def keysWithin (rule : Expr → Except GroupError Key) (e : Expr) : List Key :=
  e.nodes.flatMap (ownKey rule)

theorem mem_ownKey {e : Expr} {k : Key} :
    k ∈ ownKey rule e ↔ rule e = .ok k ∧ k ≠ Key.plain := by
  unfold ownKey
  cases rule e with
  | error x => simp
  | ok j =>
    by_cases hj : j = Key.plain
    · simp only [if_pos hj, List.not_mem_nil, false_iff, not_and, not_not, Except.ok.injEq]
      exact fun h => h.symm.trans hj
    · simp only [if_neg hj, List.mem_singleton, Except.ok.injEq]
      exact ⟨fun h => ⟨h.symm, h ▸ hj⟩, fun h => h.1.symm⟩

theorem keysWithin_eq (e : Expr) :
    keysWithin rule e = ownKey rule e ++ e.args.flatMap (keysWithin rule) := by
  unfold keysWithin
  rw [Expr.nodes_eq, List.flatMap_cons, List.flatMap_assoc]

theorem mem_keysWithin {e : Expr} {k : Key} :
    k ∈ keysWithin rule e ↔ k ∈ ownKey rule e ∨ ∃ a ∈ e.args, k ∈ keysWithin rule a := by
  rw [keysWithin_eq, List.mem_append, List.mem_flatMap]

theorem ne_plain_of_mem_keysWithin {e : Expr} {k : Key} (h : k ∈ keysWithin rule e) :
    k ≠ Key.plain := by
  obtain ⟨a, _, ha⟩ := List.mem_flatMap.mp h
  exact (mem_ownKey.mp ha).2

theorem nodup_eraseDups {κ : Type} [BEq κ] [LawfulBEq κ] (ks : List κ) : ks.eraseDups.Nodup := by
  induction h : ks.length using Nat.strongRecOn generalizing ks with
  | ind n ih =>
    cases ks with
    | nil => simp
    | cons k ks =>
      rw [List.eraseDups_cons, List.nodup_cons]
      refine ⟨by simp, ih _ ?_ _ rfl⟩
      have := List.length_filter_le (fun b => !b == k) ks
      simp only [List.length_cons] at h
      omega

/-! ## What splitting gives -/

/-- The keys that splitting finds outermost. -/
def outerKeys (rule : Expr → Except GroupError Key) (e : Expr) : List Key :=
  match (split rule e).2 with
  | .ok ks => ks
  | .error _ => []

/-- The parts that splitting finds. -/
def partsIn (rule : Expr → Except GroupError Key) (e : Expr) : List Expr := (split rule e).1.parts

/-- Splitting goes through. -/
def Splits (rule : Expr → Except GroupError Key) (e : Expr) : Prop :=
  (split rule e).2 = .ok (outerKeys rule e)

/-- The keys in the arguments of a node. -/
def keysBelow (rule : Expr → Except GroupError Key) (e : Expr) : List Key :=
  (e.args.map (outerKeys rule)).flatten.eraseDups.filter (· ≠ Key.plain)

theorem split_of_splits {e : Expr} (h : Splits rule e) :
    ∃ m, split rule e = (m, .ok (outerKeys rule e)) ∧ m.parts = partsIn rule e :=
  ⟨(split rule e).1, Prod.ext rfl h, rfl⟩

theorem splits_of_split {e : Expr} {m : Met} {ks : List Key} (h : split rule e = (m, .ok ks)) :
    Splits rule e ∧ outerKeys rule e = ks ∧ partsIn rule e = m.parts := by
  unfold Splits outerKeys partsIn
  rw [h]
  exact ⟨rfl, rfl, rfl⟩

theorem split_eq (e : Expr) : split rule e = settle rule e (splitList rule e.args) := by
  cases e <;> rfl

/-- Splitting a list goes through where splitting its first element and the rest does. -/
theorem splitList_cons_ok {a : Expr} {as : List Expr} {m : Met} {below : List (List Key)}
    (h : splitList rule (a :: as) = (m, .ok below)) :
    ∃ m₁ ks m₂ below₂, split rule a = (m₁, .ok ks) ∧ splitList rule as = (m₂, .ok below₂) ∧
      m = m₁ ++ m₂ ∧ below = ks :: below₂ := by
  unfold splitList follow at h
  cases ha : split rule a with
  | mk m₁ r =>
    cases r with
    | error x => rw [ha] at h; cases h
    | ok ks =>
      cases hl : splitList rule as with
      | mk m₂ r =>
        cases r with
        | error x => rw [ha, hl] at h; cases h
        | ok below₂ =>
          rw [ha, hl] at h
          cases h
          exact ⟨m₁, ks, m₂, below₂, rfl, rfl, rfl, rfl⟩

theorem splitList_ok {as : List Expr} {m : Met} {below : List (List Key)}
    (h : splitList rule as = (m, .ok below)) :
    (∀ a ∈ as, Splits rule a) ∧ m.parts = as.flatMap (partsIn rule) ∧
      below = as.map (outerKeys rule) := by
  induction as generalizing m below with
  | nil => cases h; exact ⟨by simp, rfl, rfl⟩
  | cons a as ih =>
    obtain ⟨m₁, ks, m₂, below₂, ha, hl, rfl, rfl⟩ := splitList_cons_ok h
    obtain ⟨hall, hparts, hbelow⟩ := ih hl
    obtain ⟨hs, hk, hp⟩ := splits_of_split ha
    refine ⟨List.forall_mem_cons.mpr ⟨hs, hall⟩, ?_, ?_⟩
    · rw [List.flatMap_cons, ← hparts, hp]
      rfl
    · rw [List.map_cons, hk, ← hbelow]

/-- Splitting a node goes through where its key is found and splitting its arguments goes through. -/
theorem split_ok {e : Expr} {m : Met} {ks : List Key} (h : split rule e = (m, .ok ks)) :
    ∃ own m₀ below, rule e = .ok own ∧ splitList rule e.args = (m₀, .ok below) ∧
      m.parts = m₀.parts ++
        needed own e.args below (below.flatten.eraseDups.filter (· ≠ Key.plain)) ∧
      m.symbols = m₀.symbols ++ (if own = Key.plain then ownSymbol e else []) ∧
      ks = if own = Key.plain then below.flatten.eraseDups.filter (· ≠ Key.plain) else [own] := by
  rw [split_eq] at h
  unfold settle at h
  cases hr : rule e with
  | error x => rw [hr] at h; cases h
  | ok own =>
    cases hl : splitList rule e.args with
    | mk m₀ r =>
      cases r with
      | error x => rw [hr, hl] at h; cases h
      | ok below =>
        rw [hr, hl] at h
        refine ⟨own, m₀, below, rfl, rfl, ?_⟩
        dsimp only at h
        by_cases hown : own = Key.plain
        · rw [if_pos hown] at h
          cases h
          rw [if_pos hown, if_pos hown]
          exact ⟨List.append_nil _, congrArg (· ++ ownSymbol e) (List.append_nil _), rfl⟩
        · rw [if_neg hown] at h
          cases h
          rw [if_neg hown, if_neg hown]
          exact ⟨rfl, rfl, rfl⟩

/-- The parts that a node makes necessary, with the keys of its own arguments. -/
theorem mem_needed {own : Key} {as : List Expr} {keys : List Key} {x : Expr} :
    x ∈ needed own as (as.map (outerKeys rule)) keys ↔
      ∃ a ∈ as, a.isAtom = false ∧ x ∈ a.sharedParts ∧
        (2 ≤ keys.length ∨ (own ≠ Key.plain ∧ own ∉ outerKeys rule a)) := by
  unfold needed
  by_cases h2 : 2 ≤ keys.length
  · simp [h2, and_assoc]
  · by_cases hown : own = Key.plain
    · simp [h2, hown]
    · have hzip : as.zip (as.map (outerKeys rule)) = as.map (fun a => (a, outerKeys rule a)) := by
        induction as with
        | nil => rfl
        | cons a as ih => rw [List.map_cons, List.zip_cons_cons, ih, List.map_cons]
      rw [if_neg h2, if_pos hown, hzip]
      simp [h2, hown, and_assoc, and_comm, and_left_comm]

/-- What splitting a node consists of: each argument is split, then parts and keys follow from
the key of the node and those of the arguments. -/
theorem split_cases {e : Expr} (h : Splits rule e) :
    ∃ own, rule e = .ok own ∧ (∀ a ∈ e.args, Splits rule a) ∧
      outerKeys rule e = (if own = Key.plain then keysBelow rule e else [own]) ∧
      partsIn rule e = e.args.flatMap (partsIn rule) ++
        needed own e.args (e.args.map (outerKeys rule)) (keysBelow rule e) := by
  obtain ⟨m, hm, hparts⟩ := split_of_splits h
  obtain ⟨own, m₀, below, hr, hl, hmparts, -, hkeys⟩ := split_ok hm
  obtain ⟨hall, hparts₀, rfl⟩ := splitList_ok hl
  refine ⟨own, hr, hall, hkeys, ?_⟩
  rw [← hparts, hmparts, hparts₀]
  rfl

theorem mem_keysBelow {e : Expr} {k : Key} :
    k ∈ keysBelow rule e ↔ k ≠ Key.plain ∧ ∃ a ∈ e.args, k ∈ outerKeys rule a := by
  simp [keysBelow, and_comm]

theorem nodup_keysBelow (e : Expr) : (keysBelow rule e).Nodup := (nodup_eraseDups _).filter _

/-- What is found outermost are keys of grouped operators. -/
theorem outerKeys_subset {e : Expr} (h : Splits rule e) :
    ∀ k ∈ outerKeys rule e, k ∈ keysWithin rule e := by
  induction e using Expr.args_induction with
  | h e ih =>
    obtain ⟨own, hr, hargs, hkeys, _⟩ := split_cases h
    intro k hk
    rw [hkeys] at hk
    rw [mem_keysWithin]
    by_cases hown : own = Key.plain
    · rw [if_pos hown] at hk
      obtain ⟨_, a, ha, hka⟩ := mem_keysBelow.mp hk
      exact Or.inr ⟨a, ha, ih a ha (hargs a ha) k hka⟩
    · rw [if_neg hown] at hk
      rw [List.mem_singleton.mp hk]
      exact Or.inl (mem_ownKey.mpr ⟨hr, hown⟩)

/-- Where nothing is found outermost, no operator is grouped. -/
theorem keysWithin_eq_nil {e : Expr} (h : Splits rule e) (hk : outerKeys rule e = []) :
    keysWithin rule e = [] := by
  induction e using Expr.args_induction with
  | h e ih =>
    obtain ⟨own, hr, hargs, hkeys, _⟩ := split_cases h
    rw [hk] at hkeys
    by_cases hown : own = Key.plain
    · rw [if_pos hown] at hkeys
      rw [List.eq_nil_iff_forall_not_mem]
      intro k hkw
      rcases mem_keysWithin.mp hkw with hself | ⟨a, ha, hka⟩
      · have hok := (mem_ownKey.mp hself).1
        rw [hr, hown] at hok
        exact (mem_ownKey.mp hself).2 (Except.ok.inj hok).symm
      · have hnil : outerKeys rule a = [] := by
          rw [List.eq_nil_iff_forall_not_mem]
          intro j hj
          have hplain := ne_plain_of_mem_keysWithin (outerKeys_subset (hargs a ha) j hj)
          have hmem : j ∈ keysBelow rule e := mem_keysBelow.mpr ⟨hplain, a, ha, hj⟩
          rw [← hkeys] at hmem
          exact List.not_mem_nil hmem
        rw [ih a ha (hargs a ha) hnil] at hka
        exact List.not_mem_nil hka
    · rw [if_neg hown] at hkeys
      cases hkeys

/-- Leaves and products are computed on whole columns. -/
structure Rooted (rule : Expr → Except GroupError Key) : Prop where
  leaf : ∀ e : Expr, e.isAtom = true → rule e = .ok Key.plain
  product : ∀ fs, rule (.product fs) = .ok Key.plain

theorem Rooted.keysWithin_leaf (hrule : Rooted rule) {e : Expr} (he : e.isAtom = true) :
    keysWithin rule e = [] := by
  have hargs : e.args = [] := e.args_of_isAtom he
  rw [keysWithin_eq, hargs, ownKey, hrule.leaf e he]
  rfl

/-! ## Homogeneous expressions -/

/-- All grouped operators, at any depth, are of the key. -/
def Homogeneous (rule : Expr → Except GroupError Key) (k : Key) (e : Expr) : Prop :=
  ∀ j ∈ keysWithin rule e, j = k

theorem length_le_one_of_eq {ks : List Key} {k : Key} (hnd : ks.Nodup) (h : ∀ j ∈ ks, j = k) :
    ks.length ≤ 1 := by
  match ks, hnd, h with
  | [], _, _ => simp
  | [_], _, _ => simp
  | a :: b :: _, hnd, h =>
    have hab : a = b := (h a (by simp)).trans (h b (by simp)).symm
    simp [hab] at hnd

theorem eq_of_length_le_one {ks : List Key} (h : ks.length ≤ 1) {j k : Key} (hj : j ∈ ks)
    (hk : k ∈ ks) : j = k := by
  match ks, h with
  | [], _ => cases hj
  | [a], _ => exact (List.mem_singleton.mp hj).trans (List.mem_singleton.mp hk).symm

theorem soleKey_of_length_le_one {ks : List Key} (h : ks.length ≤ 1) :
    ∃ k, soleKey ks = .ok k ∧ ∀ j ∈ ks, j = k := by
  cases ks with
  | nil => exact ⟨Key.plain, rfl, by simp⟩
  | cons k ks =>
    have hnil : ks = [] := by simpa using h
    subst hnil
    exact ⟨k, rfl, by simp⟩

end Grouping

namespace Plan

theorem Setting.rooted (s : Setting) : Grouping.Rooted s.rule := by
  refine ⟨fun e he => ?_, fun _ => rfl⟩
  cases e with
  | symbol n => rfl
  | scalar s => rfl
  | constant c => rfl
  | truth b => rfl
  | _ => cases he

end Plan

end FactorPlan
