import FactorPlan.Plan.Chain
import FactorPlan.Proofs.Digraph
import Mathlib.Data.List.Flatten
import Mathlib.Data.List.GetD

/-!
Moving groups along a chain. A group of a row is a block, known by the place of its row
and its key. Moving at the links carries a block up through all links of its key that
follow each other (`run`), so a block can get before a block of an earlier row and of
another key (`Overtakes`).

  1. `links_linked`: whatever is chosen, a link is a key of both rows.
  2. `move_table`, `flatten_move`: the rows after moving, as an order of the blocks.
  3. `blocks_ordered`: in that order the blocks of earlier rows come first, but for those
     that are overtaken.
  4. `sublist_flatten_move_iff`: so an item stands before an item of a later row, with a
     separator between them, exactly where its block is not overtaken.
-/

namespace FactorPlan

namespace Chain

variable {κ ι : Type}

/-- The link between a row and the row after it. -/
def linkAt (ls : List (Option κ)) (m : Nat) : Option κ := (ls[m]?).join

/-- The link between a row and the row before it. -/
def headAt (ls : List (Option κ)) : Nat → Option κ
  | 0 => none
  | m + 1 => linkAt ls m

@[simp] theorem linkAt_nil (m : Nat) : linkAt ([] : List (Option κ)) m = none := rfl

@[simp] theorem linkAt_cons_zero (l : Option κ) (ls : List (Option κ)) : linkAt (l :: ls) 0 = l := rfl

@[simp] theorem linkAt_cons_succ (l : Option κ) (ls : List (Option κ)) (m : Nat) :
    linkAt (l :: ls) (m + 1) = linkAt ls m := rfl

@[simp] theorem headAt_succ (ls : List (Option κ)) (m : Nat) : headAt ls (m + 1) = linkAt ls m := rfl

@[simp] theorem headAt_nil (r : Nat) : headAt ([] : List (Option κ)) r = none := by
  cases r <;> rfl

/-! ## Links -/

theorem fewest_mem (c : Choice κ) (cs : List (Choice κ)) : fewest c cs ∈ c :: cs := by
  unfold fewest
  induction cs generalizing c with
  | nil => simp
  | cons d cs ih =>
    rw [List.foldl_cons]
    split
    · exact List.mem_cons_of_mem _ (ih d)
    · rcases List.mem_cons.mp (ih c) with h | h
      · rw [h]; exact List.mem_cons_self
      · exact List.mem_cons_of_mem _ (List.mem_cons_of_mem _ h)

section Links
variable [DecidableEq κ]

/-- What is chosen is chosen from what there is. -/
theorem mem_bestByFirst {xss : List (List (Option κ))} {c : Choice κ} (h : c ∈ bestByFirst xss) :
    List.Forall₂ (· ∈ ·) c.links xss := by
  induction xss generalizing c with
  | nil =>
    rw [bestByFirst, List.mem_singleton] at h
    rw [h]
    exact .nil
  | cons xs rest ih =>
    rw [bestByFirst] at h
    split at h
    · cases h
    · rename_i d ds hd
      obtain ⟨x, hx, rfl⟩ := List.mem_map.mp h
      have hmem := fewest_mem (extend x d) (ds.map (extend x))
      rw [← List.map_cons] at hmem
      obtain ⟨b, hb, hext⟩ := List.mem_map.mp hmem
      rw [← hext]
      exact .cons hx (ih (hd ▸ hb))

theorem bestByFirst_ne_nil {xss : List (List (Option κ))} (h : ∀ xs ∈ xss, xs ≠ []) :
    bestByFirst xss ≠ [] := by
  induction xss with
  | nil => simp [bestByFirst]
  | cons xs rest ih =>
    rw [bestByFirst]
    split
    · rename_i hnil
      exact absurd hnil (ih fun ys hys => h ys (List.mem_cons_of_mem _ hys))
    · simpa using h xs List.mem_cons_self

theorem linksBetween_ne_nil (order : List κ → List κ) (a b : List κ) :
    linksBetween order a b ≠ [] := by
  unfold linksBetween
  split
  · simp
  · rename_i hne
    simpa using hne

theorem choices_ne_nil (order : List κ → List κ) (rows : List (List κ)) :
    ∀ xs ∈ choices order rows, xs ≠ [] := by
  induction rows with
  | nil => simp [choices]
  | cons a rows ih =>
    cases rows with
    | nil => simp [choices]
    | cons b rest =>
      intro xs hxs
      rw [choices] at hxs
      rcases List.mem_cons.mp hxs with rfl | hxs
      · exact linksBetween_ne_nil order a b
      · exact ih xs hxs

theorem pick_chosen {xss : List (List (Option κ))} (h : ∀ xs ∈ xss, xs ≠ []) :
    List.Forall₂ (· ∈ ·) (pick xss) xss := by
  unfold pick
  split
  · rename_i hnil
    exact absurd hnil (bestByFirst_ne_nil h)
  · rename_i c cs hcs
    exact mem_bestByFirst (hcs ▸ fewest_mem c cs)

theorem links_chosen (order : List κ → List κ) (rows : List (List κ)) :
    List.Forall₂ (· ∈ ·) (links order rows) (choices order rows) :=
  pick_chosen (choices_ne_nil order rows)

/-- A link between each row and the next, where there is one a key of both. -/
structure Linked (ls : List (Option κ)) (rows : List (List κ)) : Prop where
  length : rows.length ≤ ls.length + 1
  common : ∀ m k, linkAt ls m = some k → k ∈ rows.getD m [] ∧ k ∈ rows.getD (m + 1) []

theorem linked_of_chosen {order : List κ → List κ} (horder : ∀ ks, ∀ k ∈ order ks, k ∈ ks)
    {rows : List (List κ)} {ls : List (Option κ)}
    (h : List.Forall₂ (· ∈ ·) ls (choices order rows)) : Linked ls rows := by
  induction rows generalizing ls with
  | nil =>
    cases h
    exact ⟨by simp, fun m k hk => by simp at hk⟩
  | cons a rows ih =>
    cases rows with
    | nil =>
      cases h
      exact ⟨by simp, fun m k hk => by simp at hk⟩
    | cons b rest =>
      rw [choices] at h
      cases h with
      | @cons l _ ls _ hl hls =>
        have hrest := ih hls
        refine ⟨by simpa using hrest.length, fun m k hk => ?_⟩
        cases m with
        | zero =>
          rw [linkAt_cons_zero] at hk
          subst hk
          unfold linksBetween at hl
          split at hl
          · simp at hl
          · have hk : k ∈ order (a.filter b.contains) := by simpa using hl
            simpa using horder _ k hk
        | succ m => exact hrest.common m k hk

/-- Whatever is chosen, links are keys of both rows. -/
theorem links_linked {order : List κ → List κ} (horder : ∀ ks, ∀ k ∈ order ks, k ∈ ks)
    (rows : List (List κ)) : Linked (links order rows) rows :=
  linked_of_chosen horder (links_chosen order rows)

end Links

/-! ## Arranging -/

section Arranging
variable [DecidableEq κ] {head tail : Option κ} {keys : List κ}

theorem mem_arrange (hh : ∀ k, head = some k → k ∈ keys) (ht : ∀ k, tail = some k → k ∈ keys)
    (k : κ) : k ∈ arrange head tail keys ↔ k ∈ keys := by
  have hlast : k ∈ (if tail = head then [] else tail.toList) ↔ tail = some k ∧ head ≠ some k := by
    by_cases hth : tail = head
    · rw [if_pos hth, hth]; simp
    · rw [if_neg hth]
      simp only [Option.mem_toList, ne_eq]
      exact ⟨fun h => ⟨h, fun hk => hth (h.trans hk.symm)⟩, And.left⟩
  unfold arrange
  simp only [List.mem_append, hlast, List.mem_filter, Option.mem_toList, decide_eq_true_eq]
  constructor
  · rintro ((h | h) | h)
    · exact hh k h
    · exact h.1
    · exact ht k h.1
  · intro hk
    by_cases h1 : head = some k
    · exact Or.inl (Or.inl h1)
    · by_cases h2 : tail = some k
      · exact Or.inr ⟨h2, h1⟩
      · exact Or.inl (Or.inr ⟨hk, Ne.symm h1, Ne.symm h2⟩)

/-- Keys stand once, and none after the tail unless it is the head too. -/
theorem arrange_pairwise (head tail : Option κ) (hnd : keys.Nodup) :
    (arrange head tail keys).Pairwise (fun a b => a ≠ b ∧ (tail = some a → head = some a)) := by
  have hlast : ∀ k ∈ (if tail = head then [] else tail.toList), tail = some k ∧ tail ≠ head := by
    intro k hk
    by_cases hth : tail = head
    · rw [if_pos hth] at hk; cases hk
    · rw [if_neg hth] at hk
      exact ⟨by simpa using hk, hth⟩
  have hinner : ∀ k ∈ keys.filter (fun k => some k ≠ head ∧ some k ≠ tail),
      some k ≠ head ∧ some k ≠ tail := by
    intro k hk
    simpa using (List.mem_filter.mp hk).2
  unfold arrange
  rw [List.pairwise_append, List.pairwise_append]
  refine ⟨⟨?_, ?_, ?_⟩, ?_, ?_⟩
  · cases head <;> simp
  · refine (hnd.filter _).pairwise_of_forall_ne fun a ha b hb hab => ⟨hab, fun h => ?_⟩
    exact absurd h.symm (hinner a ha).2
  · intro a ha b hb
    have ha : head = some a := by simpa using ha
    exact ⟨fun hab => (hinner b hb).1 (hab ▸ ha.symm), fun _ => ha⟩
  · by_cases hth : tail = head
    · rw [if_pos hth]; exact List.Pairwise.nil
    · rw [if_neg hth]; cases tail <;> simp
  · intro a ha b hb
    obtain ⟨hb, hth⟩ := hlast b hb
    rcases List.mem_append.mp ha with ha | ha
    · have ha : head = some a := by simpa using ha
      exact ⟨fun hab => hth (hb.trans (hab ▸ ha.symm)), fun _ => ha⟩
    · exact ⟨fun hab => (hinner a ha).2 (hab ▸ hb.symm), fun h => absurd h.symm (hinner a ha).2⟩

end Arranging

/-! ## Rows by place and key -/

/-- Rows with listed keys and given groups, `n` in number. -/
def table (n : Nat) (keys : Nat → List κ) (groups : Nat → κ → Group ι) : Rows κ ι :=
  (List.range n).map (fun j => (keys j).map (fun k => (k, groups j k)))

theorem table_succ (n : Nat) (keys : Nat → List κ) (groups : Nat → κ → Group ι) :
    table (n + 1) keys groups = (keys 0).map (fun k => (k, groups 0 k)) ::
      table n (fun j => keys (j + 1)) (fun j => groups (j + 1)) := by
  rw [table, List.range_succ_eq_map, List.map_cons, List.map_map]
  rfl

theorem table_congr {n : Nat} {keys : Nat → List κ} {f g : Nat → κ → Group ι}
    (h : ∀ j k, f j k = g j k) : table n keys f = table n keys g := by
  rw [show f = g from funext fun j => funext (h j)]

theorem flatten_table (n : Nat) (keys : Nat → List κ) (groups : Nat → κ → Group ι) :
    (table n keys groups).flatten =
      (List.range n).flatMap (fun j => (keys j).flatMap (groups j)) := by
  simp [table, Rows.flatten, List.flatMap_map]

theorem getElem?_heads (ls : List (Option κ)) {j : Nat} (h : j ≤ ls.length) :
    (heads ls)[j]? = some (headAt ls j) := by
  cases j with
  | zero => rfl
  | succ m =>
    rw [heads, List.getElem?_cons_succ, List.getElem?_eq_getElem h, headAt_succ, linkAt,
      List.getElem?_eq_getElem h]
    rfl

theorem getElem?_tails (ls : List (Option κ)) {j : Nat} (h : j ≤ ls.length) :
    (tails ls)[j]? = some (linkAt ls j) := by
  rcases Nat.lt_or_eq_of_le h with h | rfl
  · rw [tails, List.getElem?_append_left h, List.getElem?_eq_getElem h, linkAt,
      List.getElem?_eq_getElem h]
    rfl
  · simp [tails, linkAt]

section Moving
variable [DecidableEq κ]

/-- The keys of a row in the order in which they are arranged. -/
def arranged (ls : List (Option κ)) (rs : Rows κ ι) (j : Nat) : List κ :=
  arrange (headAt ls j) (linkAt ls j) (Table.keys (rs.getD j []))

/-- The group of a key in the row of a place. -/
def groupIn (rs : Rows κ ι) (j : Nat) (k : κ) : Group ι := groupAt (some k) (rs.getD j [])

theorem getElem?_arrangeAll {ls : List (Option κ)} {rows : List (List κ)} {row : List κ} {j : Nat}
    (h : j ≤ ls.length) (hrow : rows[j]? = some row) :
    (arrangeAll ls rows)[j]? = some (arrange (headAt ls j) (linkAt ls j) row) := by
  have hlinks : ((heads ls).zip (tails ls))[j]? = some (headAt ls j, linkAt ls j) :=
    List.getElem?_zip_eq_some.mpr ⟨getElem?_heads ls h, getElem?_tails ls h⟩
  have hzip : (rows.zip ((heads ls).zip (tails ls)))[j]? = some (row, (headAt ls j, linkAt ls j)) :=
    List.getElem?_zip_eq_some.mpr ⟨hrow, hlinks⟩
  rw [arrangeAll, List.getElem?_map, hzip]
  rfl

theorem sort_eq {ls : List (Option κ)} {rs : Rows κ ι} (h : rs.length ≤ ls.length + 1) :
    sort ls rs = table rs.length (arranged ls rs) (groupIn rs) := by
  apply List.ext_getElem?
  intro j
  by_cases hj : j < rs.length
  · have hle : j ≤ ls.length := by omega
    have hrow : rs[j]? = some (rs.getD j []) := by
      rw [List.getD_eq_getElem?_getD, List.getElem?_eq_getElem hj]
      rfl
    have hkeys : (arrangeAll ls (rs.map Table.keys))[j]? = some (arranged ls rs j) :=
      getElem?_arrangeAll hle (by rw [List.getElem?_map, hrow]; rfl)
    have hzip : ((arrangeAll ls (rs.map Table.keys)).zip rs)[j]? =
        some (arranged ls rs j, rs.getD j []) :=
      List.getElem?_zip_eq_some.mpr ⟨hkeys, hrow⟩
    rw [sort, List.getElem?_map, hzip, table, List.getElem?_map, List.getElem?_range hj]
    rfl
  · have hj := Nat.le_of_not_lt hj
    rw [List.getElem?_eq_none (by simp [sort, arrangeAll, heads, tails]; omega),
      List.getElem?_eq_none (by simpa [table] using hj)]

/-- The rows that moving brings together at a row: the row, and those after it as long as the key
links them. -/
def run (ls : List (Option κ)) (k : κ) : Nat → Nat → List Nat
  | 0, _ => []
  | n + 1, r => r :: if linkAt ls r = some k then run ls k n (r + 1) else []

theorem run_nil (k : κ) (n r : Nat) (h : 0 < n) : run [] k n r = [r] := by
  cases n with
  | zero => cases h
  | succ n => simp [run]

theorem run_cons_succ (l : Option κ) (ls : List (Option κ)) (k : κ) (n r : Nat) :
    run (l :: ls) k n (r + 1) = (run ls k n r).map (· + 1) := by
  induction n generalizing r with
  | zero => rfl
  | succ n ih =>
    rw [run, run, linkAt_cons_succ]
    split <;> simp [ih]

theorem mem_run {ls : List (Option κ)} {k : κ} {n r j : Nat} :
    j ∈ run ls k n r ↔ r ≤ j ∧ j < r + n ∧ ∀ m, r ≤ m → m < j → linkAt ls m = some k := by
  induction n generalizing r with
  | zero =>
    simp only [run, List.not_mem_nil, false_iff]
    omega
  | succ n ih =>
    have hrest : j ∈ (if linkAt ls r = some k then run ls k n (r + 1) else []) ↔
        linkAt ls r = some k ∧ j ∈ run ls k n (r + 1) := by
      split <;> simp_all
    rw [run, List.mem_cons, hrest, ih]
    constructor
    · rintro (rfl | ⟨hl, h1, h2, h3⟩)
      · exact ⟨Nat.le_refl _, by omega, fun m h1 h2 => by omega⟩
      · refine ⟨by omega, by omega, fun m hm hj => ?_⟩
        rcases Nat.lt_or_eq_of_le hm with hm | rfl
        · exact h3 m hm hj
        · exact hl
    · rintro ⟨h1, h2, h3⟩
      rcases Nat.lt_or_eq_of_le h1 with h1 | rfl
      · exact Or.inr ⟨h3 r (Nat.le_refl r) h1, h1, by omega, fun m hm hj => h3 m (by omega) hj⟩
      · exact Or.inl rfl

theorem run_pairwise (ls : List (Option κ)) (k : κ) (n r : Nat) :
    (run ls k n r).Pairwise (· < ·) := by
  induction n generalizing r with
  | zero => exact List.Pairwise.nil
  | succ n ih =>
    rw [run]
    split
    · exact List.Pairwise.cons (fun j hj => (mem_run.mp hj).1) (ih (r + 1))
    · simp

/-- What moving leaves in place of a group: nothing where it is linked to the row before, and
otherwise the groups of its run. -/
def moved (ls : List (Option κ)) (groups : Nat → κ → Group ι) (n r : Nat) (k : κ) : Group ι :=
  if headAt ls r = some k then [] else (run ls k (n - r) r).flatMap (fun j => groups j k)

section Shift
variable (l : Option κ) (ls : List (Option κ)) (groups : Nat → κ → Group ι) (n : Nat) (k : κ)

theorem moved_zero : moved ls groups n 0 k = (run ls k n 0).flatMap (fun j => groups j k) := by
  rw [moved, headAt, if_neg (by simp), Nat.sub_zero]

theorem moved_cons_zero : moved (l :: ls) groups (n + 1) 0 k =
    groups 0 k ++ if l = some k then moved ls (fun j => groups (j + 1)) n 0 k else [] := by
  have hrun : run (l :: ls) k (n + 1) 0 =
      0 :: if l = some k then (run ls k n 0).map (· + 1) else [] := by
    rw [run, linkAt_cons_zero, ← run_cons_succ l]
  rw [moved_zero, moved_zero, hrun, List.flatMap_cons]
  split
  · rw [List.flatMap_map]
  · rfl

theorem moved_cons_one : moved (l :: ls) groups (n + 1) 1 k =
    if l = some k then [] else moved ls (fun j => groups (j + 1)) n 0 k := by
  rw [moved_zero, moved, headAt_succ, linkAt_cons_zero, Nat.add_sub_cancel, run_cons_succ,
    List.flatMap_map]

theorem moved_cons_succ (r : Nat) : moved (l :: ls) groups (n + 1) (r + 1 + 1) k =
    moved ls (fun j => groups (j + 1)) n (r + 1) k := by
  rw [moved, moved, headAt_succ, headAt_succ, linkAt_cons_succ, Nat.add_sub_add_right,
    run_cons_succ, List.flatMap_map]

end Shift

theorem update_map (k : κ) {α : Type} (f : α → α) (ks : List κ) (g : κ → α) :
    Table.update k f (ks.map (fun j => (j, g j))) =
      ks.map (fun j => (j, if j = k then f (g j) else g j)) := by
  rw [Table.update, List.map_map]
  refine List.map_congr_left fun j _ => ?_
  simp only [Function.comp_apply]
  split <;> rfl

theorem groupAt_map (g : κ → Group ι) {ks : List κ} {k : κ} (hk : k ∈ ks) :
    groupAt (some k) (ks.map (fun j => (j, g j))) = g k := by
  simp [groupAt, Table.get?_map_of_mem g hk]

/-- Without links every group stays where it is. -/
theorem table_moved_nil (n : Nat) (keys : Nat → List κ) (groups : Nat → κ → Group ι) :
    table n keys (moved [] groups n) = table n keys groups := by
  refine List.map_congr_left fun j hj => List.map_congr_left fun k _ => ?_
  have hj : 0 < n - j := Nat.sub_pos_of_lt (List.mem_range.mp hj)
  rw [moved, headAt_nil, if_neg (by simp), run_nil k _ _ hj]
  simp

/-- Joining a row to rows that were moved already. -/
theorem joinRows_moved (l : Option κ) (ls : List (Option κ)) (groups : Nat → κ → Group ι) (n : Nat)
    (first : List κ) {second : List κ} (hl : ∀ k, l = some k → k ∈ second) :
    joinRows l (first.map (fun k => (k, groups 0 k)))
        (second.map (fun k => (k, moved ls (fun j => groups (j + 1)) n 0 k))) =
      (first.map (fun k => (k, moved (l :: ls) groups (n + 1) 0 k)),
        second.map (fun k => (k, moved (l :: ls) groups (n + 1) 1 k))) := by
  cases l with
  | none =>
    simp only [joinRows, moved_cons_zero, moved_cons_one, reduceCtorEq, if_false, List.append_nil]
  | some k =>
    have hfirst : ∀ j, (if j = k then
          groups 0 j ++ moved ls (fun j => groups (j + 1)) n 0 k else groups 0 j) =
        moved (some k :: ls) groups (n + 1) 0 j := by
      intro j
      rw [moved_cons_zero]
      by_cases hj : j = k
      · rw [if_pos hj, if_pos (congrArg some hj.symm), hj]
      · rw [if_neg hj, if_neg (fun h => hj (Option.some.inj h).symm), List.append_nil]
    have hsecond : ∀ j, (if j = k then [] else moved ls (fun j => groups (j + 1)) n 0 j) =
        moved (some k :: ls) groups (n + 1) 1 j := by
      intro j
      simp only [moved_cons_one, Option.some.injEq, eq_comm]
    simp only [joinRows, groupAt_map _ (hl k rfl), update_map, hfirst, hsecond]

/-- The rows after moving. -/
theorem move_table (n : Nat) (ls : List (Option κ)) (keys : Nat → List κ)
    (groups : Nat → κ → Group ι) (hcommon : ∀ m k, linkAt ls m = some k → k ∈ keys (m + 1)) :
    move ls (table n keys groups) = table n keys (moved ls groups n) := by
  induction n generalizing ls keys groups with
  | zero => cases ls <;> rfl
  | succ n ih =>
    cases ls with
    | nil =>
      rw [table_moved_nil, table_succ]
      rfl
    | cons l ls =>
      -- the later rows are moved first, then the first two are joined
      rw [table_succ, table_succ, move, ih ls _ _ (fun m k hk => hcommon (m + 1) k hk)]
      cases n with
      | zero =>
        have hfirst : ∀ k, groups 0 k = moved (l :: ls) groups (0 + 1) 0 k := by
          intro k
          rw [moved_cons_zero, show moved ls (fun j => groups (j + 1)) 0 0 k = [] from rfl, ite_self,
            List.append_nil]
        simp only [table, List.range_zero, List.map_nil, hfirst]
      | succ n =>
        have hlater : table n (fun j => keys (j + 1 + 1))
              (fun j => moved (l :: ls) groups (n + 1 + 1) (j + 1 + 1)) =
            table n (fun j => keys (j + 1 + 1))
              (fun j => moved ls (fun j => groups (j + 1)) (n + 1) (j + 1)) :=
          table_congr fun j k => moved_cons_succ l ls groups (n + 1) k j
        rw [table_succ, table_succ, hlater]
        simp only [Nat.zero_add, joinRows_moved l ls groups (n + 1) (keys 0) (hcommon 0)]

/-! ## The order of the blocks -/

/-- The blocks that moving brings to a key of a row. -/
def landed (ls : List (Option κ)) (n r : Nat) (k : κ) : List (Nat × κ) :=
  if headAt ls r = some k then [] else (run ls k (n - r) r).map (fun j => (j, k))

/-- All blocks in the order that moving leaves. -/
def blocks (ls : List (Option κ)) (n : Nat) (keys : Nat → List κ) : List (Nat × κ) :=
  (List.range n).flatMap (fun r => (keys r).flatMap (landed ls n r))

theorem flatten_table_moved (ls : List (Option κ)) (n : Nat) (keys : Nat → List κ)
    (groups : Nat → κ → Group ι) :
    (table n keys (moved ls groups n)).flatten =
      (blocks ls n keys).flatMap (fun b => groups b.1 b.2) := by
  have hgroup : ∀ r k, moved ls groups n r k = (landed ls n r k).flatMap (fun b => groups b.1 b.2) := by
    intro r k
    rw [moved, landed]
    split
    · rfl
    · rw [List.flatMap_map]
  simp only [flatten_table, blocks, List.flatMap_assoc, ← hgroup]

theorem mem_landed {ls : List (Option κ)} {n r : Nat} {k : κ} {b : Nat × κ} :
    b ∈ landed ls n r k ↔ b.2 = k ∧ headAt ls r ≠ some k ∧ r ≤ b.1 ∧ b.1 < n ∧
      ∀ m, r ≤ m → m < b.1 → linkAt ls m = some k := by
  obtain ⟨j, k'⟩ := b
  unfold landed
  by_cases hh : headAt ls r = some k
  · simp [hh]
  · rw [if_neg hh, List.mem_map]
    constructor
    · rintro ⟨i, hi, heq⟩
      cases heq
      obtain ⟨h1, h2, h3⟩ := mem_run.mp hi
      exact ⟨rfl, hh, h1, by omega, h3⟩
    · rintro ⟨rfl, _, h1, h2, h3⟩
      exact ⟨j, mem_run.mpr ⟨h1, by omega, h3⟩, rfl⟩

/-- A block of a later row is carried before a block of another key: all links from the row before
that block on are of its key. -/
def Overtakes (ls : List (Option κ)) (b a : Nat × κ) : Prop :=
  b.2 ≠ a.2 ∧ 0 < a.1 ∧ a.1 < b.1 ∧ ∀ m, a.1 ≤ m + 1 → m < b.1 → linkAt ls m = some b.2

/-- The order in which moving leaves two blocks. -/
def Precedes (ls : List (Option κ)) (a b : Nat × κ) : Prop :=
  a ≠ b ∧ (a.1 < b.1 → ¬ Overtakes ls b a) ∧ (b.1 < a.1 → Overtakes ls a b)

section Order
variable {ls : List (Option κ)} {n r : Nat} {a b : Nat × κ}

/-- Blocks that land at one key keep their order. -/
theorem landed_pairwise (ls : List (Option κ)) (n r : Nat) (k : κ) :
    (landed ls n r k).Pairwise (Precedes ls) := by
  unfold landed
  split
  · exact List.Pairwise.nil
  · rw [List.pairwise_map]
    refine (run_pairwise ls k (n - r) r).imp fun {i j} hij =>
      ⟨fun h => ?_, fun _ h => h.1 rfl, fun h => ?_⟩
    · exact Nat.ne_of_lt hij (congrArg Prod.fst h)
    · simp only at h
      omega

/-- Blocks that land in one row, where none follows its link to the next. -/
theorem precedes_of_landed {k k' : κ} (ha : a ∈ landed ls n r k) (hb : b ∈ landed ls n r k')
    (hne : k ≠ k') (hlast : linkAt ls r = some k → headAt ls r = some k) : Precedes ls a b := by
  obtain ⟨rfl, hah, har, han, hal⟩ := mem_landed.mp ha
  obtain ⟨rfl, hbh, hbr, hbn, hbl⟩ := mem_landed.mp hb
  refine ⟨fun hab => hne (congrArg Prod.snd hab), fun hab hover => ?_, fun hba => ?_⟩
  · obtain ⟨_, hpos, _, hlinks⟩ := hover
    rcases Nat.lt_or_eq_of_le har with hr | hr
    · -- the link before the row of `a` would have both keys
      have h1 := hal (a.1 - 1) (by omega) (by omega)
      have h2 := hlinks (a.1 - 1) (by omega) (by omega)
      exact hne (Option.some.inj (h1.symm.trans h2))
    · obtain ⟨m, hm⟩ : ∃ m, r = m + 1 := ⟨r - 1, by omega⟩
      refine hbh ?_
      rw [hm, headAt_succ]
      exact hlinks m (by omega) (by omega)
  · -- `a` comes from a later row, so its key is the link to the next one, and stands last
    exact absurd (hlast (hal r (Nat.le_refl r) (by omega))) hah

/-- Blocks that land in different rows. -/
theorem precedes_of_landed_lt {r' : Nat} {k k' : κ} (hrr : r < r') (ha : a ∈ landed ls n r k)
    (hb : b ∈ landed ls n r' k') : Precedes ls a b := by
  obtain ⟨rfl, hah, har, han, hal⟩ := mem_landed.mp ha
  obtain ⟨rfl, hbh, hbr, hbn, hbl⟩ := mem_landed.mp hb
  obtain ⟨m, rfl⟩ : ∃ m, r' = m + 1 := ⟨r' - 1, by omega⟩
  rw [headAt_succ] at hbh
  refine ⟨fun hab => ?_, fun hab hover => ?_, fun hba => ?_⟩
  · subst hab
    exact hbh (hal m (by omega) (by omega))
  · obtain ⟨hne, hpos, _, hlinks⟩ := hover
    by_cases hm : a.1 ≤ m + 1
    · -- `b` would not have stopped at its row
      exact hbh (hlinks m hm (by omega))
    · have h1 := hal (a.1 - 1) (by omega) (by omega)
      have h2 := hlinks (a.1 - 1) (by omega) (by omega)
      exact hne (Option.some.inj (h2.symm.trans h1))
  · -- the run of `a` goes on past the row of `b`
    refine ⟨fun heq => hbh ?_, by omega, hba, fun i hi hia => hal i (by omega) hia⟩
    rw [← heq]
    exact hal m (by omega) (by omega)

theorem blocks_ordered {keys : Nat → List κ}
    (hkeys : ∀ r, (keys r).Pairwise
      (fun k k' => k ≠ k' ∧ (linkAt ls r = some k → headAt ls r = some k))) :
    (blocks ls n keys).Pairwise (Precedes ls) := by
  unfold blocks
  rw [List.pairwise_flatMap]
  refine ⟨fun r _ => ?_, List.pairwise_lt_range.imp fun hrr a ha b hb => ?_⟩
  · rw [List.pairwise_flatMap]
    exact ⟨fun k _ => landed_pairwise ls n r k,
      (hkeys r).imp fun h a ha b hb => precedes_of_landed ha hb h.1 h.2⟩
  · obtain ⟨k, _, ha⟩ := List.mem_flatMap.mp ha
    obtain ⟨k', _, hb⟩ := List.mem_flatMap.mp hb
    exact precedes_of_landed_lt hrr ha hb

section Landing
variable {keys : Nat → List κ}
  (hcommon : ∀ m k, linkAt ls m = some k → k ∈ keys m ∧ k ∈ keys (m + 1))
include hcommon

/-- A block lands in the first row of its run. -/
theorem exists_landed {j i : Nat} {k : κ} (hn : j < n) (hij : i ≤ j) (hk : k ∈ keys i)
    (hl : ∀ m, i ≤ m → m < j → linkAt ls m = some k) :
    ∃ r, r < n ∧ k ∈ keys r ∧ (j, k) ∈ landed ls n r k := by
  induction i with
  | zero => exact ⟨0, by omega, hk, mem_landed.mpr ⟨rfl, by simp [headAt], hij, hn, hl⟩⟩
  | succ i ih =>
    by_cases hh : linkAt ls i = some k
    · -- the row before is linked by the key: the block goes on
      refine ih (by omega) (hcommon i k hh).1 fun m hm hmj => ?_
      rcases Nat.lt_or_eq_of_le hm with hm | rfl
      · exact hl m hm hmj
      · exact hh
    · exact ⟨i + 1, by omega, hk, mem_landed.mpr ⟨rfl, hh, hij, hn, hl⟩⟩

/-- Moving keeps all blocks. -/
theorem mem_blocks_iff : b ∈ blocks ls n keys ↔ b.1 < n ∧ b.2 ∈ keys b.1 := by
  obtain ⟨j, k⟩ := b
  simp only [blocks, List.mem_flatMap, List.mem_range]
  constructor
  · rintro ⟨r, _, k', hk', hb⟩
    obtain ⟨rfl, _, hrj, hn, hl⟩ := mem_landed.mp hb
    refine ⟨hn, ?_⟩
    rcases Nat.lt_or_eq_of_le hrj with hrj | hrj
    · have hlast := (hcommon (j - 1) k (hl (j - 1) (by simp only at hrj ⊢; omega)
        (by simp only at hrj ⊢; omega))).2
      rwa [Nat.sub_add_cancel (by simp only at hrj; omega)] at hlast
    · rw [hrj] at hk'
      exact hk'
  · rintro ⟨hn, hk⟩
    obtain ⟨r, hrn, hkr, hr⟩ := exists_landed hcommon hn (Nat.le_refl j) hk
      (fun m h1 h2 => by omega)
    exact ⟨r, hrn, k, hkr, hr⟩

end Landing

/-- The blocks do not depend on the links and on the order of the keys, but for their order. -/
theorem blocks_perm {ls' : List (Option κ)} {keys keys' : Nat → List κ}
    (hkeys : ∀ r, (keys r).Pairwise
      (fun k k' => k ≠ k' ∧ (linkAt ls r = some k → headAt ls r = some k)))
    (hkeys' : ∀ r, (keys' r).Pairwise
      (fun k k' => k ≠ k' ∧ (linkAt ls' r = some k → headAt ls' r = some k)))
    (hcommon : ∀ m k, linkAt ls m = some k → k ∈ keys m ∧ k ∈ keys (m + 1))
    (hcommon' : ∀ m k, linkAt ls' m = some k → k ∈ keys' m ∧ k ∈ keys' (m + 1))
    (hmem : ∀ r k, k ∈ keys r ↔ k ∈ keys' r) :
    (blocks ls n keys).Perm (blocks ls' n keys') := by
  rw [List.perm_ext_iff_of_nodup ((blocks_ordered hkeys).imp And.left)
    ((blocks_ordered hkeys').imp And.left)]
  intro b
  rw [mem_blocks_iff hcommon, mem_blocks_iff hcommon', hmem]

end Order

end Moving

/-! ## The order of the items -/

section Pairs
variable {α : Type} {x y : α} {l : List α}

theorem sublist_or_sublist (hx : x ∈ l) (hy : y ∈ l) (hne : x ≠ y) :
    [x, y].Sublist l ∨ [y, x].Sublist l := by
  obtain ⟨s, t, rfl⟩ := List.append_of_mem hx
  rcases List.mem_append.mp hy with hy | hy
  · exact Or.inr ((List.singleton_sublist.mpr hy).append (List.singleton_sublist.mpr List.mem_cons_self))
  · have hy := (List.mem_cons.mp hy).resolve_left (Ne.symm hne)
    exact Or.inl ((List.cons_sublist_cons.mpr (List.singleton_sublist.mpr hy)).trans
      (List.sublist_append_right s _))

/-- What stands once has one order. -/
theorem not_sublist_of_sublist (hnd : l.Nodup) (hxy : [x, y].Sublist l) : ¬ [y, x].Sublist l := by
  induction l with
  | nil => cases hxy
  | cons z l ih =>
    rw [List.nodup_cons] at hnd
    intro hyx
    cases hxy with
    | cons _ hxy =>
      cases hyx with
      | cons _ hyx => exact ih hnd.2 hxy hyx
      | cons_cons _ hyx => exact hnd.1 (hxy.subset (by simp))
    | cons_cons _ hy =>
      cases hyx with
      | cons _ hyx => exact hnd.1 (hyx.subset (by simp))
      | cons_cons _ hyx => exact hnd.1 (hyx.subset (by simp))

end Pairs

/-- Rows of items that stand once, by key, after a separator. -/
structure Orderly (rs : Rows κ ι) : Prop where
  keys : ∀ r ∈ rs, (Table.keys r).Nodup
  groups : ∀ r ∈ rs, ∀ p ∈ r, ∃ xs : List ι, p.2 = none :: xs.map some
  items : (rs.flatten.filterMap id).Nodup

/-- The keys of the row of a place. -/
def rowKeys (rs : Rows κ ι) (j : Nat) : List κ := Table.keys (rs.getD j [])

theorem nodup_rowKeys {rs : Rows κ ι} (h : ∀ r ∈ rs, (Table.keys r).Nodup) (j : Nat) :
    (rowKeys rs j).Nodup := by
  unfold rowKeys
  by_cases hj : j < rs.length
  · rw [List.getD_eq_getElem _ _ hj]
    exact h _ (List.getElem_mem hj)
  · rw [List.getD_eq_default _ _ (Nat.le_of_not_lt hj)]
    exact List.nodup_nil

section Items
variable [DecidableEq κ] {ls : List (Option κ)} {rs : Rows κ ι}

theorem eq_table (h : ∀ r ∈ rs, (Table.keys r).Nodup) :
    rs = table rs.length (rowKeys rs) (groupIn rs) := by
  apply List.ext_getElem
  · simp [table]
  · intro j hj _
    have hrow : rs.getD j [] = rs[j] := List.getD_eq_getElem _ _ hj
    simp only [table, List.getElem_map, List.getElem_range, rowKeys, groupIn, hrow, Table.keys,
      List.map_map]
    refine (List.map_id _).symm.trans (List.map_congr_left fun p hp => ?_)
    have hget := (Table.mem_iff_get? (h _ (List.getElem_mem hj)) p.1 p.2).mp hp
    simp [groupAt, hget]

theorem mem_of_mem_groupIn {b : Nat × κ} {x : Option ι} (hx : x ∈ groupIn rs b.1 b.2) :
    b.1 < rs.length ∧ b.2 ∈ rowKeys rs b.1 := by
  have hk : b.2 ∈ rowKeys rs b.1 := by
    by_contra hk
    rw [groupIn, groupAt, Option.bind_some, (Table.get?_eq_none_iff _ _).mpr hk] at hx
    simp at hx
  refine ⟨?_, hk⟩
  by_contra hj
  rw [rowKeys, List.getD_eq_default _ _ (Nat.le_of_not_lt hj)] at hk
  cases hk

theorem mem_flatten_iff (h : ∀ r ∈ rs, (Table.keys r).Nodup) {x : Option ι} :
    x ∈ rs.flatten ↔ ∃ b : Nat × κ, x ∈ groupIn rs b.1 b.2 := by
  have hflat : rs.flatten =
      (List.range rs.length).flatMap (fun j => (rowKeys rs j).flatMap (groupIn rs j)) := by
    rw [← flatten_table, ← eq_table h]
  simp only [hflat, List.mem_flatMap, List.mem_range]
  constructor
  · rintro ⟨j, _, k, _, hx⟩
    exact ⟨(j, k), hx⟩
  · rintro ⟨b, hx⟩
    obtain ⟨hj, hk⟩ := mem_of_mem_groupIn hx
    exact ⟨b.1, hj, b.2, hk, hx⟩

theorem groupIn_eq_cons (h : Orderly rs) {b : Nat × κ} {x : Option ι}
    (hx : x ∈ groupIn rs b.1 b.2) : ∃ xs : List ι, groupIn rs b.1 b.2 = none :: xs.map some := by
  obtain ⟨hj, hk⟩ := mem_of_mem_groupIn hx
  rw [rowKeys, List.getD_eq_getElem _ _ hj] at hk
  obtain ⟨g, hg⟩ := Table.exists_get?_of_mem hk
  have hmem := (Table.mem_iff_get? (h.keys _ (List.getElem_mem hj)) b.2 g).mpr hg
  rw [groupIn, List.getD_eq_getElem _ _ hj, groupAt, Option.bind_some, hg]
  exact h.groups _ (List.getElem_mem hj) _ hmem

theorem blocks_arranged (ls : List (Option κ)) (h : ∀ r ∈ rs, (Table.keys r).Nodup) :
    (blocks ls rs.length (arranged ls rs)).Pairwise (Precedes ls) :=
  blocks_ordered fun j => arrange_pairwise _ _ (nodup_rowKeys h j)

section Linked
variable (hl : Linked ls (rs.map Table.keys))
include hl

omit [DecidableEq κ] in
theorem Linked.rowKeys (m : Nat) (k : κ) (hk : linkAt ls m = some k) :
    k ∈ rowKeys rs m ∧ k ∈ rowKeys rs (m + 1) := by
  have hrow : ∀ j, (rs.map Table.keys).getD j [] = Chain.rowKeys rs j :=
    fun j => List.getD_map rs [] Table.keys
  have hcommon := hl.common m k hk
  rwa [hrow, hrow] at hcommon

theorem mem_arranged (j : Nat) (k : κ) : k ∈ arranged ls rs j ↔ k ∈ rowKeys rs j := by
  refine mem_arrange (fun k hk => ?_) (fun k hk => (hl.rowKeys j k hk).1) k
  cases j with
  | zero => cases hk
  | succ m => exact (hl.rowKeys m k hk).2

theorem arranged_common (m : Nat) (k : κ) (hk : linkAt ls m = some k) :
    k ∈ arranged ls rs m ∧ k ∈ arranged ls rs (m + 1) := by
  rw [mem_arranged hl, mem_arranged hl]
  exact hl.rowKeys m k hk

/-- The rows after arranging and moving. -/
theorem move_sort :
    move ls (sort ls rs) = table rs.length (arranged ls rs) (moved ls (groupIn rs) rs.length) := by
  rw [sort_eq (by simpa using hl.length),
    move_table _ _ _ _ (fun m k hk => (arranged_common hl m k hk).2)]

theorem flatten_move : (move ls (sort ls rs)).flatten =
    (blocks ls rs.length (arranged ls rs)).flatMap (fun b => groupIn rs b.1 b.2) := by
  rw [move_sort hl, flatten_table_moved]

/-- Moving loses and repeats nothing. -/
theorem flatten_move_perm (h : ∀ r ∈ rs, (Table.keys r).Nodup) :
    (move ls (sort ls rs)).flatten.Perm rs.flatten := by
  have hstay : rs.flatten = (blocks [] rs.length (rowKeys rs)).flatMap
      (fun b => groupIn rs b.1 b.2) := by
    rw [← flatten_table_moved, table_moved_nil, ← eq_table h]
  rw [hstay, flatten_move hl]
  refine List.Perm.flatMap_right _ (blocks_perm (fun j => ?_) (fun j => ?_) (arranged_common hl)
    (fun m k hk => by simp at hk) (mem_arranged hl))
  · exact arrange_pairwise _ _ (nodup_rowKeys h j)
  · exact (nodup_rowKeys h j).imp fun hne => ⟨hne, fun hk => by simp at hk⟩

/-- Where an item stands before an item of a later row. -/
theorem sublist_flatten_move_iff (h : Orderly rs) {a b : Nat × κ} {x y : ι}
    (hx : some x ∈ groupIn rs a.1 a.2) (hy : some y ∈ groupIn rs b.1 b.2) (hab : a.1 < b.1) :
    [some x, none, some y].Sublist (move ls (sort ls rs)).flatten ↔ ¬ Overtakes ls b a := by
  have hmem : ∀ {b : Nat × κ} {x : Option ι}, x ∈ groupIn rs b.1 b.2 →
      b ∈ blocks ls rs.length (arranged ls rs) := by
    intro b x hx
    rw [mem_blocks_iff (arranged_common hl), mem_arranged hl]
    exact mem_of_mem_groupIn hx
  have horder : ∀ a b, [a, b].Sublist (blocks ls rs.length (arranged ls rs)) → Precedes ls a b :=
    fun _ _ => List.pairwise_iff_forall_sublist.mp (blocks_arranged ls h.keys)
  have hpair := sublist_or_sublist (hmem hx) (hmem hy) fun heq => by simp [heq] at hab
  constructor
  · intro hsub hover
    -- the block of `y` comes first, and the items stand only once
    have hba := hpair.resolve_left fun h => (horder a b h).2.1 hab hover
    have hyx : [some y, some x].Sublist (move ls (sort ls rs)).flatten := by
      rw [flatten_move hl]
      refine List.Sublist.trans ?_ (hba.flatMap _)
      simpa using (List.singleton_sublist.mpr hy).append (List.singleton_sublist.mpr hx)
    have hnd : ((move ls (sort ls rs)).flatten.filterMap id).Nodup :=
      ((flatten_move_perm hl h.keys).filterMap id).nodup_iff.mpr h.items
    exact not_sublist_of_sublist hnd (by simpa using hsub.filterMap id)
      (by simpa using hyx.filterMap id)
  · intro hover
    have hba := hpair.resolve_right fun h => hover ((horder b a h).2.2 hab)
    obtain ⟨xs, hxs⟩ := groupIn_eq_cons h hy
    have hsep : [none, some y].Sublist (groupIn rs b.1 b.2) := by
      rw [hxs] at hy ⊢
      exact List.cons_sublist_cons.mpr (List.singleton_sublist.mpr (by simpa using hy))
    rw [flatten_move hl]
    refine List.Sublist.trans ?_ (hba.flatMap _)
    simpa using (List.singleton_sublist.mpr hx).append hsep

/-- The keys of arranged rows are keys of the rows, also after moving. -/
theorem exists_mem_of_mem_table {β : Type} {groups : Nat → κ → Group β} {r : Row κ β}
    (hr : r ∈ table rs.length (arranged ls rs) groups) {p : κ × Group β} (hp : p ∈ r) :
    ∃ r' ∈ rs, ∃ q ∈ r', q.1 = p.1 := by
  obtain ⟨j, hj, rfl⟩ := List.mem_map.mp hr
  obtain ⟨k, hk, rfl⟩ := List.mem_map.mp hp
  rw [mem_arranged hl, rowKeys, List.getD_eq_getElem _ _ (List.mem_range.mp hj)] at hk
  obtain ⟨q, hq, rfl⟩ := List.mem_map.mp hk
  exact ⟨_, List.getElem_mem _, q, hq, rfl⟩

end Linked

end Items

end Chain

/-! ## Emptied groups and merging back -/

namespace Rows

variable {κ ι : Type}

theorem flatten_filterEmpty (rs : Rows κ ι) : (filterEmpty rs).flatten = rs.flatten := by
  have hgroups : ∀ r : Row κ ι, (r.filter (fun p => !p.2.isEmpty)).flatMap (·.2) = r.flatMap (·.2) := by
    intro r
    induction r with
    | nil => rfl
    | cons p r ih =>
      rw [List.filter_cons, List.flatMap_cons, ← ih]
      cases hp : p.2 <;> simp [hp]
  unfold filterEmpty flatten
  induction rs with
  | nil => rfl
  | cons r rs ih =>
    rw [List.map_cons, List.filter_cons, List.flatMap_cons, ← ih, ← hgroups r]
    cases hr : r.filter (fun p => !p.2.isEmpty) <;> simp

theorem mem_filterEmpty {rs : Rows κ ι} {r : Row κ ι} (hr : r ∈ filterEmpty rs) {p : κ × Group ι}
    (hp : p ∈ r) : ∃ r' ∈ rs, p ∈ r' := by
  obtain ⟨r', hr', rfl⟩ := List.mem_map.mp (List.mem_filter.mp hr).1
  exact ⟨r', hr', (List.mem_filter.mp hp).1⟩

section Merge

/-- Groups in the order of their rows, `n` in number. -/
def InRows (n : Nat) (es : List (Entry ι)) : Prop :=
  (es.map (·.row)).Pairwise (· ≤ ·) ∧ ∀ i ∈ es.map (·.row), i < n

theorem entries_eq (rs : Rows Key ι) : rs.entries =
    rs.zipIdx.flatMap (fun p => p.1.map (fun q => { row := p.2, key := q.1, items := q.2 })) := by
  rw [entries, List.mapIdx_eq_zipIdx_map, List.flatMap_def]

theorem mem_entries {rs : Rows Key ι} {e : Entry ι} (he : e ∈ rs.entries) :
    ∃ r ∈ rs, (e.key, e.items) ∈ r := by
  rw [entries_eq] at he
  obtain ⟨p, hp, he⟩ := List.mem_flatMap.mp he
  obtain ⟨q, hq, rfl⟩ := List.mem_map.mp he
  exact ⟨p.1, List.fst_mem_of_mem_zipIdx hp, hq⟩

theorem pairwise_zipIdx {β : Type} (xs : List β) : xs.zipIdx.Pairwise (fun p q => p.2 < q.2) := by
  rw [← List.pairwise_map (f := Prod.snd) (R := (· < ·)), List.zipIdx_map_snd]
  exact List.pairwise_lt_range'

theorem entries_inRows (rs : Rows Key ι) : InRows rs.length rs.entries := by
  have hrows : rs.entries.map (·.row) = rs.zipIdx.flatMap (fun p => p.1.map (fun _ => p.2)) := by
    simp [entries_eq, List.map_flatMap, Function.comp_def]
  rw [InRows, hrows, List.pairwise_flatMap]
  refine ⟨⟨fun p _ => ?_, (pairwise_zipIdx rs).imp fun hpq i hi j hj => ?_⟩, fun i hi => ?_⟩
  · rw [List.map_const']
    exact List.pairwise_replicate.mpr (Or.inr (Nat.le_refl p.2))
  · obtain ⟨_, _, rfl⟩ := List.mem_map.mp hi
    obtain ⟨_, _, rfl⟩ := List.mem_map.mp hj
    exact Nat.le_of_lt hpq
  · obtain ⟨p, hp, hi⟩ := List.mem_flatMap.mp hi
    obtain ⟨_, _, rfl⟩ := List.mem_map.mp hi
    exact List.snd_lt_of_mem_zipIdx hp

theorem flatMap_entries (rs : Rows Key ι) : rs.entries.flatMap (·.items) = rs.flatten := by
  have hfst : rs.flatten = (rs.zipIdx.map Prod.fst).flatMap (fun r => r.flatMap (·.2)) := by
    rw [List.zipIdx_map_fst, flatten]
  rw [hfst, entries_eq, List.flatMap_assoc, List.flatMap_map]
  refine congrArg (rs.zipIdx.flatMap ·) (funext fun p => ?_)
  rw [List.flatMap_map]

theorem eq_filter_append_filter {n : Nat} {es : List (Entry ι)} (h : InRows (n + 1) es) :
    es = es.filter (fun e => e.row < n) ++ es.filter (fun e => e.row = n) := by
  obtain ⟨hsorted, hlt⟩ := h
  induction es with
  | nil => rfl
  | cons e es ih =>
    rw [List.map_cons, List.pairwise_cons] at hsorted
    have hlt' : ∀ i ∈ es.map (·.row), i < n + 1 := fun i hi => hlt i (List.mem_cons_of_mem _ hi)
    by_cases he : e.row < n
    · have hne : e.row ≠ n := Nat.ne_of_lt he
      simp only [List.filter_cons, he, hne, decide_true, decide_false, if_true, Bool.false_eq_true,
        if_false, List.cons_append]
      rw [← ih hsorted.2 hlt']
    · -- from here on all groups are of the last row
      have hlast : ∀ d ∈ e :: es, d.row = n := by
        intro d hd
        have hle : e.row ≤ d.row := by
          rcases List.mem_cons.mp hd with rfl | hd
          · exact Nat.le_refl _
          · exact hsorted.1 d.row (List.mem_map_of_mem hd)
        have := hlt d.row (List.mem_map_of_mem hd)
        omega
      rw [List.filter_eq_nil_iff.mpr fun d hd => by simp [hlast d hd],
        List.filter_eq_self.mpr fun d hd => by simp [hlast d hd], List.nil_append]

theorem flatMap_filter_row {n : Nat} {es : List (Entry ι)} (h : InRows n es) :
    (List.range n).flatMap (fun i => es.filter (fun e => e.row = i)) = es := by
  induction n generalizing es with
  | zero =>
    cases es with
    | nil => rfl
    | cons e es => exact absurd (h.2 e.row (by simp)) (Nat.not_lt_zero _)
  | succ n ih =>
    have hbefore : InRows n (es.filter (fun e => e.row < n)) := by
      refine ⟨h.1.sublist (List.filter_sublist.map _), fun i hi => ?_⟩
      obtain ⟨e, he, rfl⟩ := List.mem_map.mp hi
      simpa using (List.mem_filter.mp he).2
    have hrow : ∀ i ∈ List.range n, es.filter (fun e => e.row = i) =
        (es.filter (fun e => e.row < n)).filter (fun e => e.row = i) := by
      intro i hi
      rw [List.filter_filter]
      refine List.filter_congr fun e _ => ?_
      have := List.mem_range.mp hi
      by_cases he : e.row = i
      · simp [he, this]
      · simp [he]
    rw [List.range_succ, List.flatMap_append, List.flatMap_congr hrow, ih hbefore,
      List.flatMap_singleton, ← eq_filter_append_filter h]

theorem ofEntries_flatten {n : Nat} {es : List (Entry ι)} (h : InRows n es) :
    (ofEntries n es).flatten = es.flatMap (·.items) := by
  have hrows : (ofEntries n es).flatten =
      ((List.range n).flatMap (fun i => es.filter (fun e => e.row = i))).flatMap (·.items) := by
    simp only [ofEntries, flatten, List.flatMap_map, List.flatMap_assoc]
  rw [hrows, flatMap_filter_row h]

/-- Merging moves items between groups that follow each other. -/
theorem mergeFrom_keeps (last : Entry ι) (es : List (Entry ι)) :
    (mergeFrom last es).1.flatMap (·.items) = (last :: es).flatMap (·.items) ∧
      (mergeFrom last es).1.map (·.row) = (last :: es).map (·.row) := by
  induction es generalizing last with
  | nil => exact ⟨rfl, rfl⟩
  | cons e es ih =>
    rw [mergeFrom]
    split
    · exact ⟨rfl, rfl⟩
    · obtain ⟨hitems, hrows⟩ := ih { last with items := last.items ++ e.items }
      split
      · rename_i l rest r heq
        rw [heq] at hitems hrows
        simp only [List.flatMap_cons, List.map_cons, List.cons.injEq] at hitems hrows ⊢
        refine ⟨?_, hrows.1, trivial, hrows.2⟩
        rw [List.nil_append, hitems, List.append_assoc]
      · rename_i r heq
        rw [heq] at hrows
        cases hrows
    · obtain ⟨hitems, hrows⟩ := ih e
      refine ⟨?_, ?_⟩
      · rw [List.flatMap_cons, hitems]; rfl
      · rw [List.map_cons, hrows]; rfl

theorem joins_ok {last key : Key} (hl : last ≠ []) (hk : key ≠ []) : ∃ b, joins last key = .ok b := by
  cases key with
  | nil => exact absurd rfl hk
  | cons way key =>
    cases last with
    | nil => exact absurd rfl hl
    | cons way' last =>
      unfold joins
      by_cases h : way = "cl"
      · exact ⟨_, if_pos h⟩
      · exact ⟨_, if_neg h⟩

theorem mergeFrom_ok {last : Entry ι} {es : List (Entry ι)} (hl : last.key ≠ [])
    (hes : ∀ e ∈ es, e.key ≠ []) : (mergeFrom last es).2 = .ok () := by
  induction es generalizing last with
  | nil => rfl
  | cons e es ih =>
    have he := hes e List.mem_cons_self
    have hes := fun d hd => hes d (List.mem_cons_of_mem _ hd)
    obtain ⟨b, hb⟩ := joins_ok hl he
    rw [mergeFrom, hb]
    cases b with
    | true =>
      have hrun : (mergeFrom { last with items := last.items ++ e.items } es).2 = .ok () := ih hl hes
      dsimp only
      split <;> (rename_i heq; rw [heq] at hrun; exact hrun)
    | false => exact ih he hes

theorem backMerge_flatten (rs : Rows Key ι) : (backMerge rs).1.flatten = rs.flatten := by
  have hrows := entries_inRows rs
  rw [← flatMap_entries rs]
  unfold backMerge
  split
  · rename_i hnil
    rw [hnil, ← flatMap_entries rs, hnil]
  · rename_i e es hes
    obtain ⟨hitems, hplaces⟩ := mergeFrom_keeps e es
    rw [hes] at hrows ⊢
    rw [← hitems]
    refine ofEntries_flatten ?_
    rw [InRows, hplaces]
    exact hrows

theorem backMerge_ok {rs : Rows Key ι} (h : ∀ r ∈ rs, ∀ p ∈ r, p.1 ≠ []) :
    (backMerge rs).2 = .ok () := by
  have hkeys : ∀ e ∈ rs.entries, e.key ≠ [] := by
    intro e he
    obtain ⟨r, hr, hp⟩ := mem_entries he
    exact h r hr _ hp
  unfold backMerge
  split
  · rfl
  · rename_i e es hes
    rw [hes] at hkeys
    exact mergeFrom_ok (hkeys e List.mem_cons_self) fun d hd => hkeys d (List.mem_cons_of_mem _ hd)

end Merge

end Rows

namespace Chain

variable {ι : Type}

variable {order : List Key → List Key}

/-- The rows that optimising arranges, and joins if it is asked to. -/
def prepared (order : List Key → List Key) (join : Bool) (rs : Rows Key ι) : Rows Key ι :=
  let ls := links order (rs.map Table.keys)
  if join then (move ls (sort ls rs)).filterEmpty else sort ls rs

/-- Dropping empty groups and merging back leave the sequence as it is. -/
theorem optimize_sequence (order : List Key → List Key) (back join : Bool) (rs : Rows Key ι) :
    (optimize order back join rs).1.flatten = (prepared order join rs).flatten := by
  cases back with
  | false => rfl
  | true =>
    have hflat := Rows.backMerge_flatten (prepared order join rs)
    unfold optimize
    dsimp only [prepared] at hflat ⊢
    rw [if_pos rfl]
    generalize Rows.backMerge _ = m at hflat ⊢
    obtain ⟨merged, x⟩ := m
    cases x with
    | error _ => exact hflat
    | ok _ => exact (Rows.flatten_filterEmpty merged).trans hflat

/-- Merging back fails for keys without a way of grouping only. -/
theorem optimize_ok (horder : ∀ ks, ∀ k ∈ order ks, k ∈ ks) {rs : Rows Key ι}
    (hkeys : ∀ r ∈ rs, ∀ p ∈ r, p.1 ≠ []) (back join : Bool) : (optimize order back join rs).2 = .ok () := by
  have hl := links_linked horder (rs.map Table.keys)
  have hplain : ∀ r ∈ prepared order join rs, ∀ p ∈ r, p.1 ≠ [] := by
    intro r hr p hp
    obtain ⟨groups, r', hr', hp⟩ : ∃ groups, ∃ r' ∈ table rs.length
        (arranged (links order (rs.map Table.keys)) rs) groups, p ∈ r' := by
      cases join with
      | true =>
        obtain ⟨r', hr', hp⟩ := Rows.mem_filterEmpty hr hp
        exact ⟨_, r', move_sort hl ▸ hr', hp⟩
      | false =>
        refine ⟨groupIn rs, r, ?_, hp⟩
        rw [← sort_eq (by simpa using hl.length)]
        exact hr
    obtain ⟨r, hr, q, hq, heq⟩ := exists_mem_of_mem_table hl hr' hp
    exact heq ▸ hkeys r hr q hq
  cases back with
  | false => rfl
  | true =>
    have hok := Rows.backMerge_ok hplain
    unfold optimize
    dsimp only [prepared] at hok ⊢
    rw [if_pos rfl]
    generalize Rows.backMerge _ = m at hok ⊢
    obtain ⟨merged, x⟩ := m
    cases hok
    rfl

/-- The order that optimising leaves is that of moving. -/
theorem optimize_flatten (horder : ∀ ks, ∀ k ∈ order ks, k ∈ ks)
    {rs : Rows Key ι} (hkeys : ∀ r ∈ rs, ∀ p ∈ r, p.1 ≠ []) :
    ∃ out, optimize order true true rs = (out, .ok ()) ∧
      out.flatten = (move (links order (rs.map Table.keys))
        (sort (links order (rs.map Table.keys)) rs)).flatten := by
  refine ⟨(optimize order true true rs).1, Prod.ext rfl (optimize_ok horder hkeys true true), ?_⟩
  rw [optimize_sequence]
  exact Rows.flatten_filterEmpty _

end Chain

end FactorPlan
