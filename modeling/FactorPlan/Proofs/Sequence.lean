import FactorPlan.Proofs.Chain
import Mathlib.Data.List.Chain

/-!
The sequence of items where no links clash. A row begins with the group that links it to the
row before and ends with the one that links it to the row after. Moving carries the first
group of a row to the end of the row before, which is where it stood in the sequence already;
it goes further only where two links that follow each other are the same key.

  1. `blocks_of_unclashing`: without such links moving leaves the blocks in their order.
  2. `optimize_sequence`: what optimising does to the sequence is what arranging, and moving
     where it is asked for, do to it. Dropping empty groups and merging back do nothing to it.
  3. `optimize_keeps_rows`: so without such links the rows stay one after the other, whatever
     is asked for.
-/

namespace FactorPlan

namespace Chain

variable {κ ι : Type}

/-- No two links that follow each other are the same key. -/
def Unclashing (ls : List (Option κ)) : Prop := ls.IsChain (fun a b => a = b → a = none)

instance [DecidableEq κ] (ls : List (Option κ)) : Decidable (Unclashing ls) :=
  inferInstanceAs (Decidable (ls.IsChain _))

theorem Unclashing.linkAt_succ {ls : List (Option κ)} (h : Unclashing ls) {m : Nat} {k : κ}
    (hk : linkAt ls m = some k) : linkAt ls (m + 1) ≠ some k := by
  intro hk'
  have hlink : ∀ {j}, linkAt ls j = some k → ∃ hj : j < ls.length, ls[j] = some k := by
    intro j hj
    obtain ⟨hlt, heq⟩ := List.getElem?_eq_some_iff.mp (Option.join_eq_some_iff.mp hj)
    exact ⟨hlt, heq⟩
  obtain ⟨_, hm⟩ := hlink hk
  obtain ⟨hlt, hm'⟩ := hlink hk'
  have hnone := List.isChain_iff_getElem.mp h m hlt (hm.trans hm'.symm)
  rw [hm] at hnone
  cases hnone

/-! ## The order of the blocks -/

/-- What each row has at its end may as well stand at the beginning of the next. -/
theorem range_flatMap_shift {β : Type} (n : Nat) (first rest : Nat → List β) :
    first 0 ++ (List.range n).flatMap (fun r => rest r ++ first (r + 1)) =
      (List.range n).flatMap (fun r => first r ++ rest r) ++ first n := by
  induction n with
  | zero => simp
  | succ n ih =>
    simp only [List.range_succ, List.flatMap_append, List.flatMap_singleton]
    rw [← List.append_assoc, ih]
    simp only [List.append_assoc]

section Blocks
variable [DecidableEq κ] {ls : List (Option κ)} {n r : Nat} {k : κ}

theorem landed_of_ne (hr : r < n) (hh : headAt ls r ≠ some k) (ht : linkAt ls r ≠ some k) :
    landed ls n r k = [(r, k)] := by
  obtain ⟨m, hm⟩ : ∃ m, n - r = m + 1 := ⟨n - r - 1, by omega⟩
  rw [landed, if_neg hh, hm, run, if_neg ht]
  rfl

/-- A link takes in the group of the next row, and of no row after it. -/
theorem landed_of_link (hclash : Unclashing ls) (hr : r + 1 < n) (ht : linkAt ls r = some k) :
    landed ls n r k = [(r, k), (r + 1, k)] := by
  have hh : headAt ls r ≠ some k := by
    cases r with
    | zero => simp [headAt]
    | succ m => exact fun hh => hclash.linkAt_succ hh ht
  obtain ⟨m, hm⟩ : ∃ m, n - r = m + 1 + 1 := ⟨n - r - 2, by omega⟩
  rw [landed, if_neg hh, hm, run, if_pos ht, run, if_neg (hclash.linkAt_succ ht)]
  rfl

/-- The keys of a row after the one that links it to the row before. -/
def afterHead (head tail : Option κ) (keys : List κ) : List κ :=
  keys.filter (fun k => some k ≠ head ∧ some k ≠ tail) ++ if tail = head then [] else tail.toList

theorem arrange_eq (head tail : Option κ) (keys : List κ) :
    arrange head tail keys = head.toList ++ afterHead head tail keys := List.append_assoc ..

/-- The blocks that land in a row: its own but for the one it begins with, and the one that the next
row begins with. -/
theorem flatMap_landed_arrange (hclash : Unclashing ls) (hr : r < n)
    (hnext : ∀ k, linkAt ls r = some k → r + 1 < n) (keys : List κ) :
    (arrange (headAt ls r) (linkAt ls r) keys).flatMap (landed ls n r) =
      (afterHead (headAt ls r) (linkAt ls r) keys).map (fun k => (r, k)) ++
        (headAt ls (r + 1)).toList.map (fun k => (r + 1, k)) := by
  have hhead : (headAt ls r).toList.flatMap (landed ls n r) = [] := by
    cases hh : headAt ls r with
    | none => rfl
    | some k => simp [landed, hh]
  have hinner : ∀ k ∈ keys.filter (fun k => some k ≠ headAt ls r ∧ some k ≠ linkAt ls r),
      landed ls n r k = [(r, k)] := by
    intro k hk
    obtain ⟨hh, ht⟩ := of_decide_eq_true (List.mem_filter.mp hk).2
    exact landed_of_ne hr (Ne.symm hh) (Ne.symm ht)
  rw [arrange_eq, afterHead, List.flatMap_append, List.flatMap_append, hhead, List.nil_append,
    List.flatMap_congr hinner, ← List.map_eq_flatMap, List.map_append, List.append_assoc]
  refine congrArg _ ?_
  cases ht : linkAt ls r with
  | none => simp [ht]
  | some k =>
    -- a row with one link to both neighbours would be a clash
    have hne : some k ≠ headAt ls r := by
      cases r with
      | zero => simp [headAt]
      | succ m => exact fun hh => hclash.linkAt_succ hh.symm ht
    rw [if_neg hne, headAt_succ, ht]
    simp [landed_of_link hclash (hnext k ht) ht]

/-- Without clashes moving leaves the blocks in the order in which they are arranged. -/
theorem blocks_of_unclashing {rs : Rows κ ι} (hl : Linked ls (rs.map Table.keys)) (hclash : Unclashing ls) :
    blocks ls rs.length (arranged ls rs) = blocks [] rs.length (arranged ls rs) := by
  -- a link joins two rows, so the last row has none to a row after it
  have hnext : ∀ {m k}, linkAt ls m = some k → m + 1 < rs.length := by
    intro m k hk
    by_contra hm
    have hmem := (hl.rowKeys m k hk).2
    rw [rowKeys, List.getD_eq_default _ _ (Nat.le_of_not_lt hm)] at hmem
    cases hmem
  let first (r : Nat) : List (Nat × κ) := (headAt ls r).toList.map (fun k => (r, k))
  let rest (r : Nat) : List (Nat × κ) :=
    (afterHead (headAt ls r) (linkAt ls r) (rowKeys rs r)).map (fun k => (r, k))
  have hlast : first rs.length = [] := by
    cases hn : rs.length with
    | zero => rfl
    | succ m =>
      cases hm : linkAt ls m with
      | none => simp [first, hm]
      | some k =>
        have := hnext hm
        omega
  have hmoved : ∀ r ∈ List.range rs.length,
      (arranged ls rs r).flatMap (landed ls rs.length r) = rest r ++ first (r + 1) := fun r hr =>
    flatMap_landed_arrange hclash (List.mem_range.mp hr) (fun _ => hnext) (rowKeys rs r)
  have hstay : ∀ r ∈ List.range rs.length,
      (arranged ls rs r).flatMap (landed [] rs.length r) = first r ++ rest r := by
    intro r hr
    have hrow : ∀ k ∈ arranged ls rs r, landed [] rs.length r k = [(r, k)] := fun k _ =>
      landed_of_ne (List.mem_range.mp hr) (by simp) (by simp)
    rw [List.flatMap_congr hrow, ← List.map_eq_flatMap, arranged, arrange_eq, List.map_append]
    rfl
  calc blocks ls rs.length (arranged ls rs)
      = first 0 ++ (List.range rs.length).flatMap (fun r => rest r ++ first (r + 1)) := by
        rw [blocks, List.flatMap_congr hmoved]
        rfl
    _ = (List.range rs.length).flatMap (fun r => first r ++ rest r) := by
        rw [range_flatMap_shift, hlast, List.append_nil]
    _ = blocks [] rs.length (arranged ls rs) := by
        rw [blocks, List.flatMap_congr hstay]

end Blocks

/-! ## The sequence of the items -/

section Rows
variable [DecidableEq κ] {ls : List (Option κ)} {rs : Rows κ ι}

theorem flatten_sort (hl : Linked ls (rs.map Table.keys)) : (sort ls rs).flatten =
    (blocks [] rs.length (arranged ls rs)).flatMap (fun b => groupIn rs b.1 b.2) := by
  rw [sort_eq (by simpa using hl.length), ← flatten_table_moved, table_moved_nil]

theorem flatten_move_of_unclashing (hl : Linked ls (rs.map Table.keys)) (hclash : Unclashing ls) :
    (move ls (sort ls rs)).flatten = (sort ls rs).flatten := by
  rw [flatten_move hl, flatten_sort hl, blocks_of_unclashing hl hclash]

/-- Arranging changes the order of the groups within each row and nothing else. -/
theorem sort_rows (hl : Linked ls (rs.map Table.keys)) (hnd : ∀ r ∈ rs, (Table.keys r).Nodup) :
    List.Forall₂ (fun s r : Row κ ι => (s.flatMap (·.2)).Perm (r.flatMap (·.2))) (sort ls rs) rs := by
  have hrow : ∀ j, (arranged ls rs j).Perm (rowKeys rs j) := fun j =>
    (List.perm_ext_iff_of_nodup ((arrange_pairwise _ _ (nodup_rowKeys hnd j)).imp And.left)
      (nodup_rowKeys hnd j)).mpr (mem_arranged hl j)
  have htable : List.Forall₂ (fun s r : Row κ ι => (s.flatMap (·.2)).Perm (r.flatMap (·.2)))
      (table rs.length (arranged ls rs) (groupIn rs)) (table rs.length (rowKeys rs) (groupIn rs)) := by
    rw [table, table, List.forall₂_map_left_iff, List.forall₂_map_right_iff, List.forall₂_same]
    intro j _
    rw [List.flatMap_map, List.flatMap_map]
    exact (hrow j).flatMap_right _
  rwa [← sort_eq (by simpa using hl.length), ← eq_table hnd] at htable

end Rows

section Optimize
variable {order : List Key → List Key}

/-- **Without clashes optimising keeps the rows one after the other.** Whatever is asked for, the sequence
of items and separators is that of the arranged rows: a part for each row, with the items of that row. And
for any rows merging back and dropping empty groups keeps the sequence. -/
theorem optimize_keeps_rows (horder : ∀ ks, ∀ k ∈ order ks, k ∈ ks) :
    (∀ rs : Rows Key ι, (∀ r ∈ rs, (Table.keys r).Nodup) → Unclashing (links order (rs.map Table.keys)) →
      ∀ back join,
        (optimize order back join rs).1.flatten = (sort (links order (rs.map Table.keys)) rs).flatten ∧
        (∃ parts : List (Group ι), (optimize order back join rs).1.flatten = parts.flatten ∧
          List.Forall₂ (fun part r => part.Perm (r.flatMap (·.2))) parts rs) ∧
        ((∀ r ∈ rs, ∀ p ∈ r, p.1 ≠ []) → (optimize order back join rs).2 = .ok ())) ∧
    ∀ rs : Rows Key ι, rs.backMerge.1.filterEmpty.flatten = rs.flatten ∧
      ((∀ r ∈ rs, ∀ p ∈ r, p.1 ≠ []) → rs.backMerge.2 = .ok ()) := by
  refine ⟨fun rs hnd hclash back join => ?_, fun rs => ⟨?_, Rows.backMerge_ok⟩⟩
  · have hl := links_linked horder (rs.map Table.keys)
    have hseq : (optimize order back join rs).1.flatten =
        (sort (links order (rs.map Table.keys)) rs).flatten := by
      rw [optimize_sequence, prepared]
      cases join with
      | true => exact (Rows.flatten_filterEmpty _).trans (flatten_move_of_unclashing hl hclash)
      | false => rfl
    refine ⟨hseq, ⟨(sort (links order (rs.map Table.keys)) rs).map (·.flatMap (·.2)), ?_, ?_⟩,
      fun hkeys => optimize_ok horder hkeys back join⟩
    · rw [hseq, Rows.flatten, List.flatMap_def]
    · rw [List.forall₂_map_left_iff]
      exact sort_rows hl hnd
  · rw [Rows.flatten_filterEmpty, Rows.backMerge_flatten]

end Optimize

/-- Three rows, each linked to the next by another key. -/
def linkedRows : Rows Key Nat :=
  [[(["cl"], [none, some 1]), (["ts", "asset", "date"], [none, some 2])],
   [(["cs", "date"], [none, some 3]), (["cl"], [none, some 4])],
   [(["ts", "asset", "date"], [none, some 5]), (["cs", "date"], [none, some 6])]]

/-- Two groups are joined and one moves back, and the rows stay one after the other. -/
theorem optimize_keeps_rows_linkedRows :
    Unclashing (links id (linkedRows.map Table.keys)) ∧
    optimize id true true linkedRows =
      ([[(["ts", "asset", "date"], [none, some 2, none, some 1, none, some 4])],
        [(["cs", "date"], [none, some 3, none, some 6])],
        [(["ts", "asset", "date"], [none, some 5])]], .ok ()) ∧
    (optimize id true true linkedRows).1.flatten =
      (sort (links id (linkedRows.map Table.keys)) linkedRows).flatten := by
  have hclash : Unclashing (links id (linkedRows.map Table.keys)) := by decide
  exact ⟨hclash, rfl,
    ((optimize_keeps_rows (fun ks k (hk : k ∈ id ks) => hk)).1 linkedRows (by decide) hclash true true).1⟩

end Chain

end FactorPlan
