import FactorPlan.Proofs.Inlining
import FactorPlan.Proofs.Splitting
import Mathlib.Data.List.Flatten
import Mathlib.Data.List.Induction
import Mathlib.Data.List.Perm.Basic

/-!
The rows of a plan. Each generation after the first gives a row, in which the columns
stand by key in order of first occurrence, those of one key after a separator
(`rows_eq`). So every column that is not given is an item of the rows exactly once
(`count_itemNames_layout`), below the columns that it depends on.
-/

namespace FactorPlan

/-! ## Gathering by key -/

namespace Rows

variable {κ ι : Type} [DecidableEq κ]

/-- The row of listed items: keys in order of first occurrence, each with its items after a
separator. -/
def gather (xs : List (κ × ι)) : Row κ ι :=
  (xs.map (·.1)).eraseDups.map (fun k =>
    (k, none :: (xs.filter (fun x => x.1 = k)).map (fun x => some x.2)))

theorem keys_gather (xs : List (κ × ι)) : Table.keys (gather xs) = (xs.map (·.1)).eraseDups := by
  simp [Table.keys, gather, Function.comp_def]

theorem set_map_of_mem {α : Type} (f : κ → α) {ks : List κ} (hnd : ks.Nodup) {k : κ} (hk : k ∈ ks)
    (a : α) :
    Table.set k a (ks.map (fun j => (j, f j))) =
      ks.map (fun j => (j, if j = k then a else f j)) := by
  induction ks with
  | nil => cases hk
  | cons j ks ih =>
    rw [List.nodup_cons] at hnd
    simp only [List.map_cons, Table.set]
    by_cases hj : j = k
    · have hrest : ∀ i ∈ ks, (i, f i) = (i, if i = k then a else f i) := by
        intro i hi
        rw [if_neg]
        rintro rfl
        exact hnd.1 (hj ▸ hi)
      rw [if_pos hj, if_pos hj, List.map_congr_left hrest]
    · rw [if_neg hj, if_neg hj,
        ih hnd.2 ((List.mem_cons.mp hk).resolve_left (fun h => hj h.symm))]

theorem set_of_not_mem {α : Type} {t : Table κ α} {k : κ} (hk : k ∉ Table.keys t) (a : α) :
    Table.set k a t = t ++ [(k, a)] := by
  induction t with
  | nil => rfl
  | cons p t ih =>
    obtain ⟨j, b⟩ := p
    simp only [Table.keys_cons, List.mem_cons, not_or] at hk
    rw [Table.set, if_neg (fun h => hk.1 h.symm), ih hk.2]
    rfl

theorem eraseDups_concat (ks : List κ) (k : κ) : (ks ++ [k]).eraseDups =
    if k ∈ ks then ks.eraseDups else ks.eraseDups ++ [k] := by
  rw [List.eraseDups_append]
  by_cases hk : k ∈ ks
  · rw [if_pos hk, show [k].removeAll ks = [] by simpa [List.removeAll] using hk,
      List.eraseDups_nil, List.append_nil]
  · rw [if_neg hk, show [k].removeAll ks = [k] by simpa [List.removeAll] using hk]
    rfl

section Put
variable (xs : List (κ × ι)) (k : κ) (x : ι)

/-- The groups of other keys stay. -/
theorem filter_concat_of_ne {j : κ} (hj : j ≠ k) :
    (xs ++ [(k, x)]).filter (fun y => y.1 = j) = xs.filter (fun y => y.1 = j) := by
  simp [List.filter_append, Ne.symm hj]

theorem filter_concat_self :
    (xs ++ [(k, x)]).filter (fun y => y.1 = k) = xs.filter (fun y => y.1 = k) ++ [(k, x)] := by
  simp [List.filter_append]

/-- Putting one more item after the others. -/
theorem put_gather : put k (some x) (gather xs) = gather (xs ++ [(k, x)]) := by
  have hkeys := eraseDups_concat (xs.map (·.1)) k
  unfold put
  by_cases hk : k ∈ xs.map (·.1)
  · -- the key is there: its group gets longer
    have hmem := List.mem_eraseDups.mpr hk
    rw [show Table.get? k (gather xs) = some _ from Table.get?_map_of_mem _ hmem]
    dsimp only
    rw [if_pos hk] at hkeys
    rw [gather, gather, set_map_of_mem _ (Grouping.nodup_eraseDups _) hmem, List.map_append,
      List.map_singleton, hkeys]
    refine List.map_congr_left fun j _ => ?_
    by_cases hj : j = k
    · rw [if_pos hj, hj, filter_concat_self]
      simp
    · rw [if_neg hj, filter_concat_of_ne xs k x hj]
  · -- the key is new
    have hnew : k ∉ Table.keys (gather xs) := by
      rw [keys_gather, List.mem_eraseDups]
      exact hk
    have hnone : xs.filter (fun y => y.1 = k) = [] := by
      rw [List.filter_eq_nil_iff]
      intro y hy he
      exact hk (List.mem_map.mpr ⟨y, hy, by simpa using he⟩)
    rw [(Table.get?_eq_none_iff k _).mpr hnew]
    dsimp only
    rw [if_neg hk] at hkeys
    rw [set_of_not_mem hnew, gather, gather, List.map_append, List.map_singleton, hkeys,
      List.map_append]
    congr 1
    · refine List.map_congr_left fun j hj => ?_
      rw [filter_concat_of_ne]
      rintro rfl
      exact hk (List.mem_eraseDups.mp hj)
    · simp [hnone]

end Put

theorem foldl_put (xs : List (κ × ι)) :
    xs.foldl (fun r x => put x.1 (some x.2) r) [] = gather xs := by
  induction xs using List.reverseRecOn with
  | nil => rfl
  | append_singleton xs x ih => rw [List.foldl_append, ih]; exact put_gather xs x.1 x.2

theorem mem_keys_gather {xs : List (κ × ι)} {k : κ} :
    k ∈ Table.keys (gather xs) ↔ ∃ x ∈ xs, x.1 = k := by
  rw [keys_gather, List.mem_eraseDups, List.mem_map]

theorem nodup_keys_gather (xs : List (κ × ι)) : (Table.keys (gather xs)).Nodup := by
  rw [keys_gather]
  exact Grouping.nodup_eraseDups _

theorem mem_gather {xs : List (κ × ι)} {p : κ × Group ι} (h : p ∈ gather xs) :
    p.2 = none :: (xs.filter (fun x => x.1 = p.1)).map (fun x => some x.2) := by
  obtain ⟨k, _, rfl⟩ := List.mem_map.mp h
  rfl

/-- The group of a key holds what has the key. -/
theorem mem_group_gather {xs : List (κ × ι)} {k : κ} {x : ι} :
    (∃ group, (k, group) ∈ gather xs ∧ some x ∈ group) ↔ (k, x) ∈ xs := by
  constructor
  · rintro ⟨group, hgroup, hx⟩
    rw [show group = _ from mem_gather hgroup] at hx
    obtain ⟨y, hy, hyx⟩ := List.mem_map.mp ((List.mem_cons.mp hx).resolve_left (by simp))
    cases hyx
    obtain ⟨hy, hk⟩ := List.mem_filter.mp hy
    have hk : y.1 = k := of_decide_eq_true hk
    exact hk ▸ hy
  · intro hx
    obtain ⟨group, hgroup⟩ := Table.exists_get?_of_mem (mem_keys_gather.mpr ⟨(k, x), hx, rfl⟩)
    have hmem := (Table.mem_iff_get? (nodup_keys_gather xs) k group).mpr hgroup
    refine ⟨group, hmem, ?_⟩
    rw [show group = _ from mem_gather hmem]
    exact List.mem_cons_of_mem _ (List.mem_map.mpr ⟨(k, x), List.mem_filter.mpr ⟨hx, by simp⟩, rfl⟩)

/-- Gathering loses and repeats no item. -/
theorem items_gather (xs : List (κ × ι)) :
    (((gather xs).flatMap (·.2)).filterMap id).Perm (xs.map (·.2)) := by
  have hgroups : ((gather xs).flatMap (·.2)).filterMap id =
      ((xs.map (·.1)).eraseDups.flatMap (fun k => xs.filter (fun x => x.1 = k))).map (·.2) := by
    simp [gather, List.flatMap_map, List.filterMap_flatMap, List.map_flatMap, List.filterMap_map]
  rw [hgroups]
  refine List.Perm.map _ ?_
  have hpart : ∀ ks : List κ, ks.Nodup →
      (ks.flatMap (fun k => xs.filter (fun x => x.1 = k))).Perm (xs.filter (fun x => x.1 ∈ ks)) := by
    intro ks hks
    induction ks with
    | nil => simp
    | cons k ks ih =>
      rw [List.nodup_cons] at hks
      rw [List.flatMap_cons]
      refine ((ih hks.2).append_left _).trans ?_
      have hsplit := List.filter_append_perm (fun x : κ × ι => decide (x.1 = k))
        (xs.filter (fun x => x.1 ∈ k :: ks))
      rw [List.filter_filter, List.filter_filter] at hsplit
      refine List.Perm.trans (List.Perm.of_eq ?_) hsplit
      congr 1
      · refine List.filter_congr fun x _ => ?_
        by_cases hx : x.1 = k <;> simp [hx]
      · refine List.filter_congr fun x _ => ?_
        by_cases hx : x.1 = k
        · simp [hx, hks.1]
        · simp [hx]
  refine (hpart _ (Grouping.nodup_eraseDups _)).trans (List.Perm.of_eq ?_)
  rw [List.filter_eq_self]
  intro x hx
  simpa using ⟨x.2, hx⟩

end Rows

/-! ## The rows of a graph -/

namespace Plan

namespace Graph

variable {g : Graph}

/-- The item of a column, with its key. -/
def entry (g : Graph) (v : String) : Key × Item :=
  (((g.get? v).bind (·.key)).getD [], (v, (g.exprOf v).getD default))

/-- The row of a generation. -/
def rowOf (g : Graph) (vs : List String) : Row Key Item := Rows.gather (vs.map (entry g))

/-- The rows of a plan: one for each generation after the first. -/
def layout (g : Graph) : Rows Key Item := (g.generations.1.drop 1).map (rowOf g)

/-- The item of an entry with its expression as content. -/
def withContent (x : Key × Item) : Key × (String × Content) := (x.1, (x.2.1, .expr x.2.2))

theorem append_concat {κ ι : Type} [DecidableEq κ] (rs : Rows κ ι) (r : Row κ ι) (k : κ)
    (x : Option ι) : Rows.append k x (rs ++ [r]) = .ok (rs ++ [Rows.put k x r]) := by
  induction rs with
  | nil => rfl
  | cons a rs ih =>
    cases rs with
    | nil => rfl
    | cons b rs =>
      rw [List.cons_append, Rows.append, ih]
      · rfl
      · simp

/-- A loop whose steps succeed, followed through a view `F` of its states. -/
theorem foldlM_ok {α σ τ ε : Type} {f : σ → α → Except ε σ} (F : τ → σ) (step : τ → α → τ)
    {xs : List α} (h : ∀ t, ∀ x ∈ xs, f (F t) x = .ok (F (step t x))) (t : τ) :
    xs.foldlM f (F t) = .ok (F (xs.foldl step t)) := by
  induction xs generalizing t with
  | nil => rfl
  | cons x xs ih =>
    rw [List.foldlM_cons, h t x (by simp)]
    exact ih (fun t y hy => h t y (by simp [hy])) (step t x)

theorem addRow_eq (h : Planned g) (rs : Rows Key (String × Content)) {vs : List String}
    (hvs : ∀ v ∈ vs, v ∈ g.vertices) :
    addRow g rs vs = .ok (rs ++ [Rows.gather (vs.map (fun v => withContent (entry g v)))]) := by
  rw [← Rows.foldl_put, List.foldl_map]
  refine foldlM_ok (fun r => rs ++ [r]) _ (fun r v hv => ?_) []
  obtain ⟨c, e, k, ss, hc, hx, hk, _⟩ := h.known v (hvs v hv)
  have hcol : g.column v = .ok c := by rw [column, hc]; rfl
  have hkey : known c.key = .ok k := by rw [hk]; rfl
  have hexpr : known c.expr = .ok (.expr e) := by rw [hx]; rfl
  have hentry : withContent (entry g v) = (k, (v, .expr e)) := by
    simp [withContent, entry, hc, hk, (exprOf_eq_some_iff g v e).mpr ⟨c, hc, hx⟩]
  simp only [hcol, hkey, hexpr, hentry, append_concat, Bind.bind, Except.bind, Except.mapError]

theorem itemsOf_gather (xs : List (Key × Item)) :
    (Rows.gather (xs.map withContent)).map (fun p => (p.1, itemsOf p.2)) = Rows.gather xs := by
  have hgroup : ∀ ys : List (Key × Item),
      itemsOf (none :: (ys.map withContent).map (fun x => some x.2)) =
        none :: ys.map (fun x => some x.2) := by
    intro ys
    induction ys with
    | nil => rfl
    | cons y ys ih => simpa [itemsOf, withContent] using ih
  simp only [Rows.gather, List.map_map, List.filter_map, Function.comp_def]
  refine List.map_congr_left fun k _ => ?_
  have := hgroup (xs.filter (fun x => x.1 = k))
  rw [List.map_map] at this
  exact Prod.ext rfl this

/-- The rows of a graph in which no column depends on itself. -/
theorem rows_eq (h : Planned g) (hrest : g.generations.2 = []) : rows g = .ok (layout g) := by
  have hrun := foldlM_ok (f := addRow g) id
    (fun rs vs => rs ++ [Rows.gather (vs.map (fun v => withContent (entry g v)))])
    (fun rs vs hvs => addRow_eq h rs fun _ =>
      Digraph.mem_vertices_of_generation h.wellFormed hvs) []
  rw [List.foldl_append_eq_append] at hrun
  have hrows : rows g = (g.generations.1.foldlM (addRow g) [] >>= fun rs =>
      if g.generations.2.isEmpty then
        .ok ((rs.drop 1).map (fun r => r.map (fun p => (p.1, itemsOf p.2))))
      else .error .cyclic) := rfl
  rw [hrows, hrest, show g.generations.1.foldlM (addRow g) [] = .ok _ from hrun]
  show Except.ok _ = Except.ok _
  congr 1
  have hrow : ∀ vs : List String, (Rows.gather (vs.map (fun v => withContent (entry g v)))).map
      (fun p => (p.1, itemsOf p.2)) = rowOf g vs := by
    intro vs
    have := itemsOf_gather (vs.map (entry g))
    rwa [List.map_map] at this
  rw [layout, id, List.nil_append, ← List.flatMap_def, ← List.map_eq_flatMap, ← List.map_drop,
    List.map_map]
  exact List.map_congr_left fun vs _ => hrow vs

/-- The names of the items of rows, in order. -/
def itemNames (rs : Rows Key Item) : List String := (rs.flatten.filterMap id).map (·.1)

/-- The items are the columns of all generations but the first. -/
theorem itemNames_layout (g : Graph) :
    (itemNames (layout g)).Perm (g.generations.1.drop 1).flatten := by
  unfold itemNames layout Rows.flatten
  generalize g.generations.1.drop 1 = gens
  induction gens with
  | nil => simp
  | cons vs gens ih =>
    rw [List.map_cons, List.flatMap_cons, List.filterMap_append, List.map_append,
      List.flatten_cons]
    refine List.Perm.append ?_ ih
    have hrow := (Rows.items_gather (vs.map (entry g))).map (·.1)
    simpa [rowOf, entry, Function.comp_def] using hrow

/-- Every column that is not given is an item, once. -/
theorem count_itemNames_layout (hg : g.WellFormed) (hrest : g.generations.2 = []) {v : String}
    (hv : v ∈ g.vertices) (hp : g.pred v ≠ []) : (itemNames (layout g)).count v = 1 := by
  have hperm := Digraph.generations_perm hg
  rw [hrest, List.append_nil] at hperm
  have hnd : g.generations.1.flatten.Nodup := hperm.nodup_iff.mpr hg.nodup_vertices
  rw [(itemNames_layout g).count_eq]
  rcases Digraph.generations_eq g with ⟨_, hnil⟩ | ⟨later, hlater⟩
  · rw [hnil] at hperm
    exact absurd (hperm.mem_iff.mpr hv) (by simp)
  · have hmem := hperm.mem_iff.mpr hv
    rw [hlater] at hnd hmem ⊢
    rw [List.flatten_cons] at hnd hmem
    rw [List.drop_one, List.tail_cons]
    refine List.count_eq_one_of_mem (List.nodup_append.mp hnd).2.1 ?_
    exact (List.mem_append.mp hmem).resolve_left fun hs => hp ((g.mem_sources v).mp hs).2

end Graph

end Plan

end FactorPlan
