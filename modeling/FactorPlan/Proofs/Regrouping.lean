import FactorPlan.Proofs.Chain
import FactorPlan.Proofs.Schedule
import FactorPlan.Proofs.Separators

/-!
What optimising does to the groups of rows. Every list of the optimised rows is made of
whole groups of the rows before (`Rows.fill`), so it is enough to follow the groups, each
known by the place of its row and its key.

  1. `build_built`: rows that are built step by step have each key once, and each list is
     a separator and items after it.
  2. `filterEmpty_fill`, `backMerge_fill`: dropping empty lists and merging back do to the
     filled rows what they do to the groups.
  3. `optimize_sites`: optimising puts each group into one list, under its key or, where it
     needs no grouping, under a key that does not group within dates.
  4. `optimize_regroups`: so nothing is lost or repeated, kinds are respected, and lists
     keep their separators.
-/

namespace FactorPlan

/-! ## Building rows -/

/-- A way of grouping with its columns. -/
inductive Kind where
  | plain
  | overTime (asset date : String)
  | acrossMarket (date : String)
  | withinGroup (date group : String)
  deriving DecidableEq, Repr

/-- The key of a way of grouping. -/
def Kind.key : Kind → Key
  | .plain => Key.plain
  | .overTime asset date => Key.overTime asset date
  | .acrossMarket date => Key.acrossMarket date
  | .withinGroup date group => Key.withinGroup date group

theorem Kind.key_ne_nil (k : Kind) : k.key ≠ [] := by
  cases k <;> simp [key, Key.plain, Key.overTime, Key.acrossMarket, Key.withinGroup]

/-- Only the plain key begins like it. -/
theorem Kind.eq_plain_of_head {k : Kind} (h : k.key.head? = some "cl") : k.key = Key.plain := by
  cases k <;> simp_all [key, Key.plain, Key.overTime, Key.acrossMarket, Key.withinGroup]

/-- A step in building rows. -/
inductive RowsStep (ι : Type) where
  | nextRow
  | append (kind : Kind) (item : ι)

namespace Rows

variable {ι : Type}

/-- The rows after a step. -/
def step (rs : Rows Key ι) : RowsStep ι → Except RowsError (Rows Key ι)
  | .nextRow => .ok rs.nextRow
  | .append k x => append k.key (some x) rs

/-- The rows that steps build, from none. -/
def build (steps : List (RowsStep ι)) : Except RowsError (Rows Key ι) := steps.foldlM step []

/-- A row as steps build it: each key once, the key of a way of grouping, with a separator and
items after it. -/
structure BuiltRow (r : Row Key ι) : Prop where
  keys : (Table.keys r).Nodup
  groups : ∀ p ∈ r, (∃ k : Kind, p.1 = k.key) ∧ ∃ xs : List ι, xs ≠ [] ∧ p.2 = block xs

theorem mem_of_mem_set {κ α : Type} [DecidableEq κ] {k : κ} {a : α} {t : Table κ α} {p : κ × α}
    (h : p ∈ Table.set k a t) : p = (k, a) ∨ p ∈ t := by
  induction t with
  | nil => exact Or.inl (List.mem_singleton.mp h)
  | cons q t ih =>
    rw [Table.set] at h
    split at h
    · rename_i hq
      rcases List.mem_cons.mp h with rfl | h
      · exact Or.inl (by rw [hq])
      · exact Or.inr (List.mem_cons_of_mem _ h)
    · rcases List.mem_cons.mp h with rfl | h
      · exact Or.inr List.mem_cons_self
      · exact (ih h).imp id (List.mem_cons_of_mem _)

theorem BuiltRow.put {r : Row Key ι} (h : BuiltRow r) (k : Kind) (x : ι) :
    BuiltRow (put k.key (some x) r) := by
  -- whichever list the item goes to, it is a separator and items
  have hset : ∀ xs : List ι, xs ≠ [] → BuiltRow (Table.set k.key (block xs) r) := by
    intro xs hxs
    refine ⟨Table.nodup_keys_set h.keys, fun p hp => ?_⟩
    rcases mem_of_mem_set hp with rfl | hp
    · exact ⟨⟨k, rfl⟩, xs, hxs, rfl⟩
    · exact h.groups p hp
  unfold Rows.put
  split
  · rename_i g hg
    obtain ⟨_, xs, _, hxs⟩ := h.groups _ ((Table.mem_iff_get? h.keys _ _).mpr hg)
    have hlonger : g ++ [some x] = block (xs ++ [x]) := by
      rw [show g = block xs from hxs, block, block, List.map_append]
      rfl
    rw [hlonger]
    exact hset _ (by simp)
  · exact hset [x] (by simp)

theorem step_built {rs rs' : Rows Key ι} {s : RowsStep ι} (h : ∀ r ∈ rs, BuiltRow r)
    (hs : step rs s = .ok rs') : ∀ r ∈ rs', BuiltRow r := by
  cases s with
  | nextRow =>
    cases hs
    intro r hr
    rcases List.mem_append.mp hr with hr | hr
    · exact h r hr
    · rw [List.mem_singleton.mp hr]
      exact ⟨List.nodup_nil, by simp⟩
  | append k x =>
    rcases List.eq_nil_or_concat rs with rfl | ⟨before, last, rfl⟩
    · cases hs
    · rw [step, List.concat_eq_append, Plan.Graph.append_concat] at hs
      cases hs
      intro r hr
      rcases List.mem_append.mp hr with hr | hr
      · exact h r (by simp [hr])
      · rw [List.mem_singleton.mp hr]
        exact (h last (by simp)).put k x

theorem build_built {steps : List (RowsStep ι)} {rs : Rows Key ι} (h : build steps = .ok rs) :
    ∀ r ∈ rs, BuiltRow r := by
  have hrun : ∀ (steps : List (RowsStep ι)) (before : Rows Key ι), (∀ r ∈ before, BuiltRow r) →
      steps.foldlM step before = .ok rs → ∀ r ∈ rs, BuiltRow r := by
    intro steps
    induction steps with
    | nil =>
      intro before hbefore hrs
      cases hrs
      exact hbefore
    | cons s steps ih =>
      intro before hbefore hrs
      rw [List.foldlM_cons] at hrs
      cases hs : step before s with
      | error e => rw [hs] at hrs; cases hrs
      | ok after => rw [hs] at hrs; exact ih after (step_built hbefore hs) hrs
  exact hrun steps [] (by simp) h

/-! ## Rows made of whole groups -/

section Fill
variable {κ β : Type} (part : β → Group ι)

/-- The list that parts make up. -/
def fillGroup (g : Group β) : Group ι := g.flatMap (fun b => b.elim [] part)

/-- The rows that parts make up. -/
def fill (sites : Rows κ β) : Rows κ ι := sites.map (fun r => r.map (fun p => (p.1, fillGroup part p.2)))

theorem fillGroup_append (g h : Group β) :
    fillGroup part (g ++ h) = fillGroup part g ++ fillGroup part h := List.flatMap_append

theorem fillGroup_map_some (bs : List β) : fillGroup part (bs.map some) = bs.flatMap part := by
  rw [fillGroup, List.flatMap_map]
  rfl

theorem flatten_fill (sites : Rows κ β) : (fill part sites).flatten = fillGroup part sites.flatten := by
  simp only [fill, flatten, fillGroup, List.flatMap_map, List.flatMap_assoc]

variable {part}

/-- The parts are there, and none is empty. -/
def Full (part : β → Group ι) (sites : Rows κ β) : Prop :=
  ∀ r ∈ sites, ∀ p ∈ r, ∀ x ∈ p.2, ∃ b, x = some b ∧ part b ≠ []

theorem isEmpty_fillGroup {g : Group β} (h : ∀ x ∈ g, ∃ b, x = some b ∧ part b ≠ []) :
    (fillGroup part g).isEmpty = g.isEmpty := by
  cases g with
  | nil => rfl
  | cons x g =>
    obtain ⟨b, rfl, hb⟩ := h x List.mem_cons_self
    cases hpart : part b with
    | nil => exact absurd hpart hb
    | cons y ys => simp [fillGroup, hpart]

theorem filterEmpty_fill {sites : Rows κ β} (h : Full part sites) :
    filterEmpty (fill part sites) = fill part (filterEmpty sites) := by
  have hrow : ∀ r ∈ sites, (r.map (fun p => (p.1, fillGroup part p.2))).filter (fun p => !p.2.isEmpty) =
      (r.filter (fun p => !p.2.isEmpty)).map (fun p => (p.1, fillGroup part p.2)) := by
    intro r hr
    rw [List.filter_map]
    refine congrArg _ (List.filter_congr fun p hp => ?_)
    simp [isEmpty_fillGroup (h r hr p hp)]
  have hrows : (fill part sites).map (fun r => r.filter (fun p => !p.2.isEmpty)) =
      fill part (sites.map (fun r => r.filter (fun p => !p.2.isEmpty))) := by
    rw [fill, fill, List.map_map, List.map_map]
    exact List.map_congr_left hrow
  rw [filterEmpty, hrows, fill, List.filter_map, fill, filterEmpty]
  refine congrArg _ (List.filter_congr fun r _ => ?_)
  simp

/-! ## Merging back -/

/-- The group that parts make up. -/
def Entry.fill (part : β → Group ι) (e : Entry β) : Entry ι :=
  { row := e.row, key := e.key, items := fillGroup part e.items }

theorem entries_fill (sites : Rows Key β) :
    entries (fill part sites) = (entries sites).map (Entry.fill part) := by
  simp only [entries_eq, fill, List.zipIdx_map, List.flatMap_map, List.map_flatMap, List.map_map,
    Function.comp_def, Prod.map_fst, Prod.map_snd, id_eq]
  rfl

theorem ofEntries_fill (n : Nat) (es : List (Entry β)) :
    ofEntries n (es.map (Entry.fill part)) = fill part (ofEntries n es) := by
  simp only [ofEntries, fill, List.filter_map, List.map_map, Function.comp_def]
  rfl

theorem mergeFrom_fill (last : Entry β) (es : List (Entry β)) :
    mergeFrom (last.fill part) (es.map (Entry.fill part)) =
      ((mergeFrom last es).1.map (Entry.fill part), (mergeFrom last es).2) := by
  induction es generalizing last with
  | nil => rfl
  | cons e es ih =>
    rw [List.map_cons, mergeFrom, mergeFrom]
    have hkeys : joins (last.fill part).key (e.fill part).key = joins last.key e.key := rfl
    rw [hkeys]
    cases hj : joins last.key e.key with
    | error x => rfl
    | ok b =>
      cases b with
      | false =>
        dsimp only
        rw [ih e]
        rfl
      | true =>
        have hjoined : ({ last.fill part with items := (last.fill part).items ++ (e.fill part).items } :
            Entry ι) = Entry.fill part { last with items := last.items ++ e.items } := by
          simp [Entry.fill, fillGroup_append]
        dsimp only
        rw [hjoined, ih]
        generalize mergeFrom { last with items := last.items ++ e.items } es = m
        obtain ⟨_ | ⟨l, rest⟩, r⟩ := m <;> rfl

theorem backMerge_fill (sites : Rows Key β) :
    backMerge (fill part sites) = (fill part (backMerge sites).1, (backMerge sites).2) := by
  unfold backMerge
  rw [entries_fill]
  cases hes : entries sites with
  | nil => rfl
  | cons e es =>
    rw [List.map_cons]
    dsimp only
    rw [mergeFrom_fill]
    dsimp only
    rw [ofEntries_fill]
    simp [fill]

/-- What may stand under a key, and may move with the key's group into one that it joins, stands
under such keys after merging. -/
theorem mergeFrom_within {P : Key → Option β → Prop}
    (hP : ∀ last key x, joins last key = .ok true → P key x → P last x)
    {last : Entry β} {es : List (Entry β)} (hlast : ∀ x ∈ last.items, P last.key x)
    (hes : ∀ e ∈ es, ∀ x ∈ e.items, P e.key x) :
    ∀ e ∈ (mergeFrom last es).1, ∀ x ∈ e.items, P e.key x := by
  induction es generalizing last with
  | nil =>
    intro e he
    rw [List.mem_singleton.mp he]
    exact hlast
  | cons e es ih =>
    have he := hes e List.mem_cons_self
    have hes' := fun d hd => hes d (List.mem_cons_of_mem _ hd)
    rw [mergeFrom]
    split
    · intro d hd
      rcases List.mem_cons.mp hd with rfl | hd
      · exact hlast
      · exact hes d hd
    · -- the items of `e` join the last list and take its key
      rename_i hj
      have hrun := @ih { last with items := last.items ++ e.items }
        (fun x hx => (List.mem_append.mp hx).elim (hlast x) fun hx => hP _ _ x hj (he x hx)) hes'
      split
      · rename_i l rest r heq
        rw [heq] at hrun
        intro d hd
        rcases List.mem_cons.mp hd with rfl | hd
        · exact hrun d List.mem_cons_self
        · rcases List.mem_cons.mp hd with rfl | hd
          · simp
          · exact hrun d (List.mem_cons_of_mem _ hd)
      · simp
    · intro d hd
      rcases List.mem_cons.mp hd with rfl | hd
      · exact hlast
      · exact ih he hes' d hd

theorem backMerge_within {P : Key → Option β → Prop}
    (hP : ∀ last key x, joins last key = .ok true → P key x → P last x)
    {sites : Rows Key β} (h : ∀ r ∈ sites, ∀ p ∈ r, ∀ x ∈ p.2, P p.1 x) :
    ∀ r ∈ (backMerge sites).1, ∀ p ∈ r, ∀ x ∈ p.2, P p.1 x := by
  have hentries : ∀ e ∈ sites.entries, ∀ x ∈ e.items, P e.key x := by
    intro e he
    obtain ⟨r, hr, hp⟩ := mem_entries he
    exact h r hr _ hp
  unfold backMerge
  split
  · exact h
  · rename_i e es hes
    rw [hes] at hentries
    have hmerged := mergeFrom_within hP (hentries e List.mem_cons_self)
      fun d hd => hentries d (List.mem_cons_of_mem _ hd)
    intro r hr p hp
    obtain ⟨i, _, rfl⟩ := List.mem_map.mp hr
    obtain ⟨d, hd, rfl⟩ := List.mem_map.mp hp
    exact hmerged d (List.mem_filter.mp hd).1

end Fill

end Rows

/-! ## Where optimising puts the groups -/

namespace Chain

open Rows (fill fillGroup Full Blocked block)

variable {κ ι : Type} [DecidableEq κ]

/-- The groups of rows, each by the place of its row and its key. -/
def places (rs : Rows κ ι) : List (Nat × κ) :=
  (List.range rs.length).flatMap (fun j => (rowKeys rs j).map (fun k => (j, k)))

/-- The items of a group. -/
def groupOf (rs : Rows κ ι) (b : Nat × κ) : Group ι := groupIn rs b.1 b.2

theorem places_eq (rs : Rows κ ι) : places rs = blocks [] rs.length (rowKeys rs) := by
  have hlanded : ∀ j ∈ List.range rs.length, (rowKeys rs j).map (fun k => (j, k)) =
      (rowKeys rs j).flatMap (landed [] rs.length j) := by
    intro j hj
    have hpos : 0 < rs.length - j := Nat.sub_pos_of_lt (List.mem_range.mp hj)
    rw [List.map_eq_flatMap]
    refine List.flatMap_congr fun k _ => ?_
    rw [landed, headAt_nil, if_neg (by simp), run_nil k _ _ hpos]
    rfl
  exact List.flatMap_congr hlanded

/-- The group may be under the key: it is its own, or the group needs no grouping and the key does
not group within dates. -/
def Fits (key : Key) (b : Nat × Key) : Prop :=
  b.2 = key ∨ b.2.head? = some "cl" ∧ key.head? ≠ some "gp"

theorem Fits.joins {last key : Key} {b : Nat × Key} (hj : Rows.joins last key = .ok true)
    (h : Fits key b) : Fits last b := by
  obtain _ | ⟨way, rest⟩ := key
  · cases hj
  · obtain _ | ⟨way', rest'⟩ := last
    · by_cases hw : way = "cl" <;> simp [Rows.joins, hw] at hj
    · by_cases hw : way = "cl"
      · have hgp : way' ≠ "gp" := by simpa [Rows.joins, hw] using hj
        refine Or.inr ⟨?_, by simpa using hgp⟩
        rcases h with h | h
        · rw [h, hw]; rfl
        · exact h.1
      · simp [Rows.joins, hw] at hj

section Sites
variable {rs : Rows Key ι} {ls ms : List (Option Key)}

/-- Where moving at the links `ms` puts the groups of rows that are arranged by `ls`. -/
def sitesOf (ls ms : List (Option Key)) (rs : Rows Key ι) : Rows Key (Nat × Key) :=
  table rs.length (arranged ls rs) (fun j k => (landed ms rs.length j k).map some)

theorem fill_sitesOf (ls ms : List (Option Key)) (rs : Rows Key ι) :
    fill (groupOf rs) (sitesOf ls ms rs) =
      table rs.length (arranged ls rs) (moved ms (groupIn rs) rs.length) := by
  have hgroup : ∀ j k, fillGroup (groupOf rs) ((landed ms rs.length j k).map some) =
      moved ms (groupIn rs) rs.length j k := by
    intro j k
    rw [Rows.fillGroup_map_some, moved, landed]
    split
    · rfl
    · rw [List.flatMap_map]
      rfl
  simp only [fill, sitesOf, table, List.map_map, Function.comp_def, hgroup]

theorem flatten_sitesOf (ls ms : List (Option Key)) (rs : Rows Key ι) :
    (sitesOf ls ms rs).flatten = (blocks ms rs.length (arranged ls rs)).map some := by
  simp only [sitesOf, flatten_table, blocks, List.map_flatMap]

/-- The groups that stand at a place have its key. -/
theorem mem_sitesOf {r : Row Key (Nat × Key)} (hr : r ∈ sitesOf ls ms rs)
    {p : Key × Group (Nat × Key)} (hp : p ∈ r) {b : Nat × Key} (hb : some b ∈ p.2) : b.2 = p.1 := by
  obtain ⟨j, _, rfl⟩ := List.mem_map.mp hr
  obtain ⟨k, _, rfl⟩ := List.mem_map.mp hp
  exact (mem_landed.mp (by simpa using hb)).1

/-- Arranging, with or without moving, uses each group once. -/
theorem sitesOf_perm (hnd : ∀ r ∈ rs, (Table.keys r).Nodup) (hl : Linked ls (rs.map Table.keys))
    (hms : ms = ls ∨ ms = []) : (sitesOf ls ms rs).flatten.Perm ((places rs).map some) := by
  rw [flatten_sitesOf, places_eq]
  refine List.Perm.map _ (blocks_perm (fun j => ?_) (fun j => ?_) ?_ (fun m k hk => by simp at hk)
    (mem_arranged hl))
  · have harr := arrange_pairwise (headAt ls j) (linkAt ls j) (nodup_rowKeys hnd j)
    rcases hms with rfl | rfl
    · exact harr
    · exact harr.imp fun h => ⟨h.1, fun hk => by simp at hk⟩
  · exact (nodup_rowKeys hnd j).imp fun hne => ⟨hne, fun hk => by simp at hk⟩
  · rcases hms with rfl | rfl
    · exact arranged_common hl
    · exact fun m k hk => by simp at hk

theorem groupOf_eq_block (hb : ∀ r ∈ rs, Rows.BuiltRow r) {b : Nat × Key} (hplace : b ∈ places rs) :
    (∃ k : Kind, b.2 = k.key) ∧ ∃ xs : List ι, xs ≠ [] ∧ groupOf rs b = block xs := by
  obtain ⟨j, hj, hplace⟩ := List.mem_flatMap.mp hplace
  obtain ⟨k, hk, rfl⟩ := List.mem_map.mp hplace
  have hrow : rs.getD j [] ∈ rs := by
    rw [List.getD_eq_getElem _ _ (List.mem_range.mp hj)]
    exact List.getElem_mem _
  obtain ⟨g, hg⟩ := Table.exists_get?_of_mem hk
  obtain ⟨hkind, xs, hxs, hgroup⟩ :=
    (hb _ hrow).groups _ ((Table.mem_iff_get? (hb _ hrow).keys k g).mpr hg)
  refine ⟨hkind, xs, hxs, ?_⟩
  rw [groupOf, groupIn, groupAt, Option.bind_some, hg]
  exact hgroup

/-- Each group has one site, under a key that it fits. -/
structure Spread (rs : Rows Key ι) (sites : Rows Key (Nat × Key)) : Prop where
  once : sites.flatten.Perm ((places rs).map some)
  fits : ∀ r ∈ sites, ∀ p ∈ r, ∀ b, some b ∈ p.2 → Fits p.1 b

namespace Spread

variable {sites : Rows Key (Nat × Key)}

theorem mem_places (h : Spread rs sites) {r : Row Key (Nat × Key)} (hr : r ∈ sites)
    {p : Key × Group (Nat × Key)} (hp : p ∈ r) {x : Option (Nat × Key)} (hx : x ∈ p.2) :
    ∃ b ∈ places rs, x = some b := by
  have hmem : x ∈ sites.flatten := List.mem_flatMap.mpr ⟨r, hr, List.mem_flatMap.mpr ⟨p, hp, hx⟩⟩
  obtain ⟨b, hb, hbx⟩ := List.mem_map.mp (h.once.mem_iff.mp hmem)
  exact ⟨b, hb, hbx.symm⟩

theorem full (h : Spread rs sites) (hb : ∀ r ∈ rs, Rows.BuiltRow r) : Full (groupOf rs) sites := by
  intro r hr p hp x hx
  obtain ⟨b, hplace, rfl⟩ := h.mem_places hr hp hx
  obtain ⟨_, xs, _, hxs⟩ := groupOf_eq_block hb hplace
  exact ⟨b, rfl, by simp [hxs, block]⟩

theorem filterEmpty (h : Spread rs sites) : Spread rs sites.filterEmpty := by
  refine ⟨?_, fun r hr p hp => ?_⟩
  · rw [Rows.flatten_filterEmpty]
    exact h.once
  · obtain ⟨r', hr', hp⟩ := Rows.mem_filterEmpty hr hp
    exact h.fits r' hr' p hp

theorem backMerge (h : Spread rs sites) : Spread rs sites.backMerge.1 := by
  refine ⟨?_, fun r hr p hp b hx => ?_⟩
  · rw [Rows.backMerge_flatten]
    exact h.once
  · have hfits := Rows.backMerge_within (P := fun key x => ∀ b, x = some b → Fits key b)
      (fun _ _ _ hj hfit b hxb => (hfit b hxb).joins hj)
      (fun r hr p hp x hx b hxb => h.fits r hr p hp b (hxb ▸ hx))
    exact hfits r hr p hp _ hx b rfl

end Spread

theorem key_ne_nil_of_mem_sitesOf (hb : ∀ r ∈ rs, Rows.BuiltRow r)
    (hl : Linked ls (rs.map Table.keys)) {r : Row Key (Nat × Key)} (hr : r ∈ sitesOf ls ms rs)
    {p : Key × Group (Nat × Key)} (hp : p ∈ r) : p.1 ≠ [] := by
  obtain ⟨r', hr', q, hq, hkey⟩ := exists_mem_of_mem_table hl hr hp
  obtain ⟨⟨kind, hkind⟩, _⟩ := (hb r' hr').groups q hq
  rw [← hkey, hkind]
  exact kind.key_ne_nil

theorem spread_sitesOf (hb : ∀ r ∈ rs, Rows.BuiltRow r) (hl : Linked ls (rs.map Table.keys))
    (hms : ms = ls ∨ ms = []) : Spread rs (sitesOf ls ms rs) :=
  ⟨sitesOf_perm (fun r hr => (hb r hr).keys) hl hms,
    fun _ hr _ hp _ hx => Or.inl (mem_sitesOf hr hp hx)⟩

end Sites

section Optimize
variable {rs : Rows Key ι} {order : List Key → List Key}

/-- Where optimising puts the groups. -/
theorem optimize_sites (horder : ∀ ks, ∀ k ∈ order ks, k ∈ ks) (hb : ∀ r ∈ rs, Rows.BuiltRow r)
    (back join : Bool) :
    ∃ sites, optimize order back join rs = (fill (groupOf rs) sites, .ok ()) ∧ Spread rs sites := by
  have hl := links_linked horder (rs.map Table.keys)
  unfold optimize
  generalize links order (rs.map Table.keys) = ls at hl
  dsimp only
  -- arranging, and moving if asked for
  obtain ⟨start, hstart, hspread, hkeys⟩ : ∃ start,
      (if join then (move ls (sort ls rs)).filterEmpty else sort ls rs) = fill (groupOf rs) start ∧
      Spread rs start ∧ ∀ r ∈ start, ∀ p ∈ r, p.1 ≠ [] := by
    cases join with
    | true =>
      have hspread := spread_sitesOf hb hl (Or.inl rfl)
      refine ⟨(sitesOf ls ls rs).filterEmpty, ?_, hspread.filterEmpty, fun r hr p hp => ?_⟩
      · rw [if_pos rfl, move_sort hl, ← fill_sitesOf, Rows.filterEmpty_fill (hspread.full hb)]
      · obtain ⟨r', hr', hp⟩ := Rows.mem_filterEmpty hr hp
        exact key_ne_nil_of_mem_sitesOf hb hl hr' hp
    | false =>
      refine ⟨sitesOf ls [] rs, ?_, spread_sitesOf hb hl (Or.inr rfl),
        fun r hr p hp => key_ne_nil_of_mem_sitesOf hb hl hr hp⟩
      rw [fill_sitesOf, table_moved_nil, ← sort_eq (by simpa using hl.length)]
      rfl
  rw [hstart]
  cases back with
  | false => exact ⟨start, rfl, hspread⟩
  | true =>
    refine ⟨start.backMerge.1.filterEmpty, ?_, hspread.backMerge.filterEmpty⟩
    rw [if_pos rfl, Rows.backMerge_fill, Rows.backMerge_ok hkeys]
    dsimp only
    rw [Rows.filterEmpty_fill (hspread.backMerge.full hb)]

/-- The rows `out` are those of `rs` with its groups at other sites. -/
structure Regroups (rs out : Rows Key ι) (sites : Rows Key (Nat × Key)) : Prop where
  /-- A list is made of the groups at its site. -/
  made : out = fill (groupOf rs) sites
  /-- Each group has one site. -/
  once : sites.flatten.Perm ((places rs).map some)
  /-- No item and no separator is lost or repeated. -/
  items : out.flatten.Perm rs.flatten
  /-- A group that is computed within groups of rows stays under its key. -/
  own : ∀ r ∈ sites, ∀ p ∈ r, ∀ b, some b ∈ p.2 → b.2 ≠ Key.plain → p.1 = b.2
  /-- A group of whole columns is not computed within dates and groups. -/
  plain : ∀ r ∈ sites, ∀ p ∈ r, ∀ b, some b ∈ p.2 → b.2 = Key.plain → p.1.head? ≠ some "gp"
  separated : ∀ r ∈ out, ∀ p ∈ r, p.2 ≠ [] → Rows.Separated p.2

theorem Spread.regroups {sites : Rows Key (Nat × Key)} (h : Spread rs sites)
    (hb : ∀ r ∈ rs, Rows.BuiltRow r) : Regroups rs (fill (groupOf rs) sites) sites := by
  have hstay : rs.flatten = fillGroup (groupOf rs) ((places rs).map some) := by
    have htable := eq_table fun r hr => (hb r hr).keys
    conv_lhs => rw [htable, flatten_table]
    simp only [Rows.fillGroup_map_some, places, List.flatMap_assoc, List.flatMap_map]
    rfl
  refine ⟨rfl, h.once, ?_, fun r hr p hp b hx hne => ?_, fun r hr p hp b hx hpl => ?_,
    fun r hr p hp hne => ?_⟩
  · rw [Rows.flatten_fill, hstay]
    exact h.once.flatMap_right _
  · -- only the plain key begins like it
    obtain ⟨c, hplace, hc⟩ := h.mem_places hr hp hx
    cases hc
    obtain ⟨⟨k, hk⟩, _⟩ := groupOf_eq_block hb hplace
    rcases h.fits r hr p hp b hx with hfit | ⟨hcl, _⟩
    · exact hfit.symm
    · rw [hk] at hcl hne
      exact absurd (Kind.eq_plain_of_head hcl) hne
  · rcases h.fits r hr p hp b hx with hfit | ⟨_, hgp⟩
    · rw [← hfit, hpl]
      decide
    · exact hgp
  · obtain ⟨r', hr', rfl⟩ := List.mem_map.mp hr
    obtain ⟨q, hq, rfl⟩ := List.mem_map.mp hp
    refine Blocked.separated (Blocked.flatMap fun x hx => ?_) hne
    obtain ⟨b, hplace, rfl⟩ := h.mem_places hr' hq hx
    obtain ⟨_, xs, hxs, hgroup⟩ := groupOf_eq_block hb hplace
    rw [Option.elim_some, hgroup]
    exact Rows.blocked_block hxs

/-- **Optimising loses and repeats nothing and respects the kinds of groups.** For all rows that are
built step by step, in whatever order links are tried, with and without joining and merging back. -/
theorem optimize_regroups (horder : ∀ ks, ∀ k ∈ order ks, k ∈ ks) {steps : List (RowsStep ι)}
    (h : Rows.build steps = .ok rs) (back join : Bool) :
    ∃ out sites, optimize order back join rs = (out, .ok ()) ∧ Regroups rs out sites := by
  have hb := Rows.build_built h
  obtain ⟨sites, hrun, hspread⟩ := optimize_sites horder hb back join
  exact ⟨_, sites, hrun, hspread.regroups hb⟩

end Optimize

/-- Three rows in which each kind of group occurs. -/
def threeRows : Rows Key Nat :=
  [[(["ts", "asset", "date"], [none, some 1]), (["cl"], [none, some 2])],
   [(["gp", "date", "sector"], [none, some 3]), (["cl"], [none, some 4])],
   [(["cs", "date"], [none, some 5]), (["cl"], [none, some 6])]]

/-- The whole columns are joined and move into the group over time, past that within groups. -/
theorem optimize_regroups_threeRows : ∃ sites,
    Rows.build [.nextRow, .append (.overTime "asset" "date") 1, .append .plain 2,
      .nextRow, .append (.withinGroup "date" "sector") 3, .append .plain 4,
      .nextRow, .append (.acrossMarket "date") 5, .append .plain 6] = .ok threeRows ∧
    Regroups threeRows
      [[(["ts", "asset", "date"], [none, some 1, none, some 2, none, some 4, none, some 6])],
       [(["gp", "date", "sector"], [none, some 3])],
       [(["cs", "date"], [none, some 5])]] sites := by
  have hbuild : Rows.build [.nextRow, .append (.overTime "asset" "date") 1, .append .plain 2,
      .nextRow, .append (.withinGroup "date" "sector") 3, .append .plain 4,
      .nextRow, .append (.acrossMarket "date") 5, .append .plain 6] = .ok threeRows := rfl
  obtain ⟨out, sites, hrun, hre⟩ :=
    optimize_regroups (fun ks k (hk : k ∈ id ks) => hk) hbuild true true
  have hout : (optimize id true true threeRows).1 = out := congrArg Prod.fst hrun
  refine ⟨sites, hbuild, ?_⟩
  rw [← hout] at hre
  exact hre

end Chain

end FactorPlan
