import FactorPlan.Proofs.Chain
import FactorPlan.Proofs.Display
import FactorPlan.Proofs.Schedule
import FactorPlan.Proofs.Separators
import FactorPlan.Plan.Generate

/-!
What a script holds. Each group of rows that has items becomes one function and one step.

  1. `funcName_inj`: functions of different groups have different names, so that none takes
     the place of another.
  2. `groupBody_blocks`: the body of a group is written block by block, and each item is
     assigned once.
  3. `addGroup_ok`, `foldlM_addGroup`: one group adds one function and one step at the end, and
     so do all groups one after the other.
  4. `Emits.lines`: the lines that are written of a script with a function and a step for each
     group, with the line that sorts the frame before the steps.
  5. `ofRows_emits`: the script of rows is one of these.
-/

namespace FactorPlan

/-- Where each row has each key once, a group is told by its row and its key. -/
theorem Rows.nodup_entries {ι : Type} {rs : Rows Key ι} (h : ∀ r ∈ rs, (Table.keys r).Nodup) :
    (rs.entries.map fun e => (e.row, e.key)).Nodup := by
  rw [Rows.entries_eq, List.map_flatMap, List.nodup_flatMap]
  refine ⟨fun p hp => ?_, ?_⟩
  · have hkeys := h p.1 (List.fst_mem_of_mem_zipIdx hp)
    have hrow : (p.1.map fun q => ({ row := p.2, key := q.1, items := q.2 } : Entry ι)).map
        (fun e => (e.row, e.key)) = (Table.keys p.1).map (Prod.mk p.2) := by
      simp [Table.keys]
    rw [hrow]
    exact hkeys.map fun _ _ h => (Prod.mk.inj h).2
  · refine (Rows.pairwise_zipIdx rs).imp fun {p q} hlt => ?_
    intro x hx hx'
    simp only [List.mem_map] at hx hx'
    obtain ⟨_, ⟨_, _, rfl⟩, rfl⟩ := hx
    obtain ⟨_, ⟨_, _, rfl⟩, hsame⟩ := hx'
    exact absurd (congrArg Prod.fst hsame) (Nat.ne_of_gt hlt)

namespace Target

open Rows (block Entry)

variable {α : Type}

/-- The keys of groups by an asset and a date, each with the columns that it groups by. -/
inductive Keyed (asset date : String) : Key → List String → Prop
  | plain : Keyed asset date Key.plain []
  | overTime : Keyed asset date (Key.overTime asset date) [asset]
  | acrossMarket : Keyed asset date (Key.acrossMarket date) [date]
  | withinGroup (group : String) : Keyed asset date (Key.withinGroup date group) [date, group]

/-! ## Names -/

/-- The words of a key, joined, tell the key. -/
theorem Keyed.intercalate_inj {asset date : String} {k l : Key} {cs ds : List String}
    (hk : Keyed asset date k cs) (hl : Keyed asset date l ds)
    (h : "__".intercalate k = "__".intercalate l) : k = l := by
  cases hk <;> cases hl <;>
    simp_all [Key.plain, Key.overTime, Key.acrossMarket, Key.withinGroup, ← String.toList_inj]

theorem funcName_toList (row : Nat) (k : Key) : (funcName row k).toList =
    "func_".toList ++ (Nat.toDigits 10 row ++ '_' :: ("__".intercalate k).toList) := by
  simp [funcName]

theorem funcName_inj {asset date : String} {k l : Key} {cs ds : List String}
    (hk : Keyed asset date k cs) (hl : Keyed asset date l ds) {row row' : Nat}
    (h : funcName row k = funcName row' l) : row = row' ∧ k = l := by
  have htext := congrArg String.toList h
  rw [funcName_toList, funcName_toList, List.append_cancel_left_eq] at htext
  -- the row's number has no underscore, so it ends at the first one
  obtain ⟨hdigits, hkeys⟩ := eq_of_first Nat.underscore_not_in_toDigits
    Nat.underscore_not_in_toDigits htext
  refine ⟨?_, hk.intercalate_inj hl (String.toList_injective hkeys)⟩
  rw [← @Nat.ofDigitChars_ten_toDigits row, hdigits, Nat.ofDigitChars_ten_toDigits]

/-! ## Bodies -/

/-- The line assigns the item. -/
def Assigns (w : Writer α) (x : String × α) (line : BodyLine) : Prop :=
  ∃ t, w.code x.2 = .ok t ∧ line = .assign x.1 (w.shown x.2) t

/-- Whether the values of all items can be written. -/
def Writable (w : Writer α) (g : Group (String × α)) : Prop := ∀ x, some x ∈ g → ∃ t, w.code x.2 = .ok t

/-- The lines of a block that holds the given assignments. -/
def blockLines : Style → List BodyLine → List BodyLine
  | .polars, lines => .rule :: .begin :: lines ++ [.close]
  | .pandas, lines => .rule :: lines

/-- What a separator adds to a body. -/
def separatorLines : Style → List BodyLine
  | .polars => [.close, .rule, .begin]
  | .pandas => [.rule]

theorem groupLines_none {style : Style} {w : Writer α} {g : Group (String × α)} {lines : List BodyLine}
    (h : groupLines style w g = .ok lines) :
    groupLines style w (none :: g) = .ok (separatorLines style ++ lines) := by
  rw [groupLines, h]
  cases style <;> rfl

theorem groupLines_some {style : Style} {w : Writer α} {g : Group (String × α)} {lines : List BodyLine}
    {x : String × α} {line : BodyLine} (hx : Assigns w x line) (h : groupLines style w g = .ok lines) :
    groupLines style w (some x :: g) = .ok (line :: lines) := by
  obtain ⟨t, ht, rfl⟩ := hx
  rw [groupLines, assignment, ht, h]
  rfl

theorem groupLines_items (style : Style) {w : Writer α} {xs : List (String × α)} {g : Group (String × α)}
    {lines : List BodyLine} (hw : Writable w (xs.map some)) (h : groupLines style w g = .ok lines) :
    ∃ new, List.Forall₂ (Assigns w) xs new ∧
      groupLines style w (xs.map some ++ g) = .ok (new ++ lines) := by
  induction xs with
  | nil => exact ⟨[], .nil, h⟩
  | cons x xs ih =>
    obtain ⟨t, ht⟩ := hw x (by simp)
    obtain ⟨new, hnew, hlines⟩ := ih fun y hy => hw y (by simp_all)
    have hx : Assigns w x (.assign x.1 (w.shown x.2) t) := ⟨t, ht, rfl⟩
    exact ⟨_ :: new, .cons hx hnew, groupLines_some hx hlines⟩

theorem groupLines_blocks (style : Style) {w : Writer α} {bs : List (List (String × α))}
    (hw : Writable w (bs.flatMap block)) :
    ∃ news, List.Forall₂ (List.Forall₂ (Assigns w)) bs news ∧
      groupLines style w (bs.flatMap block) = .ok (news.flatMap (separatorLines style ++ ·)) := by
  induction bs with
  | nil => exact ⟨[], .nil, rfl⟩
  | cons b bs ih =>
    obtain ⟨news, hnews, hrest⟩ := ih fun x hx => hw x (by simp [hx])
    have hb : Writable w (b.map some) := fun x hx => hw x (by simp_all [block])
    obtain ⟨new, hnew, hlines⟩ := groupLines_items style hb hrest
    refine ⟨new :: news, .cons hnew hnews, ?_⟩
    rw [List.flatMap_cons, block, List.cons_append, groupLines_none hlines, List.flatMap_cons,
      List.append_assoc]

/-- What every part begins with, it may end with instead. -/
theorem flatMap_cons_concat {β γ : Type} (c : γ) (f : β → List γ) (xs : List β) :
    xs.flatMap (fun x => c :: f x) ++ [c] = c :: xs.flatMap (fun x => f x ++ [c]) := by
  induction xs with
  | nil => rfl
  | cons x xs ih => simp [ih]

theorem groupBody_blocks (style : Style) {w : Writer α} {bs : List (List (String × α))}
    (hw : Writable w (bs.flatMap block)) :
    ∃ news, List.Forall₂ (List.Forall₂ (Assigns w)) bs news ∧
      groupBody style w (bs.flatMap block) = .ok (news.flatMap (blockLines style)) := by
  obtain ⟨news, hnews, hlines⟩ := groupLines_blocks style hw
  refine ⟨news, hnews, ?_⟩
  rw [groupBody, hlines]
  cases style with
  | pandas => rfl
  | polars =>
    have hrotate := flatMap_cons_concat BodyLine.close
      (fun lines => BodyLine.rule :: BodyLine.begin :: lines) news
    exact congrArg Except.ok (congrArg (List.drop 1) hrotate)

/-! ## Groups -/

/-- The lines that sort the frame for a group. -/
def sortLines (asset date : String) (k : Key) : List BodyLine :=
  if k = Key.overTime asset date then [.sort date] else []

section Groups
variable (style : Style) (w : Writer α) (asset date : String)

/-- The name of the function of a group. -/
def entryName (e : Entry (String × α)) : String := funcName e.row e.key

/-- The function is that of the group: after sorting, where the group is over time, it assigns
the items of the group block by block. -/
structure Computes (e : Entry (String × α)) (f : String × List BodyLine) : Prop where
  name : f.1 = entryName e
  body : ∃ (bs : List (List (String × α))) (news : List (List BodyLine)),
    (∀ b ∈ bs, b ≠ []) ∧ e.items = bs.flatMap block ∧ List.Forall₂ (List.Forall₂ (Assigns w)) bs news ∧
      f.2 = sortLines asset date e.key ++ news.flatMap (blockLines style)

/-- The step applies the function of the group, within groups by the columns of its key. -/
structure Applies (e : Entry (String × α)) (p : String × Step) : Prop where
  name : p.1 = entryName e
  func : p.2.func = entryName e
  columns : Keyed asset date e.key p.2.columns
  ordered : p.2.ordered ↔ e.key = Key.overTime asset date

/-- A group that can be written. -/
structure Ready (e : Entry (String × α)) : Prop where
  key : ∃ cs, Keyed asset date e.key cs
  blocked : Rows.Blocked e.items
  writable : Writable w e.items

variable {style w asset date}

theorem Keyed.sorting {k : Key} {cs : List String} (h : Keyed asset date k cs) :
    Target.sorting k = .ok (if k = Key.overTime asset date then some (date, asset) else none) := by
  cases h <;> simp [Target.sorting, Key.plain, Key.overTime, Key.acrossMarket, Key.withinGroup]

theorem Keyed.step {k : Key} {cs : List String} (h : Keyed asset date k cs) (name : String) :
    Step.ofKey k name =
      .ok { func := name, columns := cs, ordered := decide (k = Key.overTime asset date) } := by
  cases h <;> simp [Step.ofKey, groupColumns, Key.plain, Key.overTime, Key.acrossMarket, Key.withinGroup]

theorem addGroup_eq {k : Key} {cs : List String} (hkey : Keyed asset date k cs) {g : Group (String × α)}
    (hne : g ≠ []) {lines : List BodyLine} (hbody : groupBody style w g = .ok lines) (row : Nat)
    (s : Script) : ∃ s', Script.addGroup style w row s k g = .ok s' ∧
      s'.funcs = Table.set (funcName row k) (sortLines asset date k ++ lines) s.funcs ∧
      s'.steps = Table.set (funcName row k)
        ⟨funcName row k, cs, decide (k = Key.overTime asset date)⟩ s.steps ∧
      s'.sorted = (if k = Key.overTime asset date then some (date, asset) else s.sorted) ∧
      s'.notes = s.notes ++ groupNotes w (funcName row k) g := by
  have hsome : g.isEmpty = false := by simpa using hne
  simp only [Script.addGroup, hsome, hbody, hkey.sorting, hkey.step]
  refine ⟨_, rfl, ?_, rfl, ?_, rfl⟩
  · by_cases hk : k = Key.overTime asset date <;> simp [sortLines, hk]
  · by_cases hk : k = Key.overTime asset date <;> simp [hk]

/-- A group with items adds one function and one step at the end. -/
theorem addGroup_ok (style : Style) {e : Entry (String × α)} (he : Ready w asset date e) (hne : e.items ≠ [])
    {s : Script} (hfuncs : entryName e ∉ Table.keys s.funcs) (hsteps : entryName e ∉ Table.keys s.steps) :
    ∃ s' f p, Script.addGroup style w e.row s e.key e.items = .ok s' ∧
      s'.funcs = s.funcs ++ [f] ∧ s'.steps = s.steps ++ [p] ∧
      s'.sorted = (if e.key = Key.overTime asset date then some (date, asset) else s.sorted) ∧
      s'.notes = s.notes ++ groupNotes w (entryName e) e.items ∧
      Computes style w asset date e f ∧ Applies asset date e p := by
  obtain ⟨cs, hkey⟩ := he.key
  obtain ⟨bs, hbs, hitems⟩ := he.blocked
  obtain ⟨news, hnews, hbody⟩ := groupBody_blocks style (hitems ▸ he.writable)
  rw [← hitems] at hbody
  obtain ⟨s', hs', hf, hp, hsorted, hnotes⟩ := addGroup_eq hkey hne hbody e.row s
  exact ⟨s', _, _, hs', hf.trans (Rows.set_of_not_mem hfuncs _), hp.trans (Rows.set_of_not_mem hsteps _), hsorted,
    hnotes, ⟨rfl, bs, news, hbs, hitems, hnews, rfl⟩, ⟨rfl, rfl, hkey, decide_eq_true_iff⟩⟩

/-- What the frame is sorted by where some group is over time. -/
def sortedBy (asset date : String) (es : List (Entry (String × α))) : Option (String × String) :=
  if es.any (fun e => e.key = Key.overTime asset date) then some (date, asset) else none

/-- Groups whose names differ, also from those that are there, add a function and a step each. -/
theorem foldlM_addGroup {es : List (Entry (String × α))} (hes : ∀ e ∈ es, Ready w asset date e)
    (hnd : (es.map entryName).Nodup) {s : Script}
    (hnew : ∀ e ∈ es, entryName e ∉ Table.keys s.funcs ∧ entryName e ∉ Table.keys s.steps) :
    ∃ s' fs ps, es.foldlM (fun s e => Script.addGroup style w e.row s e.key e.items) s = .ok s' ∧
      s'.funcs = s.funcs ++ fs ∧ s'.steps = s.steps ++ ps ∧
      s'.sorted = (sortedBy asset date (es.filter (fun e => !e.items.isEmpty))).or s.sorted ∧
      s'.notes = s.notes ++ (es.filter (fun e => !e.items.isEmpty)).flatMap
        (fun e => groupNotes w (entryName e) e.items) ∧
      List.Forall₂ (Computes style w asset date) (es.filter (fun e => !e.items.isEmpty)) fs ∧
      List.Forall₂ (Applies asset date) (es.filter (fun e => !e.items.isEmpty)) ps := by
  induction es generalizing s with
  | nil => exact ⟨s, [], [], rfl, by simp, by simp, rfl, by simp, .nil, .nil⟩
  | cons e es ih =>
    obtain ⟨hfirst, hrest⟩ := List.nodup_cons.mp hnd
    have hes' := fun d hd => hes d (List.mem_cons_of_mem _ hd)
    by_cases hne : e.items = []
    · -- an empty group leaves the script as it is
      have hsame : Script.addGroup style w e.row s e.key e.items = .ok s := by
        rw [Script.addGroup, if_pos (by simp [hne])]
        rfl
      rw [List.foldlM_cons, hsame, List.filter_cons_of_neg (by simp [hne])]
      exact ih hes' hrest fun d hd => hnew d (List.mem_cons_of_mem _ hd)
    · obtain ⟨hfuncs, hsteps⟩ := hnew e List.mem_cons_self
      obtain ⟨s₁, f, p, hs₁, hf, hp, hsorted, hnotes, hcomputes, happlies⟩ :=
        addGroup_ok style (hes e List.mem_cons_self) hne hfuncs hsteps
      -- later names differ from the one that was added
      have hnew₁ : ∀ d ∈ es, entryName d ∉ Table.keys s₁.funcs ∧ entryName d ∉ Table.keys s₁.steps := by
        intro d hd
        have hne' : entryName d ≠ entryName e := fun h => hfirst (h ▸ List.mem_map_of_mem hd)
        obtain ⟨hdf, hds⟩ := hnew d (List.mem_cons_of_mem _ hd)
        simp only [hf, hp, Table.keys, List.map_append, List.map_cons, List.map_nil, List.mem_append,
          List.mem_singleton, not_or, hcomputes.name, happlies.name]
        exact ⟨⟨hdf, hne'⟩, hds, hne'⟩
      obtain ⟨s', fs, ps, hs', hfs, hps, hsorted', hnotes', hF, hP⟩ := ih hes' hrest hnew₁
      rw [List.filter_cons_of_pos (by simpa using hne)]
      refine ⟨s', f :: fs, p :: ps, ?_, by simp [hfs, hf], by simp [hps, hp], ?_, by simp [hnotes', hnotes],
        .cons hcomputes hF, .cons happlies hP⟩
      · rw [List.foldlM_cons, hs₁]
        exact hs'
      · rw [hsorted', hsorted]
        by_cases hk : e.key = Key.overTime asset date <;>
          simp only [sortedBy, List.any_cons, hk, decide_true, decide_false, Bool.true_or, Bool.false_or, if_true,
            if_false]
        split <;> rfl

end Groups

/-! ## Rows -/

theorem addRow_eq (style : Style) (w : Writer α) (row : Nat) (s : Script) (r : Row Key (String × α)) :
    Script.addRow style w row s r = (r.map (fun q => (⟨row, q.1, q.2⟩ : Entry (String × α)))).foldlM
      (fun s e => Script.addGroup style w e.row s e.key e.items) s := by
  induction r generalizing s with
  | nil => rfl
  | cons q r ih =>
    obtain ⟨k, g⟩ := q
    rw [Script.addRow, List.map_cons, List.foldlM_cons]
    exact congrArg _ (funext fun s' => ih s')

theorem addRows_eq (style : Style) (w : Writer α) (row : Nat) (s : Script) (rs : Rows Key (String × α)) :
    Script.addRows style w row s rs =
      ((rs.zipIdx row).flatMap fun p => p.1.map fun q => (⟨p.2, q.1, q.2⟩ : Entry (String × α))).foldlM
        (fun s e => Script.addGroup style w e.row s e.key e.items) s := by
  induction rs generalizing row s with
  | nil => rfl
  | cons r rs ih =>
    rw [Script.addRows, addRow_eq, List.zipIdx_cons, List.flatMap_cons, List.foldlM_append]
    exact congrArg _ (funext fun s' => ih (row + 1) s')

/-- A script is written group by group. -/
theorem ofRows_eq (style : Style) (w : Writer α) (rs : Rows Key (String × α)) :
    Script.ofRows style w rs = rs.entries.foldlM
      (fun s e => Script.addGroup style w e.row s e.key e.items) {} := by
  rw [Script.ofRows, addRows_eq, Rows.entries_eq]

/-- Rows with one list for each key, by an asset and a date, where every list that is not empty
begins with a separator, has no two of them in a row and does not end with one. -/
structure Arranged (asset date : String) (rs : Rows Key (String × α)) : Prop where
  keys : ∀ r ∈ rs, (Table.keys r).Nodup
  forms : ∀ r ∈ rs, ∀ p ∈ r, ∃ cs, Keyed asset date p.1 cs
  lists : ∀ r ∈ rs, ∀ p ∈ r, p.2 ≠ [] → Rows.Separated p.2 ∧ p.2.getLast? ≠ some none

theorem Arranged.nodup_names {asset date : String} {rs : Rows Key (String × α)}
    (h : Arranged asset date rs) : (rs.entries.map entryName).Nodup := by
  have hplaces := Rows.nodup_entries h.keys
  rw [List.Nodup, List.pairwise_map] at hplaces ⊢
  refine hplaces.imp_of_mem fun {d e} hd he hne hname => ?_
  obtain ⟨r, hr, hp⟩ := Rows.mem_entries hd
  obtain ⟨r', hr', hp'⟩ := Rows.mem_entries he
  obtain ⟨cs, hcs⟩ := h.forms r hr _ hp
  obtain ⟨cs', hcs'⟩ := h.forms r' hr' _ hp'
  obtain ⟨hrow, hkey⟩ := funcName_inj hcs hcs' hname
  exact hne (Prod.ext hrow hkey)

theorem keys_of_computes {style : Style} {w : Writer α} {asset date : String}
    {es : List (Entry (String × α))} {fs : Table String (List BodyLine)}
    (h : List.Forall₂ (Computes style w asset date) es fs) : Table.keys fs = es.map entryName := by
  induction h with
  | nil => rfl
  | cons hf _ ih => rw [Table.keys_cons, ih, List.map_cons, hf.name]

/-- The groups of rows that are not empty, in order. -/
def groups (rs : Rows Key (String × α)) : List (Entry (String × α)) :=
  rs.entries.filter (fun e => !e.items.isEmpty)

/-- The script has a function and a step for each group that is not empty, in order, and sorts the
frame where one of them is over time. -/
structure Emits (style : Style) (w : Writer α) (asset date : String) (rs : Rows Key (String × α))
    (s : Script) : Prop where
  /-- No function takes the place of another. -/
  distinct : (Table.keys s.funcs).Nodup
  sorted : s.sorted = sortedBy asset date (groups rs)
  notes : s.notes = (groups rs).flatMap (fun e => groupNotes w (entryName e) e.items)
  funcs : List.Forall₂ (Computes style w asset date) (groups rs) s.funcs
  steps : List.Forall₂ (Applies asset date) (groups rs) s.steps

/-! ## Lines -/

section Lines
variable (style : Style) (w : Writer α) (asset date : String)

/-- The text that assigns a column. -/
def assignText (column shown code : String) : String :=
  match style with
  | .polars => "# " ++ column ++ " = " ++ shown ++ "\n" ++ column ++ "=(" ++ code ++ "),"
  | .pandas => "    # " ++ column ++ " = " ++ shown ++ "\n    df['" ++ column ++ "'] = " ++ code

/-- The lines around the assignments of a block. -/
def blockText (lines : List String) : List String :=
  match style with
  | .polars => ["# " ++ BodyLine.dash, "    df = df.with_columns("] ++ lines ++ ["    )"]
  | .pandas => ["    # " ++ BodyLine.dash] ++ lines

/-- The lines that sort the frame in the function of a group. -/
def sortText (k : Key) : List String :=
  if k = Key.overTime asset date then
    match style with
    | .polars => ["    df = df.sort(by=[\"" ++ date ++ "\"])"]
    | .pandas => ["    df = df.sort_values(by=[\"" ++ date ++ "\"])"]
  else []

/-- The lines are the body of the group's function. -/
def WrittenBody (e : Entry (String × α)) (lines : List String) : Prop :=
  ∃ (bs : List (List (String × α))) (texts : List (List String)),
    (∀ b ∈ bs, b ≠ []) ∧ e.items = bs.flatMap block ∧
    List.Forall₂ (List.Forall₂ fun x t => ∃ code, w.code x.2 = .ok code ∧
      t = assignText style x.1 (w.shown x.2) code) bs texts ∧
    lines = sortText style asset date e.key ++ texts.flatMap (blockText style)

/-- The line applies the group's function: to the whole frame, or to each of its groups by the columns
of the key. -/
inductive WrittenStep (e : Entry (String × α)) : String → Prop
  | whole (h : e.key = Key.plain) : WrittenStep e ("df = " ++ entryName e ++ "(df)")
  | grouped {cs : List String} (h : Keyed asset date e.key cs) (hcs : cs ≠ []) : WrittenStep e
      ("df = df.groupby(by=" ++ Text.quotedList cs ++ ", " ++
        Step.option style (decide (e.key = Key.overTime asset date)) ++ ").apply(" ++ entryName e ++ ")")

/-- The line that sorts the frame before the first step. -/
def sortEntry (es : List (Entry (String × α))) : String :=
  if es.any (fun e => e.key = Key.overTime asset date) then
    match style with
    | .polars => "df = df.sort(by=[\"" ++ date ++ "\", \"" ++ asset ++ "\"])"
    | .pandas => "df = df.sort_values(by=[\"" ++ date ++ "\", \"" ++ asset ++ "\"]).reset_index(drop=True)"
  else "df = df"

/-- The lines of the group's function, with the given body. -/
def funcText (e : Entry (String × α)) (body : List String) : List String :=
  ["def " ++ entryName e ++ "(df: " ++ style.frame ++ ") -> " ++ style.frame ++ ":", "\n".intercalate body,
   "    return df", ""]

/-- The lines are the script of the groups: their functions, each with its body; then the line that
sorts the frame, the lines that apply the functions, and the notes about the groups. -/
def WrittenLines (es : List (Entry (String × α))) (symbols : String) (factors : List (String × String))
    (lines : List String) : Prop :=
  ∃ bodies calls, List.Forall₂ (WrittenBody style w asset date) es bodies ∧
    List.Forall₂ (WrittenStep style asset date) es calls ∧
    lines = style.head ++ (es.zip bodies).flatMap (fun p => funcText style p.1 p.2) ++
      ["", style.startLine, "", "", sortEntry style asset date es] ++ calls ++ ["", ""] ++
      (es.flatMap fun e => groupNotes w (entryName e) e.items).map Note.text ++
      ["", "\"\"\"", symbols, "\"\"\"", "", "\"\"\""] ++ factors.map (fun f => f.1 ++ " = " ++ f.2) ++
      ["\"\"\"", ""] ++ style.foot

variable {style w asset date}

theorem text_assigns {x : String × α} {line : BodyLine} (h : Assigns w x line) :
    ∃ code, w.code x.2 = .ok code ∧ line.text style = assignText style x.1 (w.shown x.2) code := by
  obtain ⟨code, hcode, rfl⟩ := h
  exact ⟨code, hcode, by cases style <;> rfl⟩

theorem text_blockLines (lines : List BodyLine) :
    (blockLines style lines).map (BodyLine.text style) = blockText style (lines.map (BodyLine.text style)) := by
  cases style with
  | polars =>
    rw [blockLines, List.map_append]
    rfl
  | pandas => rfl

theorem text_sortLines (k : Key) :
    (sortLines asset date k).map (BodyLine.text style) = sortText style asset date k := by
  unfold sortLines sortText
  split
  · cases style <;> rfl
  · rfl

theorem Computes.text {e : Entry (String × α)} {f : String × List BodyLine} (h : Computes style w asset date e f) :
    WrittenBody style w asset date e (f.2.map (BodyLine.text style)) := by
  obtain ⟨bs, news, hbs, hitems, hnews, hbody⟩ := h.body
  refine ⟨bs, news.map (List.map (BodyLine.text style)), hbs, hitems, ?_, ?_⟩
  · rw [List.forall₂_map_right_iff]
    refine hnews.imp fun _ _ hnew => ?_
    rw [List.forall₂_map_right_iff]
    exact hnew.imp fun _ _ => text_assigns
  · simp only [hbody, List.map_append, text_sortLines, List.map_flatMap, List.flatMap_map, text_blockLines]

theorem Applies.text {e : Entry (String × α)} {p : String × Step} (h : Applies asset date e p) :
    WrittenStep style asset date e (p.2.text style) := by
  obtain ⟨-, hfunc, hcs, hordered⟩ := h
  have hoption : p.2.ordered = decide (e.key = Key.overTime asset date) := by
    rw [Bool.eq_iff_iff, hordered, decide_eq_true_iff]
  rw [Step.text, hfunc, hoption]
  by_cases hnone : p.2.columns = []
  · rw [hnone] at hcs
    rw [if_pos (by simp [hnone])]
    refine .whole ?_
    generalize e.key = k at hcs
    cases hcs with
    | plain => rfl
  · rw [if_neg (by simpa using hnone)]
    exact .grouped hcs hnone

theorem Emits.sortText {rs : Rows Key (String × α)} {s : Script} (h : Emits style w asset date rs s) :
    s.sortText style = sortEntry style asset date (groups rs) := by
  unfold Script.sortText sortEntry
  rw [h.sorted, sortedBy]
  by_cases hany : (groups rs).any (fun e => e.key = Key.overTime asset date)
  · rw [if_pos hany, if_pos hany]
    cases style <;> rfl
  · rw [if_neg hany, if_neg hany]

theorem Emits.lines {rs : Rows Key (String × α)} {s : Script} (h : Emits style w asset date rs s)
    (symbols : String) (factors : List (String × String)) :
    WrittenLines style w asset date (groups rs) symbols factors (s.lines style symbols factors) := by
  refine ⟨s.funcs.map fun f => f.2.map (BodyLine.text style), s.steps.map fun p => p.2.text style, ?_, ?_, ?_⟩
  · rw [List.forall₂_map_right_iff]
    exact h.funcs.imp fun _ _ => Computes.text
  · rw [List.forall₂_map_right_iff]
    exact h.steps.imp fun _ _ => Applies.text
  · have hfuncs : s.funcs.flatMap (fun f => Script.funcLines style f.1 f.2) =
        ((groups rs).zip (s.funcs.map fun f => f.2.map (BodyLine.text style))).flatMap
          (fun p => funcText style p.1 p.2) := by
      have hF := h.funcs
      generalize groups rs = es, s.funcs = fs at hF
      induction hF with
      | nil => rfl
      | cons hf _ ih =>
        rw [List.flatMap_cons, ih, List.map_cons, List.zip_cons_cons, List.flatMap_cons, Script.funcLines, funcText,
          hf.name]
    rw [Script.lines, hfuncs, h.sortText, h.notes]

end Lines

/-- **Each group that has items becomes one function and one step.** In either style the code of
arranged rows is generated. The frame is sorted where a group is over time. The functions have names
of their own, and functions and steps come in the order of the groups: each function sorts where its
key asks for it and assigns the items block by block, and each step applies the function of its group
by the columns of its key. The lines of the script say just that. -/
theorem ofRows_emits (style : Style) {w : Writer α} {asset date : String} {rs : Rows Key (String × α)}
    (h : Arranged asset date rs) (hw : ∀ r ∈ rs, ∀ p ∈ r, Writable w p.2) :
    ∃ s, Script.ofRows style w rs = .ok s ∧ Emits style w asset date rs s ∧
      ∀ symbols factors, WrittenLines style w asset date (groups rs) symbols factors
        (s.lines style symbols factors) := by
  have hready : ∀ e ∈ rs.entries, Ready w asset date e := by
    intro e he
    obtain ⟨r, hr, hp⟩ := Rows.mem_entries he
    exact ⟨h.forms r hr _ hp, (Rows.blocked_iff _).mpr (h.lists r hr _ hp), hw r hr _ hp⟩
  obtain ⟨s, fs, ps, hs, hfs, hps, hsorted, hnotes, hF, hP⟩ :=
    foldlM_addGroup hready h.nodup_names (s := {}) (by simp [Table.keys])
  rw [List.nil_append] at hfs hps hnotes
  have hdistinct : (Table.keys s.funcs).Nodup := by
    rw [hfs, keys_of_computes hF]
    exact h.nodup_names.sublist (List.filter_sublist.map _)
  have hemits : Emits style w asset date rs s :=
    ⟨hdistinct, hsorted.trans Option.or_none, hnotes, hfs ▸ hF, hps ▸ hP⟩
  exact ⟨s, (ofRows_eq style w rs).trans hs, hemits, hemits.lines⟩

/-- A row with two blocks of columns without grouping and an empty list, and a row with a list over
time and two lists within groups. -/
def twoRows : Rows Key (String × Expr) :=
  [[(Key.plain, [none, some ("a", .symbol "CLOSE"), none, some ("b", .symbol "a")]),
    (Key.acrossMarket "date", [])],
   [(Key.overTime "asset" "date", [none, some ("c", .apply (.named "ts_mean") [.symbol "b", .ofInt 5])]),
    (Key.withinGroup "date" "sector", [none, some ("d", .symbol "b")]),
    (Key.withinGroup "date" "industry", [none, some ("e", .symbol "b"), some ("f", .symbol "a")])]]

theorem arranged_twoRows : Arranged "asset" "date" twoRows where
  keys := by decide
  forms := by
    simp only [twoRows, List.forall_mem_cons, List.not_mem_nil, false_imp_iff, implies_true, and_true]
    exact ⟨⟨⟨_, .plain⟩, ⟨_, .acrossMarket⟩⟩, ⟨_, .overTime⟩, ⟨_, .withinGroup _⟩, ⟨_, .withinGroup _⟩⟩
  lists := by
    simp only [twoRows, List.forall_mem_cons, List.not_mem_nil, false_imp_iff, implies_true, and_true,
      ← Rows.blocked_iff]
    exact ⟨⟨⟨[[_], [_]], by simp, rfl⟩, Rows.blocked_nil⟩, ⟨[[_]], by simp, rfl⟩, ⟨[[_]], by simp, rfl⟩,
      ⟨[[_, _]], by simp, rfl⟩⟩

theorem ofRows_emits_twoRows : Arranged "asset" "date" twoRows ∧
    ∃ s, Script.ofRows .polars (Plan.exprWriter .polars) twoRows = .ok s ∧
      Emits .polars (Plan.exprWriter .polars) "asset" "date" twoRows s ∧
      ∀ symbols factors, WrittenLines .polars (Plan.exprWriter .polars) "asset" "date" (groups twoRows) symbols
        factors (s.lines .polars symbols factors) := by
  refine ⟨arranged_twoRows, ofRows_emits .polars arranged_twoRows ?_⟩
  have hcode : ∀ e ∈ [Expr.symbol "CLOSE", .symbol "a", .symbol "b",
      .apply (.named "ts_mean") [.symbol "b", .ofInt 5]], ∃ t, (Plan.exprWriter .polars).code e = .ok t := by
    simp only [List.forall_mem_cons, List.not_mem_nil, false_imp_iff, implies_true, and_true]
    refine ⟨⟨_, rfl⟩, ⟨_, rfl⟩, ⟨_, rfl⟩, "pl.col('b').rolling_mean(5)", ?_⟩
    refine (Expr.textF_call polars _ false (f := .named "ts_mean") rfl _).trans ?_
    simp only [List.map_cons, List.map_nil, Expr.ofInt, Expr.textF_symbol, Expr.textF_scalar]
    rfl
  intro r hr p hp x hx
  refine hcode _ ?_
  simp only [twoRows, List.mem_cons, List.not_mem_nil, or_false] at hr
  rcases hr with rfl | rfl <;> simp_all <;> grind

end Target

end FactorPlan
