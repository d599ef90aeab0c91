import FactorPlan.Plan.Rows
import Mathlib.Data.List.Infix

/-!
Separators. A list is split at its first separator in one way (`eq_of_first`). A list of a row is
made of blocks, each a separator and the items after it (`Blocked`). That is so exactly where it
begins with a separator, has no two of them in a row and does not end with one (`blocked_iff`).
-/

namespace FactorPlan

/-- Lists are split at their first separator in one way. -/
theorem eq_of_first {α : Type} [DecidableEq α] {x : α} {as bs cs ds : List α} (ha : x ∉ as) (hc : x ∉ cs)
    (h : as ++ x :: bs = cs ++ x :: ds) : as = cs ∧ bs = ds := by
  have htake : ∀ {as bs : List α}, x ∉ as → (as ++ x :: bs).takeWhile (· ≠ x) = as := by
    intro as bs ha
    have hne : ∀ c ∈ as, decide (c ≠ x) = true := fun c hc => decide_eq_true fun he => ha (he ▸ hc)
    rw [List.takeWhile_append_of_pos hne]
    simp
  have hfirst : as = cs := by rw [← htake ha, h, htake hc]
  subst hfirst
  exact ⟨rfl, by simpa using h⟩

namespace Rows

variable {ι : Type}

/-- A separator and the items after it. -/
def block (xs : List ι) : Group ι := none :: xs.map some

/-- The list is made of blocks, none of them empty. -/
def Blocked (g : Group ι) : Prop := ∃ bs : List (List ι), (∀ b ∈ bs, b ≠ []) ∧ g = bs.flatMap block

/-- The list begins with a separator and has no two of them in a row. -/
structure Separated (g : Group ι) : Prop where
  begins : g.head? = some none
  single : ¬ [none, none] <:+: g

theorem blocked_nil : Blocked ([] : Group ι) := ⟨[], by simp, rfl⟩

theorem blocked_block {xs : List ι} (h : xs ≠ []) : Blocked (block xs) :=
  ⟨[xs], by simpa using h, by simp⟩

theorem Blocked.append {g h : Group ι} (hg : Blocked g) (hh : Blocked h) : Blocked (g ++ h) := by
  obtain ⟨bs, hbs, rfl⟩ := hg
  obtain ⟨cs, hcs, rfl⟩ := hh
  refine ⟨bs ++ cs, fun b hb => ?_, by rw [List.flatMap_append]⟩
  exact (List.mem_append.mp hb).elim (hbs b) (hcs b)

theorem Blocked.flatMap {β : Type} {f : β → Group ι} {xs : List β} (h : ∀ x ∈ xs, Blocked (f x)) :
    Blocked (xs.flatMap f) := by
  induction xs with
  | nil => exact blocked_nil
  | cons x xs ih =>
    rw [List.flatMap_cons]
    exact (h x List.mem_cons_self).append (ih fun y hy => h y (List.mem_cons_of_mem _ hy))

/-! ## Lists without two separators in a row -/

theorem infix_cons_of_ne {x : Option ι} {g : Group ι} (hx : x ≠ none) (h : [none, none] <:+: x :: g) :
    [none, none] <:+: g := by
  rcases List.infix_cons_iff.mp h with h | h
  · exact absurd (List.cons_prefix_cons.mp h).1.symm hx
  · exact h

theorem single_map_some_append {xs : List ι} {g : Group ι} (h : ¬ [none, none] <:+: g) :
    ¬ [none, none] <:+: xs.map some ++ g := by
  induction xs with
  | nil => exact h
  | cons x xs ih => exact fun hin => ih (infix_cons_of_ne (by simp) hin)

theorem getLast?_flatMap_block {bs : List (List ι)} (h : ∀ b ∈ bs, b ≠ []) :
    (bs.flatMap block).getLast? ≠ some none := by
  induction bs with
  | nil => simp
  | cons b bs ih =>
    have hrest := ih fun c hc => h c (List.mem_cons_of_mem _ hc)
    rw [List.flatMap_cons, List.getLast?_append]
    cases hlast : (bs.flatMap block).getLast? with
    | none =>
      obtain ⟨x, xs, rfl⟩ := List.exists_cons_of_ne_nil (h b List.mem_cons_self)
      simp [block, List.getLast?_cons]
    | some y =>
      rw [hlast] at hrest
      simpa using hrest

theorem single_flatMap_block {bs : List (List ι)} (h : ∀ b ∈ bs, b ≠ []) :
    ¬ [none, none] <:+: bs.flatMap block := by
  induction bs with
  | nil => simp
  | cons b bs ih =>
    obtain ⟨x, xs, rfl⟩ := List.exists_cons_of_ne_nil (h b List.mem_cons_self)
    have hrest := ih fun c hc => h c (List.mem_cons_of_mem _ hc)
    rw [List.flatMap_cons, block, List.cons_append, List.infix_cons_iff]
    rintro (hpre | hin)
    · -- an item follows the separator
      simp at hpre
    · exact single_map_some_append hrest hin

theorem Blocked.separated {g : Group ι} (h : Blocked g) (hne : g ≠ []) : Separated g := by
  obtain ⟨bs, hbs, rfl⟩ := h
  refine ⟨?_, single_flatMap_block hbs⟩
  cases bs with
  | nil => exact absurd rfl hne
  | cons b bs => rfl

/-- Items before the first separator, and the blocks after them. -/
theorem exists_blocks {g : Group ι} (hsingle : ¬ [none, none] <:+: g)
    (hlast : g.getLast? ≠ some none) :
    ∃ (xs : List ι) (bs : List (List ι)), (∀ b ∈ bs, b ≠ []) ∧
      g = xs.map some ++ bs.flatMap block := by
  induction g with
  | nil => exact ⟨[], [], by simp, rfl⟩
  | cons y g ih =>
    have hlast' : g.getLast? ≠ some none := by
      intro hg
      rw [List.getLast?_cons, hg] at hlast
      exact hlast rfl
    obtain ⟨xs, bs, hbs, rfl⟩ := ih (fun h => hsingle (List.infix_cons h)) hlast'
    cases y with
    | some y => exact ⟨y :: xs, bs, hbs, rfl⟩
    | none =>
      refine ⟨[], xs :: bs, fun b hb => ?_, by simp [block]⟩
      rcases List.mem_cons.mp hb with rfl | hb
      · -- without items the separator would be the last, or another one would follow
        rintro rfl
        cases bs with
        | nil => simp at hlast
        | cons c bs => exact hsingle ⟨[], c.map some ++ bs.flatMap block, by simp [block]⟩
      · exact hbs b hb

theorem blocked_iff (g : Group ι) :
    Blocked g ↔ (g ≠ [] → Separated g ∧ g.getLast? ≠ some none) := by
  constructor
  · intro h hne
    refine ⟨h.separated hne, ?_⟩
    obtain ⟨bs, hbs, rfl⟩ := h
    exact getLast?_flatMap_block hbs
  · intro h
    by_cases hne : g = []
    · exact hne ▸ blocked_nil
    · obtain ⟨⟨hbegins, hsingle⟩, hlast⟩ := h hne
      obtain ⟨xs, bs, hbs, rfl⟩ := exists_blocks hsingle hlast
      cases xs with
      | nil => exact ⟨bs, hbs, rfl⟩
      | cons x xs => simp at hbegins

end Rows

end FactorPlan
