import FactorPlan.Proofs.Chain
import Mathlib.Data.List.Forall2

/-!
The best chain. Links join rows where each is a key of both of its rows, and is missing
exactly where they share no key (`Joined`). The common keys of two rows come in any order
(`Lists`); links are picked by the number of neighbours that are equal.

  1. `first?_bestByFirst`: picking link by link finds what going through all combinations
     finds, the first of those with the fewest clashes. So no combination has fewer
     (`clashesIn_pick_le`).
  2. `joined_iff`: the combinations are the links that join the rows.
  3. `clashesIn_eq`, `Joined.missing_eq`: two missing links clash as well, but links are missing
     in the same places whatever is picked. So the fewest clashes are the fewest repeated keys.
  4. `pick_optimal`: the picked links join the rows and repeat as few keys as possible, and the
     arranged rows begin and end with them.
-/

namespace FactorPlan

namespace Chain

variable {κ : Type}

/-! ## The first of the best -/

/-- The better of two choices; the first where they are equally good. -/
def better (best c : Choice κ) : Choice κ := if c.clashes < best.clashes then c else best

theorem better_assoc (a b c : Choice κ) : better (better a b) c = better a (better b c) := by
  unfold better
  by_cases hab : b.clashes < a.clashes
  · rw [if_pos hab]
    by_cases hbc : c.clashes < b.clashes
    · rw [if_pos hbc, if_pos (by omega)]
    · rw [if_neg hbc, if_pos hab]
  · rw [if_neg hab]
    by_cases hbc : c.clashes < b.clashes
    · rw [if_pos hbc]
    · rw [if_neg hbc, if_neg hab, if_neg (by omega)]

instance : Std.Associative (@better κ) := ⟨better_assoc⟩

theorem fewest_cons (c d : Choice κ) (cs : List (Choice κ)) :
    fewest c (d :: cs) = better c (fewest d cs) :=
  @List.foldl_assoc _ better _ cs c d

theorem better_le (c d : Choice κ) :
    (better c d).clashes ≤ c.clashes ∧ (better c d).clashes ≤ d.clashes := by
  unfold better
  split <;> omega

theorem fewest_le (c : Choice κ) (cs : List (Choice κ)) :
    ∀ d ∈ c :: cs, (fewest c cs).clashes ≤ d.clashes := by
  induction cs generalizing c with
  | nil => simp [fewest]
  | cons b cs ih =>
    intro d hd
    obtain ⟨hc, hrest⟩ := better_le c (fewest b cs)
    rw [fewest_cons]
    rcases List.mem_cons.mp hd with rfl | hd
    · exact hc
    · exact Nat.le_trans hrest (ih b d hd)

/-- The first of the choices with the fewest clashes. -/
def first? : List (Choice κ) → Option (Choice κ)
  | [] => none
  | c :: cs => some (fewest c cs)

theorem first?_mem {cs : List (Choice κ)} {c : Choice κ} (h : first? cs = some c) : c ∈ cs := by
  cases cs with
  | nil => cases h
  | cons d cs => cases h; exact fewest_mem d cs

theorem first?_le {cs : List (Choice κ)} {c : Choice κ} (h : first? cs = some c) :
    ∀ d ∈ cs, c.clashes ≤ d.clashes := by
  cases cs with
  | nil => cases h
  | cons d cs => cases h; exact fewest_le d cs

theorem first?_append (cs ds : List (Choice κ)) :
    first? (cs ++ ds) = Option.merge better (first? cs) (first? ds) := by
  cases cs with
  | nil => exact Option.merge_none_left.symm
  | cons c cs =>
    cases ds with
    | nil => rw [List.append_nil]; exact Option.merge_none_right.symm
    | cons d ds =>
      have happend : fewest c (cs ++ d :: ds) = fewest (fewest c cs) (d :: ds) := List.foldl_append
      exact congrArg some (happend.trans (fewest_cons _ d ds))

/-- The first of the best is found block by block. -/
theorem first?_flatMap {α : Type} (f : α → List (Choice κ)) (xs : List α) :
    first? (xs.flatMap f) = first? (xs.filterMap (fun x => first? (f x))) := by
  induction xs with
  | nil => rfl
  | cons x xs ih =>
    rw [List.flatMap_cons, first?_append, ih, List.filterMap_cons]
    cases first? (f x) with
    | none => exact Option.merge_none_left
    | some c => exact (first?_append [c] _).symm

/-! ## Going through all combinations -/

/-- All combinations of one link from each list, the last one changing first. -/
def combinations : List (List (Option κ)) → List (List (Option κ))
  | [] => [[]]
  | xs :: rest => xs.flatMap (fun x => (combinations rest).map (x :: ·))

theorem mem_combinations {xss : List (List (Option κ))} {ls : List (Option κ)} :
    ls ∈ combinations xss ↔ List.Forall₂ (· ∈ ·) ls xss := by
  induction xss generalizing ls with
  | nil => simp [combinations]
  | cons xs rest ih =>
    simp only [combinations, List.mem_flatMap, List.mem_map, ih]
    constructor
    · rintro ⟨x, hx, ls, hls, rfl⟩
      exact .cons hx hls
    · rintro (_ | ⟨hx, hls⟩)
      exact ⟨_, hx, _, hls, rfl⟩

section Search
variable [DecidableEq κ]

/-- The number of neighbouring links that are equal. -/
def clashesIn : List (Option κ) → Nat
  | [] => 0
  | x :: ls => clash x ls + clashesIn ls

/-- Links as a choice, with their clashes counted. -/
def Choice.of (ls : List (Option κ)) : Choice κ := { clashes := clashesIn ls, links := ls }

/-- A link before choices that all clash with it, or all do not, leaves the best of them the best. -/
theorem fewest_extend {x : Option κ} {n : Nat} {c : Choice κ} {cs : List (Choice κ)}
    (hc : clash x c.links = n) (hcs : ∀ d ∈ cs, clash x d.links = n) :
    fewest (extend x c) (cs.map (extend x)) = extend x (fewest c cs) := by
  induction cs generalizing c with
  | nil => rfl
  | cons d cs ih =>
    obtain ⟨hd, hcs⟩ := List.forall_mem_cons.mp hcs
    have hfirst : clash x (fewest d cs).links = n := by
      rcases List.mem_cons.mp (fewest_mem d cs) with h | h
      · rw [h]; exact hd
      · exact hcs _ h
    have hlt : (extend x (fewest d cs)).clashes < (extend x c).clashes ↔
        (fewest d cs).clashes < c.clashes := by
      simp only [extend, hc, hfirst, Nat.add_lt_add_iff_left]
    rw [List.map_cons, fewest_cons, ih hd hcs, fewest_cons]
    simp only [better, hlt]
    split <;> rfl

theorem first?_map_extend {x : Option κ} {n : Nat} {cs : List (Choice κ)}
    (h : ∀ c ∈ cs, clash x c.links = n) :
    first? (cs.map (extend x)) = (first? cs).map (extend x) := by
  cases cs with
  | nil => rfl
  | cons c cs =>
    obtain ⟨hc, hcs⟩ := List.forall_mem_cons.mp h
    exact congrArg some (fewest_extend hc hcs)

theorem bestByFirst_cons (xs : List (Option κ)) (rest : List (List (Option κ))) :
    bestByFirst (xs :: rest) =
      xs.filterMap (fun x => first? ((bestByFirst rest).map (extend x))) := by
  rw [bestByFirst]
  cases bestByFirst rest with
  | nil => simp [first?]
  | cons c cs => simp [first?]

/-- After a given link: the best of the best by first link is the best of all combinations. -/
theorem first?_map_bestByFirst (x : Option κ) (xss : List (List (Option κ))) :
    first? ((bestByFirst xss).map (extend x)) =
      first? ((combinations xss).map (fun ls => Choice.of (x :: ls))) := by
  induction xss generalizing x with
  | nil => rfl
  | cons ys rest ih =>
    -- all combinations that begin with the same link clash with `x` in the same way
    have hblock : ∀ y, (first? ((combinations rest).map (fun ls => Choice.of (y :: ls)))).map (extend x) =
        first? ((combinations rest).map (fun ls => Choice.of (x :: y :: ls))) := by
      intro y
      rw [← first?_map_extend (n := clash x [y]), List.map_map]
      · rfl
      · intro c hc
        obtain ⟨ls, _, rfl⟩ := List.mem_map.mp hc
        rfl
    rw [bestByFirst_cons, List.map_filterMap, combinations, List.map_flatMap]
    simp only [ih, hblock, List.map_map]
    exact (first?_flatMap _ ys).symm

/-- Picking link by link finds what going through all combinations finds. -/
theorem first?_bestByFirst (xss : List (List (Option κ))) :
    first? (bestByFirst xss) = first? ((combinations xss).map Choice.of) := by
  cases xss with
  | nil => rfl
  | cons xs rest =>
    rw [bestByFirst_cons, combinations, List.map_flatMap, first?_flatMap]
    simp only [first?_map_bestByFirst, List.map_map]
    rfl

theorem pick_eq_links {xss : List (List (Option κ))} {c : Choice κ}
    (h : first? (bestByFirst xss) = some c) : pick xss = c.links := by
  unfold pick
  cases hb : bestByFirst xss with
  | nil => rw [hb] at h; cases h
  | cons d ds => rw [hb] at h; cases h; rfl

/-- What is picked is the first of the combinations with the fewest clashes. -/
theorem first?_combinations {xss : List (List (Option κ))} (h : ∀ xs ∈ xss, xs ≠ []) :
    first? ((combinations xss).map Choice.of) = some (Choice.of (pick xss)) := by
  obtain ⟨c, hc⟩ : ∃ c, first? (bestByFirst xss) = some c := by
    cases hb : bestByFirst xss with
    | nil => exact absurd hb (bestByFirst_ne_nil h)
    | cons c cs => exact ⟨_, rfl⟩
  have hfirst : first? ((combinations xss).map Choice.of) = some c := by
    rw [← first?_bestByFirst, hc]
  obtain ⟨ls, _, rfl⟩ := List.mem_map.mp (first?_mem hfirst)
  rw [pick_eq_links hc]
  exact hfirst

/-- No links from the lists clash less than those that are picked. -/
theorem clashesIn_pick_le {xss : List (List (Option κ))} (h : ∀ xs ∈ xss, xs ≠ [])
    {ls : List (Option κ)} (hls : List.Forall₂ (· ∈ ·) ls xss) :
    clashesIn (pick xss) ≤ clashesIn ls :=
  first?_le (first?_combinations h) (Choice.of ls)
    (List.mem_map_of_mem (mem_combinations.mpr hls))

end Search

/-! ## Repeated keys -/

/-- The number of neighbouring links that are both missing. -/
def missing (ls : List (Option κ)) : Nat := (ls.zip ls.tail).countP (fun p => p.1 = none ∧ p.2 = none)

theorem missing_cons_cons (x y : Option κ) (ls : List (Option κ)) :
    missing (x :: y :: ls) = missing (y :: ls) + if x = none ∧ y = none then 1 else 0 := by
  simp [missing, List.countP_cons]

theorem missing_congr {ls ls' : List (Option κ)}
    (h : List.Forall₂ (fun l l' => l = none ↔ l' = none) ls ls') : missing ls = missing ls' := by
  induction h with
  | nil => rfl
  | cons hx hls ih =>
    cases hls with
    | nil => rfl
    | cons hy hls => simp only [missing_cons_cons, ih, hx, hy]

section Repeats
variable [DecidableEq κ]

/-- The number of neighbouring links that are the same key. -/
def repeats (ls : List (Option κ)) : Nat :=
  (ls.zip ls.tail).countP (fun p => p.1 = p.2 ∧ p.1 ≠ none)

theorem repeats_cons_cons (x y : Option κ) (ls : List (Option κ)) :
    repeats (x :: y :: ls) = repeats (y :: ls) + if x = y ∧ x ≠ none then 1 else 0 := by
  simp [repeats, List.countP_cons]

/-- Links clash where they repeat a key or are both missing. -/
theorem clashesIn_eq (ls : List (Option κ)) : clashesIn ls = repeats ls + missing ls := by
  induction ls with
  | nil => rfl
  | cons x ls ih =>
    cases ls with
    | nil => rfl
    | cons y ls =>
      rw [clashesIn, ih, repeats_cons_cons, missing_cons_cons, clash]
      by_cases hxy : x = y
      · subst hxy
        by_cases hx : x = none
        · simp only [hx, if_true, ne_eq, not_true_eq_false, and_false, if_false, and_self]
          omega
        · simp only [hx, if_true, ne_eq, not_false_eq_true, and_self, if_false]
          omega
      · have hnot : ¬ (x = none ∧ y = none) := fun h => hxy (h.1.trans h.2.symm)
        simp only [hxy, hnot, false_and, if_false]
        omega

end Repeats

/-! ## Links that join rows -/

/-- One link for each two neighbouring rows: a key of both, and none exactly where they share no
key. -/
structure Joined (ls : List (Option κ)) (rows : List (List κ)) : Prop extends Linked ls rows where
  between : ls.length + 1 = rows.length
  none_iff : ∀ m, m + 1 < rows.length →
    (linkAt ls m = none ↔ ∀ k ∈ rows.getD m [], k ∉ rows.getD (m + 1) [])

/-- Links that join the same rows are missing in the same places. -/
theorem Joined.missing_eq {ls ls' : List (Option κ)} {rows : List (List κ)} (h : Joined ls rows)
    (h' : Joined ls' rows) : missing ls = missing ls' := by
  have hget : ∀ (xs : List (Option κ)) (i : Nat) (hi : i < xs.length), xs.get ⟨i, hi⟩ = linkAt xs i := by
    intro xs i hi
    rw [linkAt, List.getElem?_eq_getElem hi]
    rfl
  have hlen := h.between
  have hlen' := h'.between
  refine missing_congr (List.forall₂_iff_get.mpr ⟨by omega, fun i hi hi' => ?_⟩)
  rw [hget, hget, h.none_iff i (by omega), h'.none_iff i (by omega)]

section Joining
variable [DecidableEq κ] {ls : List (Option κ)} {rows : List (List κ)} {xss : List (List (Option κ))}

/-- The links to choose from between neighbouring rows, those of each two rows in any order. -/
def Lists (xss : List (List (Option κ))) (rows : List (List κ)) : Prop :=
  List.Forall₂ List.Perm xss (choices id rows)

theorem mem_linksBetween {a b : List κ} {l : Option κ} : l ∈ linksBetween id a b ↔
    (∀ k, l = some k → k ∈ a ∧ k ∈ b) ∧ (l = none ↔ ∀ k ∈ a, k ∉ b) := by
  have hcommon : ∀ k, k ∈ a.filter b.contains ↔ k ∈ a ∧ k ∈ b := by simp
  have hnone : (∀ k ∈ a, k ∉ b) ↔ a.filter b.contains = [] := by simp
  have hlinks : linksBetween id a b =
      if a.filter b.contains = [] then [none] else (a.filter b.contains).map some := by
    unfold linksBetween
    rw [id]
    cases a.filter b.contains <;> rfl
  rw [hnone, hlinks]
  simp only [← hcommon]
  by_cases hc : a.filter b.contains = []
  · rw [if_pos hc, hc, List.mem_singleton]
    exact ⟨fun h => ⟨by simp [h], by simp [h]⟩, fun h => h.2.mpr rfl⟩
  · rw [if_neg hc]
    cases l with
    | none => simp [hc]
    | some k => simp [hc]

theorem joined_cons_cons {l : Option κ} {a b : List κ} : Joined (l :: ls) (a :: b :: rows) ↔
    l ∈ linksBetween id a b ∧ Joined ls (b :: rows) := by
  rw [mem_linksBetween]
  constructor
  · intro h
    refine ⟨⟨fun k hk => h.common 0 k hk, h.none_iff 0 (by simp)⟩, ⟨?_, ?_⟩, ?_, ?_⟩
    · simpa using h.length
    · exact fun m k hk => h.common (m + 1) k hk
    · simpa using h.between
    · exact fun m hm => h.none_iff (m + 1) (by simpa using hm)
  · rintro ⟨⟨hkey, hnone⟩, h⟩
    refine ⟨⟨?_, ?_⟩, ?_, ?_⟩
    · simpa using h.length
    · intro m k hk
      cases m with
      | zero => exact hkey k hk
      | succ m => exact h.common m k hk
    · simpa using h.between
    · intro m hm
      cases m with
      | zero => exact hnone
      | succ m => exact h.none_iff m (by simpa using hm)

/-- Links join rows exactly where each is one to choose from. -/
theorem joined_iff (h : rows ≠ []) : Joined ls rows ↔ List.Forall₂ (· ∈ ·) ls (choices id rows) := by
  induction rows generalizing ls with
  | nil => exact absurd rfl h
  | cons a rows ih =>
    cases rows with
    | nil =>
      have hnil : choices id [a] = [] := rfl
      rw [hnil, List.forall₂_nil_right_iff]
      constructor
      · intro h
        simpa using h.between
      · rintro rfl
        exact ⟨⟨by simp, by simp⟩, by simp, by simp⟩
    | cons b rest =>
      cases ls with
      | nil =>
        refine ⟨fun h => absurd h.between (by simp), fun h => ?_⟩
        cases h
      | cons l ls =>
        rw [joined_cons_cons, ih (by simp), choices, List.forall₂_cons]

theorem Lists.mem_iff (h : Lists xss rows) :
    List.Forall₂ (· ∈ ·) ls xss ↔ List.Forall₂ (· ∈ ·) ls (choices id rows) := by
  unfold Lists at h
  generalize choices id rows = yss at h ⊢
  induction h generalizing ls with
  | nil => rfl
  | cons hp _ ih =>
    cases ls with
    | nil => simp
    | cons l ls => rw [List.forall₂_cons, List.forall₂_cons, hp.mem_iff, ih]

theorem Lists.ne_nil (h : Lists xss rows) : ∀ xs ∈ xss, xs ≠ [] := by
  have hne := choices_ne_nil id rows
  unfold Lists at h
  generalize choices id rows = yss at h hne
  induction h with
  | nil => simp
  | cons hp _ ih =>
    obtain ⟨hy, hne⟩ := List.forall_mem_cons.mp hne
    refine List.forall_mem_cons.mpr ⟨fun hx => ?_, ih hne⟩
    rw [hx, List.nil_perm] at hp
    exact hy hp

theorem linksBetween_perm {order : List κ → List κ} (horder : ∀ ks, (order ks).Perm ks)
    (a b : List κ) : (linksBetween order a b).Perm (linksBetween id a b) := by
  have hp := horder (a.filter b.contains)
  unfold linksBetween
  rw [id]
  cases hc : a.filter b.contains with
  | nil =>
    rw [hc] at hp
    rw [hp.eq_nil]
  | cons k ks =>
    rw [hc] at hp
    cases ho : order (k :: ks) with
    | nil =>
      rw [ho, List.nil_perm] at hp
      cases hp
    | cons j js =>
      rw [ho] at hp
      exact hp.map some

/-- Whatever the order of common keys, all of them are listed. -/
theorem lists_choices {order : List κ → List κ} (horder : ∀ ks, (order ks).Perm ks)
    (rows : List (List κ)) : Lists (choices order rows) rows := by
  unfold Lists
  induction rows with
  | nil => exact .nil
  | cons a rows ih =>
    cases rows with
    | nil => exact .nil
    | cons b rest => exact .cons (linksBetween_perm horder a b) ih

theorem pick_joined (hrows : rows ≠ []) (h : Lists xss rows) : Joined (pick xss) rows :=
  (joined_iff hrows).mpr (h.mem_iff.mp (pick_chosen h.ne_nil))

theorem repeats_pick_le (hrows : rows ≠ []) (h : Lists xss rows) (hls : Joined ls rows) :
    repeats (pick xss) ≤ repeats ls := by
  have hle := clashesIn_pick_le h.ne_nil (h.mem_iff.mpr ((joined_iff hrows).mp hls))
  rw [clashesIn_eq, clashesIn_eq, (pick_joined hrows h).missing_eq hls] at hle
  omega

/-! ## The arranged rows -/

/-- The keys of a row, each once, with the head first and the tail last unless both are the same. -/
structure Arranges (head tail : Option κ) (row chain : List κ) : Prop where
  perm : chain.Perm row
  begins : ∀ k, head = some k → chain.head? = some k
  ends : ∀ k, tail = some k → tail ≠ head → chain.getLast? = some k

theorem arranges_arrange {head tail : Option κ} {row : List κ} (hnd : row.Nodup)
    (hh : ∀ k, head = some k → k ∈ row) (ht : ∀ k, tail = some k → k ∈ row) :
    Arranges head tail row (arrange head tail row) := by
  have hchain : (arrange head tail row).Nodup := (arrange_pairwise head tail hnd).imp And.left
  refine ⟨(List.perm_ext_iff_of_nodup hchain hnd).mpr (mem_arrange hh ht), ?_, ?_⟩
  · rintro k rfl
    rfl
  · rintro k rfl hne
    simp [arrange, hne]

theorem Joined.arranges (h : Joined ls rows) {i : Nat} {row : List κ} (hrow : rows[i]? = some row)
    (hnd : row.Nodup) :
    Arranges (headAt ls i) (linkAt ls i) row (arrange (headAt ls i) (linkAt ls i) row) := by
  have hget : rows.getD i [] = row := by rw [List.getD_eq_getElem?_getD, hrow]; rfl
  refine arranges_arrange hnd (fun k hk => ?_) (fun k hk => hget ▸ (h.common i k hk).1)
  cases i with
  | zero => cases hk
  | succ m => exact hget ▸ (h.common m k hk).2

/-- **The picked chain is a best one.** Whatever the order in which the common keys of each two
neighbouring rows are listed: the picked links join the rows, and no links that join them repeat
fewer keys. The heads are these links after none, and the tails are these links before none. Each
row is arranged with its head first and its tail last. -/
theorem pick_optimal (hrows : rows ≠ []) (hkeys : ∀ row ∈ rows, row.Nodup) (hxss : Lists xss rows) :
    Joined (pick xss) rows ∧ (∀ ls, Joined ls rows → repeats (pick xss) ≤ repeats ls) ∧
      heads (pick xss) = none :: pick xss ∧ tails (pick xss) = pick xss ++ [none] ∧
      (arrangeAll (pick xss) rows).length = rows.length ∧
      ∀ (i : Nat) (row : List κ), rows[i]? = some row → ∃ chain head tail,
        (arrangeAll (pick xss) rows)[i]? = some chain ∧ (heads (pick xss))[i]? = some head ∧
        (tails (pick xss))[i]? = some tail ∧ Arranges head tail row chain := by
  have hjoined := pick_joined hrows hxss
  have hlen := hjoined.between
  refine ⟨hjoined, fun ls hls => repeats_pick_le hrows hxss hls, rfl, rfl, ?_, fun i row hrow => ?_⟩
  · simp [arrangeAll, heads, tails, hlen]
  · obtain ⟨hi, -⟩ := List.getElem?_eq_some_iff.mp hrow
    have hle : i ≤ (pick xss).length := by omega
    exact ⟨_, _, _, getElem?_arrangeAll hle hrow, getElem?_heads _ hle, getElem?_tails _ hle,
      hjoined.arranges hrow (hkeys row (List.mem_of_getElem? hrow))⟩

end Joining

/-- Rows of which the second and the third have one key in common, as have the third and the fourth;
the last two share none with the row before. -/
def narrowing : List (List Key) :=
  [[["ts", "asset", "date"], ["cs", "date"]], [["cs", "date"], ["ts", "asset", "date"]],
    [["cl"], ["cs", "date"]], [["cs", "date"]], [["cl"]], [["ts", "asset", "date"]]]

/-- One key has to be repeated, whatever the links; the second row is turned round. -/
theorem pick_optimal_narrowing :
    links List.reverse narrowing =
        [some ["ts", "asset", "date"], some ["cs", "date"], some ["cs", "date"], none, none] ∧
      Joined (links List.reverse narrowing) narrowing ∧ repeats (links List.reverse narrowing) = 1 ∧
      (∀ ls, Joined ls narrowing → 1 ≤ repeats ls) ∧
      ∃ chain, (arrangeAll (links List.reverse narrowing) narrowing)[1]? = some chain ∧
        Arranges (some ["ts", "asset", "date"]) (some ["cs", "date"])
          [["cs", "date"], ["ts", "asset", "date"]] chain := by
  have hlinks : links List.reverse narrowing =
      [some ["ts", "asset", "date"], some ["cs", "date"], some ["cs", "date"], none, none] := by decide
  have hrepeats : repeats (links List.reverse narrowing) = 1 := by rw [hlinks]; decide
  have hhead : (heads (links List.reverse narrowing))[1]? = some (some ["ts", "asset", "date"]) := by
    rw [hlinks]; rfl
  have htail : (tails (links List.reverse narrowing))[1]? = some (some ["cs", "date"]) := by
    rw [hlinks]; rfl
  obtain ⟨hjoined, hbest, -, -, -, hrows⟩ :=
    pick_optimal (by decide) (by decide) (lists_choices List.reverse_perm narrowing)
  obtain ⟨chain, head, tail, hchain, hh, ht, harranges⟩ := hrows 1 _ rfl
  obtain rfl := Option.some.inj (hhead.symm.trans hh)
  obtain rfl := Option.some.inj (htail.symm.trans ht)
  exact ⟨hlinks, hjoined, hrepeats, fun ls hls => hrepeats ▸ hbest ls hls, chain, hchain, harranges⟩

end Chain

end FactorPlan
