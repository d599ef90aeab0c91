import FactorPlan.Plan.Bindings
import FactorPlan.Proofs.Assignments

/-!
Names of symbols. A text is read as a list of names, divided by commas and blanks, in which ranges
stand for several names and a backslash keeps a separator. Words hold neither blanks nor commas, a
range makes a sequence, and a text in which separators are kept is longer than any name in it. So a
text is read as the one name that it is exactly where it has no comma, no colon and no blank
(`ofName_eq_self_iff`).
-/

namespace FactorPlan

namespace Text

/-! ## Pieces and words -/

theorem trim_sublist (cs : List Char) : (trim cs).Sublist cs := by
  unfold trim
  rw [← List.reverse_sublist, List.reverse_reverse]
  exact (List.dropWhile_sublist _).trans (List.reverse_sublist.mpr (List.dropWhile_sublist _))

theorem trim_of_unspaced {cs : List Char} (h : ∀ c ∈ cs, isSpace c = false) : trim cs = cs := by
  have hdrop (ds : List Char) (hds : ∀ c ∈ ds, isSpace c = false) : ds.dropWhile isSpace = ds := by
    cases ds with
    | nil => rfl
    | cons d ds => rw [List.dropWhile_cons, hds d List.mem_cons_self, if_neg Bool.false_ne_true]
  rw [trim, hdrop cs h, hdrop cs.reverse fun c hc => h c (List.mem_reverse.mp hc), List.reverse_reverse]

theorem words_of_unspaced {current cs : List Char} (h : ∀ c ∈ cs, isSpace c = false) (hne : current ++ cs ≠ []) :
    wordsFrom current cs = [current.reverse ++ cs] := by
  induction cs generalizing current with
  | nil =>
    rw [List.append_nil] at hne ⊢
    have hempty : current.isEmpty = false := by simpa using hne
    rw [wordsFrom, hempty, if_neg Bool.false_ne_true]
  | cons c cs ih =>
    have hc := h c List.mem_cons_self
    rw [wordsFrom, hc, if_neg Bool.false_ne_true, ih (fun d hd => h d (List.mem_cons_of_mem c hd)) (by simp)]
    simp

/-- A piece does not hold the character that divides pieces, and is no longer than the text. -/
theorem mem_piecesFrom {d : Char} {current cs p : List Char} (hcurrent : d ∉ current)
    (hp : p ∈ piecesFrom d current cs) : d ∉ p ∧ p.length ≤ current.length + cs.length := by
  induction cs generalizing current with
  | nil =>
    rw [piecesFrom, List.mem_singleton] at hp
    simpa [hp] using hcurrent
  | cons c cs ih =>
    rw [piecesFrom] at hp
    split at hp
    · rcases List.mem_cons.mp hp with rfl | hp
      · exact ⟨by simpa using hcurrent, by rw [List.length_reverse]; omega⟩
      · obtain ⟨hd, hlength⟩ := ih (List.not_mem_nil) hp
        simp only [List.length_nil] at hlength
        exact ⟨hd, by rw [List.length_cons]; omega⟩
    · rename_i hc
      have hnew : d ∉ c :: current := by simpa [Ne.symm hc] using hcurrent
      obtain ⟨hd, hlength⟩ := ih hnew hp
      rw [List.length_cons] at hlength ⊢
      exact ⟨hd, by omega⟩

/-- A word is not empty, holds no blanks, and is made of characters of the text in their order. -/
theorem mem_wordsFrom {current cs w : List Char} (hcurrent : ∀ c ∈ current, isSpace c = false)
    (hw : w ∈ wordsFrom current cs) :
    w ≠ [] ∧ (∀ c ∈ w, isSpace c = false) ∧ w.Sublist (current.reverse ++ cs) := by
  induction cs generalizing current with
  | nil =>
    rw [wordsFrom] at hw
    split at hw
    · cases hw
    · rename_i hne
      rw [List.mem_singleton.mp hw]
      exact ⟨by simpa using hne, by simpa using hcurrent, by simp⟩
  | cons c cs ih =>
    rw [wordsFrom] at hw
    have hskip : ∀ {v : List Char}, v.Sublist cs → v.Sublist (current.reverse ++ c :: cs) := fun hv =>
      (hv.trans (List.sublist_cons_self c cs)).trans (List.sublist_append_right _ _)
    split at hw
    · split at hw
      · obtain ⟨hne, hspace, hsub⟩ := ih (by simp) hw
        exact ⟨hne, hspace, hskip hsub⟩
      · rename_i hne
        rcases List.mem_cons.mp hw with rfl | hw
        · exact ⟨by simpa using hne, by simpa using hcurrent, List.sublist_append_left _ _⟩
        · obtain ⟨hne, hspace, hsub⟩ := ih (by simp) hw
          exact ⟨hne, hspace, hskip hsub⟩
    · rename_i hc
      have hnew : ∀ d ∈ c :: current, isSpace d = false := by simpa using ⟨by simpa using hc, hcurrent⟩
      simpa using ih hnew hw

/-! ## Marks -/

theorem isEscaped_of_notMem {sep : Char} {cs : List Char} (h : sep ∉ cs) : isEscaped sep cs = false := by
  induction cs with
  | nil => rfl
  | cons c cs ih =>
    rw [List.mem_cons, not_or] at h
    have hhead : cs.head? ≠ some sep := fun hd => h.2 (List.mem_of_head? hd)
    rw [isEscaped, ih h.2]
    simp [hhead]

theorem length_hide_le (sep mark : Char) (cs : List Char) : (hide sep mark cs).length ≤ cs.length := by
  fun_induction hide sep mark cs with
  | case1 => exact Nat.le_refl _
  | case2 => exact Nat.le_refl _
  | case3 _ _ _ _ ih => simp only [List.length_cons]; omega
  | case4 _ _ _ _ ih => simp only [List.length_cons] at ih ⊢; omega

theorem length_hide_lt {sep : Char} (mark : Char) {cs : List Char} (h : isEscaped sep cs = true) :
    (hide sep mark cs).length < cs.length := by
  fun_induction hide sep mark cs with
  | case1 => cases h
  | case2 c => simp [isEscaped] at h
  | case3 _ _ rest _ _ =>
    have := length_hide_le sep mark rest
    simp only [List.length_cons]
    omega
  | case4 c d rest hc ih =>
    have hrest : isEscaped sep (d :: rest) = true := by
      rw [isEscaped] at h
      simpa [hc] using h
    have := ih hrest
    simp only [List.length_cons] at this ⊢
    omega

namespace Marked

/-- Marks make a text shorter. -/
def Shortens (cs : List Char) (m : Marked) : Prop :=
  (m.marks = [] ∧ m.text = cs) ∨ m.text.length < cs.length

theorem Shortens.hideAll {cs : List Char} {m : Marked} (h : Shortens cs m) (sep : Char) :
    Shortens cs (m.hideAll sep) := by
  unfold Marked.hideAll
  split
  · rename_i hsep
    have hlt := length_hide_lt (Char.ofNat (freeMark m.text (m.text.length + 1) m.next)) hsep
    refine Or.inr (Nat.lt_of_lt_of_le hlt ?_)
    rcases h with ⟨_, htext⟩ | hlength
    · rw [htext]
    · omega
  · exact h

theorem shortens_ofText (cs : List Char) : Shortens cs (ofText cs) :=
  have h : Shortens cs { text := cs } := Or.inl ⟨rfl, rfl⟩
  ((h.hideAll ',').hideAll ':').hideAll ' '

theorem hideAll_of_notMem {cs : List Char} {sep : Char} (h : sep ∉ cs) :
    hideAll { text := cs } sep = { text := cs } := by
  rw [hideAll, isEscaped_of_notMem h, if_neg Bool.false_ne_true]

theorem ofText_of_notMem {cs : List Char} (hcomma : ',' ∉ cs) (hcolon : ':' ∉ cs) (hblank : ' ' ∉ cs) :
    ofText cs = { text := cs } := by
  simp only [ofText, List.foldl_cons, List.foldl_nil]
  rw [hideAll_of_notMem hcomma, hideAll_of_notMem hcolon, hideAll_of_notMem hblank]

theorem length_restore (m : Marked) (name : List Char) : (m.restore name).length = name.length := by
  unfold restore
  generalize m.marks = marks
  induction marks generalizing name with
  | nil => rfl
  | cons p marks ih => rw [List.foldl_cons, ih, List.length_map]

end Marked

/-! ## Names -/

/-- Without a range that makes names, the names are words without colons. -/
theorem mem_of_expandAll? {ws ns : List (List Char)} (h : expandAll? ws = some (ns, false)) :
    ∀ n ∈ ns, n ∈ ws ∧ ':' ∉ n := by
  induction ws generalizing ns with
  | nil => cases h; simp
  | cons w ws ih =>
    rw [expandAll?] at h
    by_cases hw : ':' ∈ w
    · rw [if_pos hw] at h
      simp only [Option.bind_eq_bind, Option.bind_eq_some_iff] at h
      obtain ⟨ranged, _, ⟨rest, _⟩, hrest, heq⟩ := h
      simp only [Option.pure_def, Option.some.injEq, Prod.mk.injEq, Bool.or_eq_false_iff] at heq
      obtain ⟨rfl, rfl, hempty⟩ := heq
      have hnil : ranged = [] := by simpa using hempty
      rw [hnil, List.nil_append]
      exact fun n hn => ⟨List.mem_cons_of_mem w (ih hrest n hn).1, (ih hrest n hn).2⟩
    · rw [if_neg hw] at h
      simp only [Option.bind_eq_bind, Option.bind_eq_some_iff] at h
      obtain ⟨⟨rest, _⟩, hrest, heq⟩ := h
      simp only [Option.pure_def, Option.some.injEq, Prod.mk.injEq] at heq
      obtain ⟨rfl, rfl⟩ := heq
      refine List.forall_mem_cons.mpr ⟨⟨List.mem_cons_self, hw⟩, fun n hn => ?_⟩
      exact ⟨List.mem_cons_of_mem w (ih hrest n hn).1, (ih hrest n hn).2⟩

/-- Where no sequence is asked for, the names are words, with the separators that belong to them. -/
theorem mem_of_names? {cs : List Char} {ns : List (List Char)} (h : names? cs = some (ns, false)) :
    ∀ n ∈ ns, ∃ w, n = (Marked.ofText cs).restore w ∧ w ≠ [] ∧
      (∀ c ∈ w, c ≠ ',' ∧ c ≠ ':' ∧ isSpace c = false) ∧ w.length ≤ (Marked.ofText cs).text.length := by
  unfold names? at h
  dsimp only at h
  rw [Option.ite_none_left_eq_some] at h
  obtain ⟨⟨ws, ranged⟩, hexpand, heq⟩ := Option.map_eq_some_iff.mp h.2
  obtain ⟨rfl, hrange⟩ := Prod.mk.inj heq
  obtain ⟨hsequence, rfl⟩ := Bool.or_eq_false_iff.mp hrange
  intro n hn
  obtain ⟨w, hw, rfl⟩ := List.mem_map.mp hn
  obtain ⟨hmem, hcolon⟩ := mem_of_expandAll? hexpand w hw
  rw [if_neg (of_decide_eq_false hsequence)] at hmem
  obtain ⟨p, hp, hwp⟩ := List.mem_flatMap.mp hmem
  obtain ⟨q, hq, rfl⟩ := List.mem_map.mp hp
  obtain ⟨hcomma, hlength⟩ := mem_piecesFrom List.not_mem_nil hq
  obtain ⟨hne, hspace, hwords⟩ := mem_wordsFrom (by simp) hwp
  have hsub : w.Sublist q := hwords.trans (trim_sublist q)
  refine ⟨w, rfl, hne, fun c hc => ⟨?_, ?_, hspace c hc⟩, ?_⟩
  · rintro rfl
    exact hcomma (hsub.mem hc)
  · rintro rfl
    exact hcolon hc
  · have htrim := (trim_sublist (Marked.ofText cs).text).length_le
    have hle := hsub.length_le
    simp only [List.length_nil] at hlength
    omega

/-- A text is read as the one name that it is where it has no separators. -/
theorem names?_eq_self_iff (cs : List Char) :
    names? cs = some ([cs], false) ↔ cs ≠ [] ∧ ∀ c ∈ cs, c ≠ ',' ∧ c ≠ ':' ∧ isSpace c = false := by
  constructor
  · intro h
    obtain ⟨w, hw, hne, hplain, hlength⟩ := mem_of_names? h cs List.mem_cons_self
    rcases Marked.shortens_ofText cs with ⟨hmarks, _⟩ | hshort
    · have hrestore : (Marked.ofText cs).restore w = w := by rw [Marked.restore, hmarks]; rfl
      rw [hw, hrestore]
      exact ⟨hne, hplain⟩
    · have hsame := congrArg List.length hw
      rw [Marked.length_restore] at hsame
      omega
  · rintro ⟨hne, h⟩
    have hcomma : ',' ∉ cs := fun hc => (h _ hc).1 rfl
    have hcolon : ':' ∉ cs := fun hc => (h _ hc).2.1 rfl
    have hspace : ∀ c ∈ cs, isSpace c = false := fun c hc => (h c hc).2.2
    have hblank : ' ' ∉ cs := fun hc => absurd (hspace _ hc) (by decide)
    have hlast : cs.getLast? ≠ some ',' := fun hl => hcomma (List.mem_of_getLast? hl)
    have hpieces : pieces ',' cs = [cs] := by
      rw [pieces_eq, if_neg hcomma, List.takeWhile_eq_self_iff.mpr]
      intro c hc
      simpa using (h c hc).1
    have hwords : words cs = [cs] := words_of_unspaced hspace hne
    simp [names?, Marked.ofText_of_notMem hcomma hcolon hblank, trim_of_unspaced hspace, hlast, hpieces,
      hwords, hne, expandAll?, hcolon, Marked.restore]

end Text

namespace Plan

/-- The slot of a name is the column of this name exactly where the name is not empty and has no comma,
no colon and no blank. -/
theorem ofName_eq_self_iff (n : String) : Slot.ofName n = .ok (.column n) ↔
    n ≠ "" ∧ ∀ c ∈ n.toList, c ≠ ',' ∧ c ≠ ':' ∧ Text.isSpace c = false := by
  have hempty : n ≠ "" ↔ n.toList ≠ [] := by simp
  rw [hempty, ← Text.names?_eq_self_iff]
  unfold Slot.ofName Formula.symbolNames
  constructor
  · intro h
    cases hnames : Text.names? n.toList with
    | none => rw [hnames] at h; cases h
    | some p =>
      obtain ⟨ns, sequence⟩ := p
      rw [hnames] at h
      dsimp only at h
      split at h
      · rename_i m heq
        cases h
        obtain ⟨hmap, rfl⟩ := Prod.mk.inj (Except.ok.inj heq)
        obtain ⟨cs, rfl, hcs⟩ := List.map_eq_singleton_iff.mp hmap
        rw [← hcs, String.toList_ofList]
      · cases h
      · cases h
  · intro h
    rw [h]
    simp

end Plan

end FactorPlan
