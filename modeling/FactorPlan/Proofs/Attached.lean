import Mathlib.Algebra.Group.Nat.Even
import FactorPlan.Proofs.Numerals
import FactorPlan.Target.Polars

/-!
Methods in polars code. A method is called on what stands directly before its point: that has to
end in a parenthesis or in the name of a constant (`EndsInReceiver`), never in a number
(`EndsInReceiver.not_number`). A text in which that is so for every method outside quotes is
`Attached`. Texts without methods, numbers and columns are, texts that are joined stay so
(`Attached.append`), and a method may be called on a text that ends in a receiver
(`Attached.method`).
-/

namespace FactorPlan

namespace Target

/-- What the methods of columns begin with. -/
def methodMarks : List String := [".rolling_", ".diff(", ".shift(", ".log(", ".abs(", ".sign("]

/-- The letters that methods begin with. -/
def methodInitials : List Char := ['r', 'd', 's', 'l', 'a']

theorem cons_of_mark {mark : String} (h : mark ∈ methodMarks) :
    ∃ c rest, mark.toList = '.' :: c :: rest ∧ c ∈ methodInitials := by
  simp only [methodMarks, List.mem_cons, List.not_mem_nil, or_false] at h
  rcases h with rfl | rfl | rfl | rfl | rfl | rfl <;> exact ⟨_, _, rfl, by decide⟩

/-- The end of the text is outside quotes. -/
def Outside (cs : List Char) : Prop := Even (cs.count '\'')

instance (cs : List Char) : Decidable (Outside cs) := inferInstanceAs (Decidable (Even _))

theorem outside_of_notMem {cs : List Char} (h : '\'' ∉ cs) : Outside cs := by
  rw [Outside, List.count_eq_zero_of_not_mem h]
  exact Even.zero

theorem Outside.append_iff {cs ds : List Char} (h : Outside cs) : Outside (cs ++ ds) ↔ Outside ds := by
  unfold Outside at *
  rw [List.count_append, Nat.even_add]
  exact ⟨fun hiff => hiff.mp h, fun hds => iff_of_true h hds⟩

/-- The text ends as what a method can be called on ends: in a parenthesis or in the name of a
constant. -/
def EndsInReceiver (cs : List Char) : Prop := ∃ r ∈ [")", "pi", "I"], r.toList <:+ cs

theorem EndsInReceiver.append_left {ds : List Char} (h : EndsInReceiver ds) (cs : List Char) :
    EndsInReceiver (cs ++ ds) := by
  obtain ⟨r, hr, hsuffix⟩ := h
  exact ⟨r, hr, hsuffix.trans (List.suffix_append _ _)⟩

theorem endsInReceiver_parenthesis (cs : List Char) : EndsInReceiver (cs ++ [')']) :=
  ⟨")", by simp, List.suffix_append _ _⟩

/-- A sign in front of the text is no receiver. -/
theorem EndsInReceiver.of_minus {cs : List Char} (h : EndsInReceiver ('-' :: cs)) : EndsInReceiver cs := by
  obtain ⟨r, hr, hsuffix⟩ := h
  refine ⟨r, hr, ?_⟩
  rcases List.suffix_cons_iff.mp hsuffix with heq | hsuffix
  · have hhead : ∀ t ∈ [")", "pi", "I"], t.toList.head? ≠ some '-' := by decide
    exact absurd (by rw [heq]; rfl) (hhead r hr)
  · exact hsuffix

/-- No number ends where a receiver ends. -/
theorem EndsInReceiver.not_number {cs : List Char} (h : EndsInReceiver cs) (s : Scalar) (short : Bool) :
    ¬ (s.text short).toList <:+ cs := by
  obtain ⟨r, hr, ds, rfl⟩ := h
  rintro ⟨es, heq⟩
  -- the last character would be one of a number
  obtain ⟨c, hc, hlast⟩ : ∃ c, (c = ')' ∨ c = 'i' ∨ c = 'I') ∧ r.toList.getLast? = some c := by
    simp only [List.mem_cons, List.not_mem_nil, or_false] at hr
    rcases hr with rfl | rfl | rfl
    · exact ⟨')', by simp, rfl⟩
    · exact ⟨'i', by simp, rfl⟩
    · exact ⟨'I', by simp, rfl⟩
  have hnumber : c ∈ (s.text short).toList := by
    have hsame := congrArg List.getLast? heq
    rw [List.getLast?_append_of_ne_nil _ (s.text_ne_empty short),
      List.getLast?_append_of_ne_nil _ (by rintro hnil; simp [hnil] at hlast), hlast] at hsame
    exact List.mem_of_getLast? hsame
  rcases s.numeral_text short with hs | hs
  · have hno : ¬ IsNumeral c := by rcases hc with rfl | rfl | rfl <;> decide
    exact hno (hs c hnumber)
  · have hno : ∀ t ∈ ["oo", "-oo", "nan"], c ∉ t.toList := by rcases hc with rfl | rfl | rfl <;> decide
    exact hno _ hs hnumber

/-- Every method outside quotes is called on a receiver, and the text can be continued: it ends
outside quotes and not in a point. -/
structure Attached (cs : List Char) : Prop where
  outside : Outside cs
  getLast?_ne : cs.getLast? ≠ some '.'
  receiver : ∀ before c after, cs = before ++ '.' :: c :: after → Outside before → c ∈ methodInitials →
    EndsInReceiver before

namespace Attached
variable {cs ds : List Char}

/-- A text may be continued by one that is attached to it. -/
theorem append_of (h : Attached cs) (hout : Outside ds) (hlast : ds.getLast? ≠ some '.')
    (hds : ∀ before c after, ds = before ++ '.' :: c :: after → Outside before → c ∈ methodInitials →
      EndsInReceiver (cs ++ before)) : Attached (cs ++ ds) := by
  refine ⟨(h.outside.append_iff).mpr hout, ?_, ?_⟩
  · rw [List.getLast?_append]
    cases hl : ds.getLast? with
    | none => exact h.getLast?_ne
    | some c => rwa [hl] at hlast
  · intro before c after heq hbefore hc
    rcases List.append_eq_append_iff.mp heq with ⟨as, rfl, hsplit⟩ | ⟨as, rfl, hsplit⟩
    · exact hds as c after hsplit (h.outside.append_iff.mp hbefore) hc
    · -- the point lies in the first text, or begins the second one
      rcases as with _ | ⟨p, _ | ⟨d, as⟩⟩
      · have hnil := hds [] c after hsplit.symm (by decide) hc
        simpa using hnil
      · cases hsplit
        exact absurd (by simp) h.getLast?_ne
      · cases hsplit
        exact h.receiver before c as rfl hbefore hc

theorem append (h : Attached cs) (h' : Attached ds) : Attached (cs ++ ds) :=
  h.append_of h'.outside h'.getLast?_ne fun before c after heq hout hc =>
    (h'.receiver before c after heq hout hc).append_left cs

/-- A sign in front may be taken away. -/
theorem of_minus (h : Attached ('-' :: cs)) : Attached cs := by
  have hquote : Outside ['-'] := by decide
  refine ⟨hquote.append_iff.mp h.outside, ?_, ?_⟩
  · intro hlast
    refine h.getLast?_ne ?_
    rw [List.getLast?_cons, hlast]
    rfl
  · intro before c after heq hout hc
    refine (h.receiver ('-' :: before) c after (by rw [heq]; rfl) ?_ hc).of_minus
    exact hquote.append_iff.mpr hout

end Attached

/-! ## Texts without methods -/

/-- No point stands before a letter that methods begin with, or at the end. -/
def calm : List Char → Bool
  | [] => true
  | [c] => c != '.'
  | a :: b :: rest => (a != '.' || !methodInitials.contains b) && calm (b :: rest)

theorem notMem_initials_of_calm {before after : List Char} {c : Char}
    (h : calm (before ++ '.' :: c :: after) = true) : c ∉ methodInitials := by
  induction before with
  | nil => simpa [calm] using (Bool.and_eq_true_iff.mp h).1
  | cons a before ih =>
    cases before with
    | nil => exact ih (Bool.and_eq_true_iff.mp h).2
    | cons b before => exact ih (Bool.and_eq_true_iff.mp h).2

theorem getLast?_ne_of_calm {cs : List Char} (h : calm cs = true) : cs.getLast? ≠ some '.' := by
  fun_induction calm cs with
  | case1 => simp
  | case2 c => simpa using h
  | case3 a b rest ih =>
    rw [List.getLast?_cons_cons]
    exact ih (Bool.and_eq_true_iff.mp h).2

/-- Code without quotes and without methods. -/
def Code (t : String) : Prop := '\'' ∉ t.toList ∧ calm t.toList = true

instance (t : String) : Decidable (Code t) := inferInstanceAs (Decidable (_ ∧ _))

theorem Code.attached {t : String} (h : Code t) : Attached t.toList where
  outside := outside_of_notMem h.1
  getLast?_ne := getLast?_ne_of_calm h.2
  receiver before c after heq _ hc := by
    have hcalm := h.2
    rw [heq] at hcalm
    exact absurd hc (notMem_initials_of_calm hcalm)

/-- Numbers, as they are written within an expression, have no methods. -/
theorem attached_scalar (s : Scalar) : Attached (s.text true).toList := by
  refine ⟨outside_of_notMem (s.quote_notMem_text true), s.getLast?_text, fun before c after heq _ hc => ?_⟩
  exfalso
  rcases s.numeral_text true with h | h
  · have hno : ¬ IsNumeral c := by
      simp only [methodInitials, List.mem_cons, List.not_mem_nil, or_false] at hc
      rcases hc with rfl | rfl | rfl | rfl | rfl <;> decide
    exact hno (h c (by rw [heq]; simp))
  · have hno : ∀ t ∈ ["oo", "-oo", "nan"], '.' ∉ t.toList := by decide
    exact hno _ h (by rw [heq]; simp)

/-- What stands in quotes has no methods, whatever its text. -/
theorem attached_quoted {cs : List Char} (h : '\'' ∉ cs) : Attached ('\'' :: cs ++ ['\'']) := by
  have hcount : ('\'' :: cs).count '\'' = 1 := by rw [List.count_cons_self, List.count_eq_zero_of_not_mem h]
  refine ⟨?_, by rw [List.getLast?_concat]; decide, ?_⟩
  · rw [Outside, List.count_append, hcount]
    decide
  · intro before c after heq hout _
    exfalso
    have hsum := congrArg (List.count '\'') heq
    rw [List.count_append, hcount, List.count_append] at hsum
    -- the last quote comes after the point, and the first one is before it
    have hlast : '\'' ∈ '.' :: c :: after := by
      have hsame := congrArg List.getLast? heq
      rw [List.getLast?_concat, List.getLast?_append_of_ne_nil _ (by simp)] at hsame
      exact List.mem_of_getLast? hsame.symm
    have hfirst : '\'' ∈ before := by
      cases before with
      | nil => cases heq
      | cons a before =>
        obtain ⟨rfl, -⟩ := List.cons.inj heq
        exact List.mem_cons_self
    have hafter := List.count_pos_iff.mpr hlast
    have hbefore := List.count_pos_iff.mpr hfirst
    have hone : ['\''].count '\'' = 1 := rfl
    rw [Outside, show before.count '\'' = 1 by omega] at hout
    exact absurd hout (by decide)

theorem attached_column {n : String} (h : '\'' ∉ n.toList) : Attached (polars.symbol n).toList := by
  have htext : (polars.symbol n).toList = "pl.col(".toList ++ ('\'' :: n.toList ++ ['\'']) ++ ")".toList := by
    simp [polars]
  rw [htext]
  exact ((show Code "pl.col(" by decide).attached.append (attached_quoted h)).append
    (show Code ")" by decide).attached

/-! ## Methods -/

/-- The text calls a method, and has no other ones. -/
def callsMethod : List Char → Bool
  | '.' :: c :: rest => calm (c :: rest) && !(c :: rest).contains '\''
  | _ => false

/-- A method may be called on a text that ends in a receiver. -/
theorem Attached.method {cs ds : List Char} (h : Attached cs) (hreceiver : EndsInReceiver cs)
    (hds : callsMethod ds = true) : Attached (cs ++ ds) := by
  unfold callsMethod at hds
  split at hds
  · rename_i d rest
    obtain ⟨hcalm, hquote⟩ := Bool.and_eq_true_iff.mp hds
    have hcode : '\'' ∉ d :: rest := by simpa using hquote
    refine h.append_of (outside_of_notMem (by simpa using hcode)) ?_ ?_
    · rw [List.getLast?_cons_cons]
      exact getLast?_ne_of_calm hcalm
    · intro before c after heq _ hc
      cases before with
      | nil => simpa using hreceiver
      | cons a before =>
        obtain ⟨-, hrest⟩ := List.cons.inj heq
        rw [hrest] at hcalm
        exact absurd hc (notMem_initials_of_calm hcalm)
  · cases hds

end Target

end FactorPlan
