import Mathlib.Data.List.Basic
import Mathlib.Data.List.TakeWhile
import FactorPlan.Expr.SortKey

/-!
The texts of numbers. An exact number is written with digits, a sign and a bar, a binary number
with digits around a point and perhaps an exponent (`Binary.text_cases`). So the characters of a
number are known (`Scalar.numeral_text`), and within an expression, where zeros at the end are
dropped, no number ends in its point (`Scalar.getLast?_text`).
-/

namespace FactorPlan

/-- The characters of numbers. -/
def IsNumeral (c : Char) : Prop := c.isDigit = true ∨ c ∈ ['-', '/', '.', 'e', '+']

instance (c : Char) : Decidable (IsNumeral c) := inferInstanceAs (Decidable (_ ∨ _))

/-- The text is made of the characters of numbers. -/
def Numeral (t : String) : Prop := ∀ c ∈ t.toList, IsNumeral c

instance (t : String) : Decidable (Numeral t) := List.decidableBAll _ _

@[simp] theorem numeral_append {t u : String} : Numeral (t ++ u) ↔ Numeral t ∧ Numeral u := by
  simp [Numeral, or_imp, forall_and]

theorem numeral_ofList {cs : List Char} : Numeral (String.ofList cs) ↔ ∀ c ∈ cs, IsNumeral c := by
  simp [Numeral]

theorem isDigit_of_mem_toDigits {n : Nat} {c : Char} (h : c ∈ Nat.toDigits 10 n) : c.isDigit = true :=
  Nat.isDigit_of_mem_toDigits (by decide) (by decide) h

/-- A whole number is written with digits and perhaps a sign. -/
theorem mem_toString_int {n : Int} {c : Char} (h : c ∈ (toString n).toList) : c.isDigit = true ∨ c = '-' := by
  rw [Int.toString_eq_repr, Int.repr_eq_if] at h
  split at h
  · rw [Nat.repr_eq_ofList_toDigits, String.toList_ofList] at h
    exact Or.inl (isDigit_of_mem_toDigits h)
  · rw [String.toList_append, Nat.repr_eq_ofList_toDigits, List.mem_append] at h
    rcases h with h | h
    · exact Or.inr (by simpa using h)
    · rw [String.toList_ofList] at h
      exact Or.inl (isDigit_of_mem_toDigits h)

theorem toString_int_ne_empty (n : Int) : (toString n).toList ≠ [] := by
  rw [Int.toString_eq_repr, Int.repr_eq_if]
  split
  · rw [Nat.repr_eq_ofList_toDigits, String.toList_ofList]
    exact Nat.toDigits_ne_nil
  · rw [String.toList_append]
    exact List.append_ne_nil_of_left_ne_nil (by decide) _

theorem numeral_int (n : Int) : Numeral (toString n) := by
  intro c hc
  rcases mem_toString_int hc with h | rfl
  · exact Or.inl h
  · decide

theorem toString_nat (n : Nat) : toString n = toString (n : Int) := by
  rw [Int.toString_eq_repr, Int.repr_eq_if, if_pos (by omega)]
  rfl

/-! ## Binary numbers -/

namespace Binary

/-- What is left without the zeros at the end, perhaps with one of them. -/
theorem dropZeros_cases (t : String) : ∃ ds zeros, t.toList = ds ++ zeros ∧ (∀ c ∈ zeros, c = '0') ∧
    (dropZeros t = String.ofList (ds ++ ['0']) ∨ dropZeros t = String.ofList ds ∧ ds.getLast? ≠ some '.') := by
  refine ⟨(t.toList.reverse.dropWhile (· == '0')).reverse, (t.toList.reverse.takeWhile (· == '0')).reverse, ?_, ?_, ?_⟩
  · rw [← List.reverse_append, List.takeWhile_append_dropWhile, List.reverse_reverse]
  · intro c hc
    have hzero := List.mem_takeWhile_imp (List.mem_reverse.mp hc)
    exact beq_iff_eq.mp hzero
  · unfold dropZeros
    dsimp only
    split
    · exact Or.inl rfl
    · rename_i h
      exact Or.inr ⟨rfl, h⟩

/-- The digits of a number around its point. -/
def decimal (short : Bool) (ds : List Char) (n : Nat) : String :=
  let body := String.ofList (ds.take n) ++ "." ++ String.ofList (ds.drop n)
  if short then dropZeros body else body

theorem isDigit_leadingDigits (q : Rat) : ∀ c ∈ (leadingDigits q).1.toList, c.isDigit = true := by
  unfold leadingDigits
  dsimp only
  generalize (if 5 ≤ _ then _ else _ : Nat) = d
  split
  · exact List.all_eq_true.mp (show "100000000000000".toList.all Char.isDigit = true by decide)
  · intro c hc
    rw [String.toList_ofList] at hc
    exact isDigit_of_mem_toDigits hc

/-- A number is zero, or has a sign, digits around its point, and an exponent. -/
theorem text_cases (x : Binary) (short : Bool) : x.text short = "0.0" ∨ ∃ sign ds n exponent,
    x.text short = sign ++ decimal short ds n ++ exponent ∧ sign ∈ ["-", ""] ∧ (∀ c ∈ ds, c.isDigit = true) ∧
      (exponent = "" ∨ ∃ e ∈ ["e+", "e"], ∃ k : Int, exponent = e ++ toString k) := by
  unfold text
  split
  · exact Or.inl rfl
  have hdigits := isDigit_leadingDigits x.abs.toRat
  generalize leadingDigits x.abs.toRat = leading at hdigits ⊢
  obtain ⟨digits, k⟩ := leading
  have hsign : (if x.isNegative then "-" else "") ∈ ["-", ""] := by split <;> decide
  generalize (if x.isNegative then "-" else "") = sign at hsign ⊢
  dsimp only
  generalize hpad : (if -5 < k ∧ k < 15 then _ else _) = padded
  -- small numbers get zeros in front, which are digits too
  have hpadded : ∀ c ∈ padded.1.toList, c.isDigit = true := by
    subst hpad
    split
    · split
      · simp only [String.toList_append, String.toList_ofList, List.mem_append, List.mem_replicate]
        rintro c (⟨-, rfl⟩ | hc)
        · decide
        · exact hdigits c hc
      · exact hdigits
    · exact hdigits
  obtain ⟨ds, n, j⟩ := padded
  right
  by_cases hj : j = 0
  · refine ⟨sign, ds.toList, n, "", ?_, hsign, hpadded, Or.inl rfl⟩
    rw [String.append_empty]
    exact if_pos hj
  · by_cases hpos : 0 ≤ j
    · refine ⟨sign, ds.toList, n, "e+" ++ toString j, ?_, hsign, hpadded, Or.inr ⟨"e+", by simp, j, rfl⟩⟩
      rw [← String.append_assoc]
      exact (if_neg hj).trans (if_pos hpos)
    · refine ⟨sign, ds.toList, n, "e" ++ toString j, ?_, hsign, hpadded, Or.inr ⟨"e", by simp, j, rfl⟩⟩
      rw [← String.append_assoc]
      exact (if_neg hj).trans (if_neg hpos)

theorem numeral_decimal {ds : List Char} (h : ∀ c ∈ ds, c.isDigit = true) (short : Bool) (n : Nat) :
    Numeral (decimal short ds n) := by
  have hbody : Numeral (String.ofList (ds.take n) ++ "." ++ String.ofList (ds.drop n)) := by
    simp only [numeral_append, numeral_ofList]
    exact ⟨⟨fun c hc => Or.inl (h c (List.mem_of_mem_take hc)), by decide⟩,
      fun c hc => Or.inl (h c (List.mem_of_mem_drop hc))⟩
  unfold decimal
  dsimp only
  split
  · obtain ⟨ks, zeros, heq, -, hdrop⟩ := dropZeros_cases (String.ofList (ds.take n) ++ "." ++ String.ofList (ds.drop n))
    have hks : ∀ c ∈ ks, IsNumeral c := fun c hc => hbody c (by rw [heq]; exact List.mem_append_left _ hc)
    rcases hdrop with hdrop | ⟨hdrop, -⟩ <;> rw [hdrop, numeral_ofList]
    · simp only [List.mem_append, List.mem_singleton]
      rintro c (hc | rfl)
      · exact hks c hc
      · decide
    · exact hks
  · exact hbody

/-- The point stays, whatever zeros are dropped. -/
theorem point_mem_decimal (short : Bool) (ds : List Char) (n : Nat) : '.' ∈ (decimal short ds n).toList := by
  have hbody : '.' ∈ (String.ofList (ds.take n) ++ "." ++ String.ofList (ds.drop n)).toList := by simp
  unfold decimal
  dsimp only
  split
  · obtain ⟨ks, zeros, heq, hzeros, hdrop⟩ :=
      dropZeros_cases (String.ofList (ds.take n) ++ "." ++ String.ofList (ds.drop n))
    rw [heq] at hbody
    have hks : '.' ∈ ks := (List.mem_append.mp hbody).resolve_right fun h => absurd (hzeros _ h) (by decide)
    rcases hdrop with hdrop | ⟨hdrop, -⟩ <;> rw [hdrop] <;> simp [hks]
  · exact hbody

end Binary

/-! ## Scalars -/

namespace Scalar

theorem numeral_text (s : Scalar) (short : Bool) : Numeral (s.text short) ∨ s.text short ∈ ["oo", "-oo", "nan"] := by
  unfold text
  split
  · left
    split
    · exact numeral_int _
    · rw [numeral_append, numeral_append, toString_nat]
      exact ⟨⟨numeral_int _, by decide⟩, numeral_int _⟩
  · rename_i x
    left
    rcases x.text_cases short with h | ⟨sign, ds, n, exponent, h, hsign, hds, hexponent⟩ <;> rw [h]
    · decide
    · rw [numeral_append, numeral_append]
      refine ⟨⟨?_, Binary.numeral_decimal hds short n⟩, ?_⟩
      · rcases List.mem_pair.mp hsign with rfl | rfl <;> decide
      · rcases hexponent with rfl | ⟨e, he, k, rfl⟩
        · decide
        · rw [numeral_append]
          refine ⟨?_, numeral_int k⟩
          rcases List.mem_pair.mp he with rfl | rfl <;> decide
  · right
    split <;> decide
  · right
    decide

theorem quote_notMem_text (s : Scalar) (short : Bool) : '\'' ∉ (s.text short).toList := by
  rcases s.numeral_text short with h | h
  · exact fun hq => absurd (h _ hq) (by decide)
  · have hwords : ∀ t ∈ ["oo", "-oo", "nan"], '\'' ∉ t.toList := by decide
    exact hwords _ h

theorem text_ne_empty (s : Scalar) (short : Bool) : (s.text short).toList ≠ [] := by
  unfold text
  split
  · split
    · exact toString_int_ne_empty _
    · simp
  · rename_i x
    rcases x.text_cases short with h | ⟨sign, ds, n, exponent, h, -⟩ <;> rw [h]
    · decide
    · have hpoint := Binary.point_mem_decimal short ds n
      refine List.ne_nil_of_mem (a := '.') ?_
      simp [hpoint]
  · split <;> decide
  · decide

/-- Where zeros at the end are dropped, a number does not end in its point. -/
theorem getLast?_text (s : Scalar) : (s.text true).toList.getLast? ≠ some '.' := by
  -- what is joined ends where its last part ends, or where the part before it does
  have happend : ∀ {t u : String}, t.toList.getLast? ≠ some '.' → u.toList.getLast? ≠ some '.' →
      (t ++ u).toList.getLast? ≠ some '.' := by
    intro t u ht hu
    rw [String.toList_append, List.getLast?_append]
    cases hl : u.toList.getLast? with
    | none => exact ht
    | some c => rwa [hl] at hu
  have hint : ∀ k : Int, (toString k).toList.getLast? ≠ some '.' := fun k hk => by
    rcases mem_toString_int (List.mem_of_getLast? hk) with h | h <;> exact absurd h (by decide)
  have hdecimal : ∀ ds n, (Binary.decimal true ds n).toList.getLast? ≠ some '.' := by
    intro ds n
    obtain ⟨ks, zeros, -, -, hdrop⟩ := Binary.dropZeros_cases
      (String.ofList (ds.take n) ++ "." ++ String.ofList (ds.drop n))
    rcases hdrop with hdrop | ⟨hdrop, hlast⟩
    · simp [Binary.decimal, hdrop]
    · simpa [Binary.decimal, hdrop] using hlast
  unfold text
  split
  · split
    · exact hint _
    · rw [toString_nat]
      exact happend (happend (hint _) (by decide)) (hint _)
  · rename_i x
    rcases x.text_cases true with h | ⟨sign, ds, n, exponent, h, hsign, -, hexponent⟩ <;> rw [h]
    · decide
    · refine happend (happend ?_ (hdecimal ds n)) ?_
      · rcases List.mem_pair.mp hsign with rfl | rfl <;> decide
      · rcases hexponent with rfl | ⟨e, he, k, rfl⟩
        · decide
        · refine happend ?_ (hint k)
          rcases List.mem_pair.mp he with rfl | rfl <;> decide
  · split <;> decide
  · decide

end Scalar

end FactorPlan
