import Mathlib.Data.Rat.Lemmas
import FactorPlan.Proofs.Decoding
import FactorPlan.Proofs.Display
import FactorPlan.Proofs.Parsing
import FactorPlan.Target.Polars

/-!
Texts that spell expressions. A text spells an expression at a rank of the grammar if it is
the text of a phrase of that rank which denotes the expression (`Spells`). How tightly an
expression binds says at which ranks its text stands (`Written`), so that joined texts,
parenthesized where precedence asks for it, spell sums (`spells_joinTerms`), fractions
(`spells_fractionText`) and calls (`Spells.method`, `Spells.function`).
-/

namespace FactorPlan

open Formula

universe u

namespace Target

/-! ## Texts of phrases -/

/-- The characters spell a phrase of the rank that denotes the expression. -/
def Spells (r : Rank) (cs : List Char) (e : Expr) : Prop :=
  ∃ xs t, cs = spell xs ∧ Phrase r xs t ∧ Denotes.{u} t e

section Spells
variable {r : Rank} {cs ds : List Char} {a b : Expr}

theorem Spells.congr (h : Spells.{u} r cs a) (hab : Expr.Agrees.{u} a b) : Spells.{u} r cs b := by
  obtain ⟨xs, t, hxs, ht, ha⟩ := h
  exact ⟨xs, t, hxs, ht, ha.congr hab⟩

/-- Phrases of a rank that are phrases of another. -/
theorem Spells.lift {s : Rank} (h : Spells.{u} r cs a) (hrs : ∀ xs t, Phrase r xs t → Phrase s xs t) :
    Spells.{u} s cs a := by
  obtain ⟨xs, t, hxs, ht, ha⟩ := h
  exact ⟨xs, t, hxs, hrs xs t ht, ha⟩

theorem Spells.operand (h : Spells.{u} .primary cs a) : Spells.{u} .operand cs a := h.lift fun _ _ => .operand

theorem Spells.factor (h : Spells.{u} .operand cs a) : Spells.{u} .factor cs a := h.lift fun _ _ => .factor

theorem Spells.term (h : Spells.{u} .factor cs a) : Spells.{u} .term cs a := h.lift fun _ _ => .term

theorem Spells.sum (h : Spells.{u} .term cs a) : Spells.{u} .sum cs a := h.lift fun _ _ => .sum

theorem Spells.expression (h : Spells.{u} .sum cs a) : Spells.{u} .expression cs a := h.lift fun _ _ => .expression

theorem Spells.group (h : Spells.{u} .sum cs a) : Spells.{u} .primary ('(' :: (cs ++ [')'])) a := by
  obtain ⟨xs, t, rfl, ht, ha⟩ := h
  exact ⟨_, t, by simp [Lexeme.chars, Token.chars], .group (.expression ht), ha⟩

theorem Spells.over (ha : Spells.{u} .term cs a) (hb : Spells.{u} .factor ds b) :
    Spells.{u} .term (cs ++ '/' :: ds) (.product [a, .power b .negOne]) := by
  obtain ⟨xs, s, rfl, hs, ha⟩ := ha
  obtain ⟨ys, t, rfl, ht, hb⟩ := hb
  have hdiv : ("/", BinaryOp.div) ∈ [("*", BinaryOp.mul), ("/", .div)] := by decide
  exact ⟨_, _, by simp [Lexeme.chars, Token.chars], .times hdiv hs ht, ha.div hb⟩

theorem Spells.plus (ha : Spells.{u} .sum cs a) (hb : Spells.{u} .term ds b) :
    Spells.{u} .sum (cs ++ ' ' :: '+' :: ' ' :: ds) (.sum [a, b]) := by
  obtain ⟨xs, s, rfl, hs, ha⟩ := ha
  obtain ⟨ys, t, rfl, ht, hb⟩ := hb
  have hadd : ("+", BinaryOp.add) ∈ [("+", BinaryOp.add), ("-", .sub)] := by decide
  exact ⟨_, _, by simp [Lexeme.chars, Token.chars], .plus hadd hs ht, ha.add hb⟩

theorem Spells.less (ha : Spells.{u} .sum cs a) (hb : Spells.{u} .term ds b) :
    Spells.{u} .sum (cs ++ ' ' :: '-' :: ' ' :: ds) (.sum [a, changeSign b]) := by
  obtain ⟨xs, s, rfl, hs, ha⟩ := ha
  obtain ⟨ys, t, rfl, ht, hb⟩ := hb
  have hsub : ("-", BinaryOp.sub) ∈ [("+", BinaryOp.add), ("-", .sub)] := by decide
  exact ⟨_, _, by simp [Lexeme.chars, Token.chars], .plus hsub hs ht, ha.sub hb⟩

/-- What is put before a factor and multiplies it by `k` multiplies a whole term by `k`. -/
theorem exists_scaled (before : List Lexeme) (k : Expr) {ys : List Lexeme} {t : Tree}
    (hfactor : ∀ ys t, Phrase .factor ys t → ∃ t', Phrase .term (before ++ ys) t' ∧
      ∀ e, Denotes.{u} t e → Denotes.{u} t' (.product [k, e]))
    (h : Phrase .term ys t) : ∃ t', Phrase .term (before ++ ys) t' ∧
      ∀ e, Denotes.{u} t e → Denotes.{u} t' (.product [k, e]) := by
  generalize hr : Rank.term = r at h
  induction h with
  | term h _ => exact hfactor _ _ h
  | @times xs ys s t o op ho h h' ih ih' =>
    obtain ⟨s', hs', hdenotes⟩ := ih rfl
    refine ⟨.binary op s' t, by simpa using Phrase.times ho hs' h', fun e he => ?_⟩
    obtain ⟨a, b, d, ha, hb, hd, hde⟩ := he.operands
    simp only [List.mem_cons, Prod.mk.injEq, List.not_mem_nil, or_false] at ho
    rcases ho with ⟨_, rfl⟩ | ⟨_, rfl⟩ <;> cases hd
    · exact ((hdenotes a ha).mul hb).congr fun K _ V => by simp [← hde K V, mul_assoc]
    · exact ((hdenotes a ha).div hb).congr fun K _ V => by simp [← hde K V, mul_assoc]
  | _ => cases hr

theorem agrees_changeSign (e : Expr) : Expr.Agrees.{u} (changeSign e) (.product [.negOne, e]) := fun K _ V => by
  simp [value_changeSign]

theorem Spells.minus (h : Spells.{u} .term cs a) : Spells.{u} .term ('-' :: cs) (changeSign a) := by
  obtain ⟨xs, t, rfl, ht, ha⟩ := h
  obtain ⟨t', ht', hdenotes⟩ := exists_scaled [mark "-"] .negOne
    (fun ys t h => ⟨_, .term (.minus h), fun e he => he.minus.congr (agrees_changeSign e)⟩) ht
  exact ⟨_, t', by simp [Lexeme.chars, Token.chars], ht',
    (hdenotes a ha).congr fun K _ V => (agrees_changeSign a K V).symm⟩

theorem Spells.times (ha : Spells.{u} .term cs a) (hb : Spells.{u} .term ds b) :
    Spells.{u} .term (cs ++ '*' :: ds) (.product [a, b]) := by
  obtain ⟨xs, s, rfl, hs, ha⟩ := ha
  obtain ⟨ys, t, rfl, ht, hb⟩ := hb
  have hmul : ("*", BinaryOp.mul) ∈ [("*", BinaryOp.mul), ("/", .div)] := by decide
  obtain ⟨t', ht', hdenotes⟩ := exists_scaled (xs ++ [mark "*"]) a
    (fun ys t h => ⟨_, by simpa using Phrase.times hmul hs h, fun e he => ha.mul he⟩) ht
  exact ⟨_, t', by simp [Lexeme.chars, Token.chars], ht', hdenotes b hb⟩

/-- No operand begins with a minus. -/
theorem head_ne_minus {xs : List Lexeme} {t : Tree} (h : Phrase .operand xs t) : (spell xs).head? ≠ some '-' := by
  have hs := h.separated
  obtain ⟨x, ys, rfl, hx⟩ := h.opens
  have hspelled := hs.spelled x (by simp)
  obtain ⟨c, cs, hcs, hc⟩ := Lexeme.BeginsOperand.first hx hspelled
  rw [spell_cons, hcs, List.cons_append, List.head?_cons, Ne, Option.some.injEq]
  rintro rfl
  revert hc
  decide

theorem Spells.unsigned (h : Spells.{u} .operand cs a) : cs.head? ≠ some '-' := by
  obtain ⟨xs, t, rfl, ht, _⟩ := h
  exact head_ne_minus ht

/-- The characters spell an expression and do not begin with a minus. -/
def SpellsUnsigned (r : Rank) (cs : List Char) (e : Expr) : Prop := Spells.{u} r cs e ∧ cs.head? ≠ some '-'

/-! ## Numbers -/

theorem toList_toString_nat (n : Nat) : (toString n).toList = Nat.toDigits 10 n := by
  rw [Nat.toString_eq_ofList_toDigits, String.toList_ofList]

theorem toList_toString_int (n : Int) : (toString n).toList =
    if 0 ≤ n then Nat.toDigits 10 n.toNat else '-' :: Nat.toDigits 10 (-n).toNat := by
  rw [Int.toString_eq_repr, Int.repr_eq_if]
  split <;> simp [Nat.repr_eq_ofList_toDigits]

theorem spells_digits (n : Nat) : Spells.{u} .operand (Nat.toDigits 10 n) (.ofInt n) :=
  ⟨_, _, by simp [Lexeme.chars, Token.chars], .int n, denotes_int n⟩

theorem text_whole {q : Rat} (hden : q.den = 1) (short : Bool) :
    ((Scalar.exact q).text short).toList = (toString q.num).toList := by
  rw [Scalar.text, if_pos hden]

theorem text_ratio {q : Rat} (hden : q.den ≠ 1) (short : Bool) :
    ((Scalar.exact q).text short).toList = (toString q.num).toList ++ '/' :: Nat.toDigits 10 q.den := by
  rw [Scalar.text, if_neg hden, String.toList_append, String.toList_append, toList_toString_nat, List.append_assoc]
  rfl

theorem spells_whole {q : Rat} (hden : q.den = 1) (hq : 0 ≤ q) (short : Bool) :
    Spells.{u} .operand ((Scalar.exact q).text short).toList (.scalar (.exact q)) := by
  have hnum : 0 ≤ q.num := Rat.num_nonneg.mpr hq
  rw [text_whole hden, toList_toString_int, if_pos hnum]
  refine (spells_digits q.num.toNat).congr fun K _ V => ?_
  rw [Int.toNat_of_nonneg hnum, Expr.ofInt, (Rat.den_eq_one_iff q).mp hden]

/-- The text of a number that is not negative spells a term and begins with a digit. -/
theorem spells_exact {q : Rat} (hq : 0 ≤ q) (short : Bool) :
    SpellsUnsigned.{u} .term ((Scalar.exact q).text short).toList (.scalar (.exact q)) := by
  by_cases hden : q.den = 1
  · have h := spells_whole hden hq short
    exact ⟨h.factor.term, h.unsigned⟩
  · have hnum : 0 ≤ q.num := Rat.num_nonneg.mpr hq
    have hdigits := spells_digits.{u} q.num.toNat
    rw [SpellsUnsigned, text_ratio hden, toList_toString_int, if_pos hnum,
      List.head?_append_of_ne_nil _ Nat.toDigits_ne_nil]
    refine ⟨(hdigits.factor.term.over (spells_digits _).factor).congr fun K _ V => ?_, hdigits.unsigned⟩
    simp [Rat.cast_def, div_eq_mul_inv, Int.toNat_of_nonneg hnum]

theorem text_exact_neg {q : Rat} (hq : q < 0) (short : Bool) :
    ((Scalar.exact q).text short).toList = '-' :: ((Scalar.exact (-q)).text short).toList := by
  have hnum : ¬ 0 ≤ q.num := by rwa [Rat.num_nonneg, not_le]
  have hneg : 0 ≤ (-q).num := by rw [Rat.neg_num]; omega
  by_cases hden : q.den = 1
  · rw [text_whole hden, text_whole (show (-q).den = 1 from hden), toList_toString_int, toList_toString_int,
      if_neg hnum, if_pos hneg, Rat.neg_num]
  · rw [text_ratio hden, text_ratio (show (-q).den ≠ 1 from hden), toList_toString_int, toList_toString_int,
      if_neg hnum, if_pos hneg, Rat.neg_num, Rat.neg_den, List.cons_append]

/-! ## Terms with their sign -/

/-- The characters spell a term, after a minus where they begin with one. -/
def Signed (cs : List Char) (e : Expr) : Prop :=
  SpellsUnsigned.{u} .term cs e ∨ ∃ ds, cs = '-' :: ds ∧ Spells.{u} .term ds (changeSign e)

theorem agrees_changeSign_changeSign (e : Expr) : Expr.Agrees.{u} (changeSign (changeSign e)) e := fun K _ V => by
  simp [value_changeSign]

theorem Signed.sum (h : Signed.{u} cs a) : Spells.{u} .sum cs a := by
  rcases h with ⟨h, _⟩ | ⟨ds, rfl, h⟩
  · exact h.sum
  · exact (h.minus.congr (agrees_changeSign_changeSign a)).sum

theorem signed_exact (q : Rat) (short : Bool) :
    Signed.{u} ((Scalar.exact q).text short).toList (.scalar (.exact q)) := by
  by_cases hq : 0 ≤ q
  · exact .inl (spells_exact hq short)
  · have hneg : q < 0 := not_le.mp hq
    exact .inr ⟨_, text_exact_neg hneg short, (spells_exact (neg_nonneg.mpr hneg.le) short).1⟩

/-! ## Written expressions -/

/-- What the text of an expression spells, by how tightly the expression binds. -/
structure Written (e : Expr) (cs : List Char) : Prop where
  sum : Spells.{u} .sum cs e
  signed : e.isSum = false → Signed.{u} cs e
  term : Precedence.sum < Precedence.ofExpr e → SpellsUnsigned.{u} .term cs e
  factor : Precedence.product < Precedence.ofExpr e → (∀ b, e ≠ .power b .negOne) → SpellsUnsigned.{u} .factor cs e
  operand : Precedence.power < Precedence.ofExpr e → Spells.{u} .operand cs e
  primary : Precedence.call < Precedence.ofExpr e → e.isScalar = false → Spells.{u} .primary cs e

theorem Written.of_primary (h : Spells.{u} .primary cs a) : Written.{u} a cs where
  sum := h.operand.factor.term.sum
  signed _ := .inl ⟨h.operand.factor.term, h.operand.unsigned⟩
  term _ := ⟨h.operand.factor.term, h.operand.unsigned⟩
  factor _ _ := ⟨h.operand.factor, h.operand.unsigned⟩
  operand _ := h.operand
  primary _ _ := h

theorem Written.of_term (h : Signed.{u} cs a)
    (hterm : Precedence.sum < Precedence.ofExpr a → SpellsUnsigned.{u} .term cs a)
    (hprec : Precedence.ofExpr a ≤ Precedence.power)
    (hrec : Precedence.ofExpr a ≤ Precedence.product ∨ ∃ b, a = .power b .negOne) : Written.{u} a cs where
  sum := h.sum
  signed _ := h
  term := hterm
  factor hlt hne := by
    rcases hrec with hle | ⟨b, hb⟩
    · omega
    · exact absurd hb (hne b)
  operand hlt := by omega
  primary hlt _ := by
    have : Precedence.power < Precedence.call := by decide
    omega

theorem Written.of_factor (h : SpellsUnsigned.{u} .factor cs a) (hprec : Precedence.ofExpr a ≤ Precedence.power) :
    Written.{u} a cs where
  sum := h.1.term.sum
  signed _ := .inl ⟨h.1.term, h.2⟩
  term _ := ⟨h.1.term, h.2⟩
  factor _ _ := h
  operand hlt := by omega
  primary hlt _ := by
    have : Precedence.power < Precedence.call := by decide
    omega

theorem Written.of_sum {ts : List Expr} (h : Spells.{u} .sum cs (.sum ts)) : Written.{u} (.sum ts) cs where
  sum := h
  signed hsum := by cases hsum
  term hlt := absurd hlt (by simp [Precedence.ofExpr])
  factor hlt := absurd hlt (by simp [Precedence.ofExpr, Precedence.sum, Precedence.product])
  operand hlt := absurd hlt (by simp [Precedence.ofExpr, Precedence.sum, Precedence.power])
  primary hlt := absurd hlt (by simp [Precedence.ofExpr, Precedence.sum, Precedence.call])

theorem written_exact (q : Rat) (short : Bool) :
    Written.{u} (.scalar (.exact q)) ((Scalar.exact q).text short).toList := by
  have hnonneg : Precedence.sum < Precedence.ofExpr (.scalar (.exact q)) → 0 ≤ q := by
    intro hlt
    by_contra hq
    have hneg : (Scalar.exact q).isNegative = true := by simpa [Scalar.isNegative] using hq
    simp [Precedence.ofExpr, hneg] at hlt
  have hoperand : Precedence.product < Precedence.ofExpr (.scalar (.exact q)) →
      Spells.{u} .operand ((Scalar.exact q).text short).toList (.scalar (.exact q)) := by
    intro hlt
    have hq : 0 ≤ q := hnonneg (Nat.lt_trans (by decide) hlt)
    have hneg : (Scalar.exact q).isNegative = false := by simpa [Scalar.isNegative] using hq
    refine spells_whole ?_ hq short
    by_contra hden
    simp [Precedence.ofExpr, hneg, hden] at hlt
  exact
    { sum := (signed_exact q short).sum
      signed := fun _ => signed_exact q short
      term := fun hlt => spells_exact (hnonneg hlt) short
      factor := fun hlt _ => ⟨(hoperand hlt).factor, (hoperand hlt).unsigned⟩
      operand := fun hlt => hoperand (Nat.lt_trans (by decide) hlt)
      primary := fun _ h => by cases h }

/-! ## Pieces -/

/-- The piece has a text, and it is one of its expression. -/
def Readable (p : Piece) : Prop := ∃ s, p.text = .ok s ∧ Written.{u} p.expr s.toList

/-- The text of an expression within a level. -/
def enclosed (level : Nat) (e : Expr) (s : String) : String :=
  if Precedence.ofExpr e ≤ level then "(" ++ s ++ ")" else s

theorem within_eq {p : Piece} {s : String} (h : p.text = .ok s) (level : Nat) :
    p.within level = .ok (enclosed level p.expr s) := by
  rw [Piece.within, h]
  rfl

theorem toList_parenthesized (s : String) : ("(" ++ s ++ ")").toList = '(' :: (s.toList ++ [')']) := by simp

theorem Written.enclosed_operand {s : String} (h : Written.{u} a s.toList) :
    Spells.{u} .operand (enclosed Precedence.power a s).toList a := by
  unfold enclosed
  split
  · rw [toList_parenthesized]
    exact h.sum.group.operand
  · exact h.operand (by omega)

theorem Written.enclosed_primary {s : String} (h : Written.{u} a s.toList) (ha : a.isScalar = false) :
    Spells.{u} .primary (enclosed Precedence.call a s).toList a := by
  unfold enclosed
  split
  · rw [toList_parenthesized]
    exact h.sum.group
  · exact h.primary (by omega) ha

theorem Written.enclosed_sum {s : String} (h : Written.{u} a s.toList) (level : Nat) :
    Spells.{u} .sum (enclosed level a s).toList a := by
  unfold enclosed
  split
  · rw [toList_parenthesized]
    exact h.sum.group.operand.factor.term.sum
  · exact h.sum

theorem Written.enclosed_term {s : String} {level : Nat} (h : Written.{u} a s.toList)
    (hlevel : Precedence.sum ≤ level) : SpellsUnsigned.{u} .term (enclosed level a s).toList a := by
  unfold enclosed
  split
  · rw [toList_parenthesized]
    exact ⟨h.sum.group.operand.factor.term, h.sum.group.operand.unsigned⟩
  · exact h.term (by omega)

theorem Written.enclosed_factor {s : String} {level : Nat} (h : Written.{u} a s.toList)
    (hlevel : Precedence.ofExpr a ≤ level ∨ Precedence.product < Precedence.ofExpr a)
    (hrec : ∀ b, a ≠ .power b .negOne) : SpellsUnsigned.{u} .factor (enclosed level a s).toList a := by
  unfold enclosed
  split
  · rw [toList_parenthesized]
    exact ⟨h.sum.group.operand.factor, h.sum.group.operand.unsigned⟩
  · exact h.factor (by omega) hrec

/-! ## Sums -/

/-- A term with its sign in front spells the expression. -/
def SpellsSigned (st : String × String) (e : Expr) : Prop :=
  (st.1 = "+" ∧ Spells.{u} .term st.2.toList e) ∨ (st.1 = "-" ∧ Spells.{u} .term st.2.toList (changeSign e))

theorem signedTerm_spells {p : Piece} (h : Readable.{u} p) (hprec : Precedence.sum ≤ Precedence.ofExpr p.expr) :
    ∃ st, Expr.signedTerm p = .ok st ∧ SpellsSigned.{u} st p.expr := by
  obtain ⟨s, hs, hw⟩ := h
  have hlevel : ¬ Precedence.ofExpr p.expr < Precedence.sum := by omega
  by_cases hsum : p.expr.isSum = true
  · -- a sum within a sum stands in parentheses
    refine ⟨("+", "(" ++ s ++ ")"), by simp [Expr.signedTerm, hs, hsum], .inl ⟨rfl, ?_⟩⟩
    rw [toList_parenthesized]
    exact hw.sum.group.operand.factor.term
  · rw [Bool.not_eq_true] at hsum
    rcases hw.signed hsum with ⟨hterm, hunsigned⟩ | ⟨ds, hds, hterm⟩
    · have hstart : ¬ ['-'] <+: s.toList := by
        rintro ⟨u, hu⟩
        rw [← hu] at hunsigned
        exact hunsigned rfl
      exact ⟨("+", s), by simp [Expr.signedTerm, hs, hsum, hstart, hlevel], .inl ⟨rfl, hterm⟩⟩
    · refine ⟨("-", String.ofList ds), by simp [Expr.signedTerm, hs, hsum, hlevel, hds], .inr ⟨rfl, ?_⟩⟩
      rwa [String.toList_ofList]

theorem signedTerms_spell {ps : List Piece} (h : ∀ p ∈ ps, Readable.{u} p)
    (hprec : ∀ p ∈ ps, Precedence.sum ≤ Precedence.ofExpr p.expr) :
    ∃ sts, Expr.signedTerms ps = .ok sts ∧ List.Forall₂ SpellsSigned.{u} sts (ps.map (·.expr)) := by
  induction ps with
  | nil => exact ⟨[], rfl, .nil⟩
  | cons p ps ih =>
    obtain ⟨st, hst, hspells⟩ := signedTerm_spells (h p (by simp)) (hprec p (by simp))
    obtain ⟨sts, hsts, hrest⟩ := ih (fun q hq => h q (by simp [hq])) fun q hq => hprec q (by simp [hq])
    exact ⟨st :: sts, by rw [Expr.signedTerms, hst, hsts]; rfl, .cons hspells hrest⟩

/-- Terms are added to the sum before them from left to right. -/
theorem Spells.terms {sts : List (String × String)} {es : List Expr} (ha : Spells.{u} .sum cs a)
    (h : List.Forall₂ SpellsSigned.{u} sts es) :
    Spells.{u} .sum (cs ++ (String.join (sts.map fun p => " " ++ p.1 ++ " " ++ p.2)).toList) (.sum (a :: es)) := by
  induction h generalizing cs a with
  | nil => simpa using ha.congr fun K _ V => by simp
  | @cons st e sts es hst _ ih =>
    obtain ⟨sign, text⟩ := st
    have hsum : Spells.{u} .sum (cs ++ (" " ++ sign ++ " " ++ text).toList) (.sum [a, e]) := by
      rcases hst with ⟨rfl, hterm⟩ | ⟨rfl, hterm⟩
      · simpa using ha.plus hterm
      · simpa using (ha.less hterm).congr fun K _ V => by simp [value_changeSign]
    rw [List.map_cons, String.join_cons, String.toList_append, ← List.append_assoc]
    exact (ih hsum).congr fun K _ V => by simp [add_assoc]

theorem spells_joinTerms {sts : List (String × String)} {es : List Expr} (h : List.Forall₂ SpellsSigned.{u} sts es)
    (hes : es ≠ []) : Spells.{u} .sum (Expr.joinTerms sts).toList (.sum es) := by
  cases h with
  | nil => exact absurd rfl hes
  | @cons st e sts es hst hrest =>
    obtain ⟨sign, text⟩ := st
    have hfirst : Spells.{u} .sum ((if sign = "+" then "" else sign) ++ text).toList e := by
      rcases hst with ⟨rfl, hterm⟩ | ⟨rfl, hterm⟩
      · simpa using hterm.sum
      · simpa using (hterm.minus.congr (agrees_changeSign_changeSign e)).sum
    rw [Expr.joinTerms, String.toList_append]
    exact hfirst.terms hrest

/-! ## Fractions -/

/-- The texts spell the expressions, one by one. -/
def SpellEach (r : Rank) : List String → List Expr → Prop :=
  List.Forall₂ fun s e => SpellsUnsigned.{u} r s.toList e

theorem head?_append_unsigned (h : cs.head? ≠ some '-') (hne : cs ≠ []) : (cs ++ ds).head? ≠ some '-' := by
  rwa [List.head?_append_of_ne_nil _ hne]

theorem Spells.ne_nil (h : Spells.{u} r cs a) : cs ≠ [] := by
  obtain ⟨xs, t, rfl, ht, _⟩ := h
  have hs := ht.separated
  obtain ⟨x, ys, rfl, _⟩ := ht.opens
  rw [spell_cons]
  exact List.append_ne_nil_of_left_ne_nil (hs.spelled x (by simp)).chars_ne_nil _

theorem spells_intercalate {ns : List String} {es : List Expr} (h : SpellEach.{u} .term ns es)
    (hes : es ≠ []) : SpellsUnsigned.{u} .term ("*".intercalate ns).toList (.product es) := by
  induction h with
  | nil => exact absurd rfl hes
  | @cons n e ns es hn hrest ih =>
    cases hrest with
    | nil =>
      rw [String.intercalate_singleton]
      exact ⟨hn.1.congr fun K _ V => by simp, hn.2⟩
    | @cons m d ns es _ _ =>
      have htext : ("*".intercalate (n :: m :: ns)).toList = n.toList ++ '*' :: ("*".intercalate (m :: ns)).toList := by
        rw [String.intercalate_cons_cons]
        simp
      rw [SpellsUnsigned, htext]
      exact ⟨(hn.1.times (ih (by simp)).1).congr fun K _ V => by simp, head?_append_unsigned hn.2 hn.1.ne_nil⟩

theorem spells_fractionText {ns ds : List String} {num den : List Expr} (hns : SpellEach.{u} .term ns num)
    (hds : SpellEach.{u} .factor ds den) : SpellsUnsigned.{u} .term (Expr.fractionText ns ds).toList
      (.product [.product num, .power (.product den) .negOne]) := by
  have hnum : SpellsUnsigned.{u} .term ("*".intercalate (if ns.isEmpty then ["1"] else ns)).toList (.product num) := by
    cases hns with
    | nil =>
      have hone := spells_digits.{u} 1
      exact ⟨hone.factor.term.congr fun K _ V => by simp, hone.unsigned⟩
    | cons h hs => exact spells_intercalate (.cons h hs) (by simp)
  unfold Expr.fractionText
  dsimp only
  split
  · cases hds
    exact ⟨hnum.1.congr fun K _ V => by simp, hnum.2⟩
  · rename_i d
    cases hds with
    | cons hd hds =>
      cases hds
      have htext : ∀ n : String, (n ++ "/" ++ d).toList = n.toList ++ '/' :: d.toList := by simp
      rw [SpellsUnsigned, htext]
      exact ⟨(hnum.1.over hd.1).congr fun K _ V => by simp, head?_append_unsigned hnum.2 hnum.1.ne_nil⟩
  · rename_i hnil hone
    have hden : SpellsUnsigned.{u} .term ("*".intercalate ds).toList (.product den) :=
      spells_intercalate (hds.imp fun s e h => ⟨h.1.term, h.2⟩) (by rintro rfl; cases hds; exact hnil rfl)
    have htext : ∀ n d : String, (n ++ "/(" ++ d ++ ")").toList = n.toList ++ '/' :: '(' :: (d.toList ++ [')']) := by
      simp
    rw [SpellsUnsigned, htext]
    exact ⟨hnum.1.over hden.1.sum.group.operand.factor, head?_append_unsigned hnum.2 hnum.1.ne_nil⟩

/-! ## Powers -/

/-- The text of a whole exponent, of which the sign stands in parentheses. -/
def exponentText (n : Int) : List Char :=
  if n < 0 then '(' :: '-' :: (Nat.toDigits 10 n.natAbs ++ [')']) else Nat.toDigits 10 n.natAbs

/-- The exponent is read as the number that it is, not only as one of its value. -/
theorem exists_exponent (n : Int) :
    ∃ ys t, exponentText n = spell ys ∧ Phrase .factor ys t ∧ readCode t = some (.ofInt n) := by
  have hdigits : Phrase .factor [.token (.int n.natAbs)] (.int n.natAbs) := .factor (.int _)
  have hint : readCode (.int n.natAbs) = some (.ofInt n.natAbs) := by rw [readCode]
  unfold exponentText
  split
  · rename_i hn
    refine ⟨_, _, ?_, .factor (.operand (.group (.expression (.sum (.term (.minus hdigits)))))), ?_⟩
    · simp [Lexeme.chars, Token.chars]
    · have hneg : -((n.natAbs : Int) : Rat) = (n : Rat) := by
        rw [← Int.cast_neg, Int.ofNat_natAbs_of_nonpos (by omega), Int.neg_neg]
      rw [readCode, hint]
      exact congrArg (fun q => some (Expr.scalar (.exact q))) hneg
  · rename_i hn
    refine ⟨_, _, ?_, hdigits, ?_⟩
    · simp [Lexeme.chars, Token.chars]
    · rw [hint, Int.natAbs_of_nonneg (by omega)]

theorem Spells.power (h : Spells.{u} .operand cs a) (n : Int) :
    Spells.{u} .factor (cs ++ '*' :: '*' :: exponentText n) (.power a (.ofInt n)) := by
  obtain ⟨xs, s, rfl, hs, ha⟩ := h
  obtain ⟨ys, t, hys, ht, hn⟩ := exists_exponent n
  exact ⟨_, _, by simp [hys, Lexeme.chars, Token.chars], .power hs ht, ha.pow hn⟩

/-! ## Calls -/

/-- Texts with commas between them. -/
def commaText (css : List (List Char)) : List Char := [',', ' '].intercalate css

theorem spell_commas (xss : List (List Lexeme)) : spell (commas xss) = commaText (xss.map spell) := by
  induction xss with
  | nil => rfl
  | cons xs xss ih =>
    cases xss with
    | nil => simp [commas, commaText, List.intercalate]
    | cons ys xss =>
      rw [commas, spell_append, spell_cons, spell_cons, ih]
      simp [commaText, List.intercalate, Lexeme.chars, Token.chars]

/-- The texts are arguments that have the values of the expressions; `inPlace` is the function among them. -/
def SpellsArgs (css : List (List Char)) (inPlace : String) (es : List Expr) : Prop :=
  ∃ args : List (List Lexeme × Tree), css = args.map (fun a => spell a.1) ∧
    inPlace = String.join ((args.map (·.2)).filterMap inPlace?) ∧ (∀ a ∈ args, Phrase .expression a.1 a.2) ∧
    AgreeEach.{u} (readArgs (args.map (·.2))) es

theorem SpellsArgs.nil : SpellsArgs.{u} [] "" [] := ⟨[], rfl, rfl, by simp, agreeEach_nil⟩

theorem SpellsArgs.cons {css : List (List Char)} {f : String} {es : List Expr} (hx : Spells.{u} .sum cs a)
    (h : SpellsArgs.{u} css f es) : SpellsArgs.{u} (cs :: css) f (a :: es) := by
  obtain ⟨xs, t, rfl, ht, d, hd, hda⟩ := hx
  obtain ⟨args, rfl, rfl, hphrases, ds, hds, hdes⟩ := h
  have hplain := Denotes.inPlace?_eq ⟨d, hd, hda⟩
  refine ⟨(xs, t) :: args, rfl, by simp [hplain], ?_, d :: ds, by simp [readArgs, hplain, hd, hds], .cons hda hdes⟩
  simpa using ⟨.expression ht, fun xs t hmem => hphrases (xs, t) hmem⟩

/-- A call without keywords. -/
theorem phrase_call {xs : List Lexeme} {t : Tree} (h : Phrase .primary xs t) {args : List (List Lexeme × Tree)}
    (hargs : ∀ a ∈ args, Phrase .expression a.1 a.2) :
    Phrase .expression (xs ++ mark "(" :: (commas (args.map (·.1)) ++ [mark ")"])) (.call t (args.map (·.2)) [] []) := by
  have hcall := @Phrase.call xs t args [] h hargs (by simp) (by simp) (by simp)
  rw [List.map_nil, List.append_nil] at hcall
  exact .expression (.sum (.term (.factor (.operand hcall))))

theorem phrases_singleton {xs : List Lexeme} {t : Tree} (h : Phrase .expression xs t) :
    ∀ a ∈ [(xs, t)], Phrase .expression a.1 a.2 := List.forall_mem_singleton.mpr h

/-- The product of a window, as it is written in place. -/
theorem spellsArgs_product : SpellsArgs.{u} ["lambda x: np.product(x.to_numpy())".toList] " product" [] := by
  have hmethod : Phrase .primary [word "x", mark ".", word "to_numpy"] (.attribute (.name "x") "to_numpy") :=
    .member (.name (by decide)) (by decide)
  have hproduct : Phrase .primary [word "np", mark ".", word "product"] (.attribute (.name "np") "product") :=
    .member (.name (by decide)) (by decide)
  have hcall := phrase_call hproduct (phrases_singleton (phrase_call hmethod (List.forall_mem_nil _)))
  have hlambda := Phrase.lambda (n := "x") (by decide) hcall
  exact ⟨[(_, _)], rfl, rfl, phrases_singleton hlambda, [], rfl, .nil⟩

/-- The texts are keyword arguments with the words, and have the values of the expressions. -/
def SpellsKeys (css : List (List Char)) (words : List String) (es : List Expr) : Prop :=
  ∃ keys : List (String × List Lexeme × Tree), css = keys.map (fun k => spell (keyItem k)) ∧ words = keys.map (·.1) ∧
    (∀ k ∈ keys, IsWord k.1) ∧ (∀ k ∈ keys, Phrase .expression k.2.1 k.2.2) ∧ words.Nodup ∧
    AgreeEach.{u} (readKeys (words.map some) (keys.map (·.2.2))) es

theorem SpellsKeys.nil : SpellsKeys.{u} [] [] [] := ⟨[], rfl, rfl, by simp, by simp, by simp, agreeEach_nil⟩

/-- Deviations of the whole population. -/
theorem SpellsKeys.ddof : SpellsKeys.{u} ["ddof=0".toList] ["ddof"] [] := by
  have hzero : Phrase .expression [.token (.int 0)] (.int 0) := .expression (.sum (.term (.factor (.int 0))))
  exact ⟨[("ddof", _, _)], rfl, rfl, List.forall_mem_singleton.mpr (by decide), List.forall_mem_singleton.mpr hzero,
    by simp, [], rfl, .nil⟩

theorem SpellsKeys.cons {css : List (List Char)} {words : List String} {es : List Expr} {w : String} (hw : IsWord w)
    (hddof : w ≠ "ddof") (hnew : w ∉ words) (hx : Spells.{u} .sum cs a) (h : SpellsKeys.{u} css words es) :
    SpellsKeys.{u} ((w.toList ++ '=' :: cs) :: css) (w :: words) (a :: es) := by
  obtain ⟨xs, t, rfl, ht, d, hd, hda⟩ := hx
  obtain ⟨keys, rfl, rfl, hwords, hphrases, hnodup, ds, hds, hdes⟩ := h
  refine ⟨(w, xs, t) :: keys, by simp [keyItem, Lexeme.chars, Token.chars], rfl, List.forall_mem_cons.mpr ⟨hw, hwords⟩,
    List.forall_mem_cons.mpr ⟨.expression ht, hphrases⟩, List.nodup_cons.mpr ⟨hnew, hnodup⟩, d :: ds, ?_, .cons hda hdes⟩
  rw [List.map_cons, List.map_cons, readKeys, if_neg hddof, hd, hds]
  rfl

section Calls
variable {css dss : List (List Char)} {words : List String} {inPlace : String} {g : Func} {ys zs : List Expr}

/-- A call of a function spells the operator that the function computes. -/
theorem spells_call {fs : List Lexeme} {f : Tree} {xs : List Expr} (hf : Phrase .primary fs f)
    (hcolumn : ∀ args, columnName? f args = none) (hreceiver : AgreeEach.{u} (readReceiver f) xs)
    (hargs : SpellsArgs.{u} css inPlace ys) (hkeys : SpellsKeys.{u} dss words zs)
    (hg : signatures.lookup (calleeName f ++ inPlace, words) = some g) :
    Spells.{u} .primary (spell fs ++ '(' :: (commaText (css ++ dss) ++ [')'])) (.apply g (xs ++ ys ++ zs)) := by
  obtain ⟨args, rfl, rfl, hphrases, hvalues⟩ := hargs
  obtain ⟨keys, rfl, rfl, hwords, hkeyPhrases, hnodup, hkeyValues⟩ := hkeys
  refine ⟨_, _, ?_, .call hf hphrases hwords hkeyPhrases hnodup,
    .call (hcolumn _) hg hreceiver hvalues hkeyValues⟩
  simp [spell_commas, Lexeme.chars, Token.chars, Function.comp_def]

theorem Spells.method {m : String} (hm : IsWord m) (hx : Spells.{u} .primary cs a)
    (hargs : SpellsArgs.{u} css inPlace ys) (hkeys : SpellsKeys.{u} dss words zs)
    (hg : signatures.lookup ("." ++ m ++ inPlace, words) = some g) :
    Spells.{u} .primary (cs ++ '.' :: (m.toList ++ '(' :: (commaText (css ++ dss) ++ [')'])))
      (.apply g (a :: (ys ++ zs))) := by
  obtain ⟨xs, t, rfl, ht, ha⟩ := hx
  rw [← calleeName_method ha] at hg
  simpa [Lexeme.chars, Token.chars] using
    spells_call (ht.member hm) (columnName?_method ha m) (agreeEach_receiver ha m) hargs hkeys hg

theorem spells_function {f : String} (hf : IsWord f) (hargs : SpellsArgs.{u} css inPlace ys)
    (hkeys : SpellsKeys.{u} dss words zs) (hg : signatures.lookup (f ++ inPlace, words) = some g) :
    Spells.{u} .primary (f.toList ++ '(' :: (commaText (css ++ dss) ++ [')'])) (.apply g (ys ++ zs)) := by
  have hreceiver : AgreeEach.{u} (readReceiver (.name f)) [] := by
    rw [readReceiver]
    · exact agreeEach_nil
    all_goals simp
  simpa [Lexeme.chars, Token.chars] using spells_call (.name hf) (fun args => rfl) hreceiver hargs hkeys hg

theorem spells_libraryFunction {l f : String} (hl : IsWord l) (hf : IsWord f) (hcolumn : (l, f) ≠ ("pl", "col"))
    (hargs : SpellsArgs.{u} css inPlace ys) (hkeys : SpellsKeys.{u} dss words zs)
    (hg : signatures.lookup (l ++ "." ++ f ++ inPlace, words) = some g) :
    Spells.{u} .primary (l.toList ++ '.' :: (f.toList ++ '(' :: (commaText (css ++ dss) ++ [')'])))
      (.apply g (ys ++ zs)) := by
  have hreceiver : AgreeEach.{u} (readReceiver (.attribute (.name l) f)) [] := by
    rw [readReceiver]
    exact agreeEach_nil
  have hnone : ∀ args, columnName? (.attribute (.name l) f) args = none := fun args => by
    unfold columnName?
    split
    · rename_i heq
      cases heq
      exact absurd rfl hcolumn
    · rfl
  simpa [Lexeme.chars, Token.chars] using
    spells_call ((Phrase.name hl).member hf) hnone hreceiver hargs hkeys hg

end Calls

end Spells

end Target

end FactorPlan
