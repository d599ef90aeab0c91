import FactorPlan.Proofs.Separators
import FactorPlan.Proofs.Arithmetic
import FactorPlan.Proofs.Display
import FactorPlan.Proofs.Numerals
import FactorPlan.Target.Script

/-!
The columns that generated code reads. A style writes a column as its name in quotes with
marks around it, and there are no other quotes in its code, so that text is woven from code
and columns (`Woven`) and the columns that occur in it are those it is woven from
(`Woven.occurs_iff`). `Reads` says which columns an expression reads in a style: those of the
arguments that the style writes (`Style.argsRead`).
-/

namespace FactorPlan

namespace Target

/-! ## Text woven from code and columns -/

/-- A name without the characters that mark columns. -/
def PlainName (n : String) : Prop := '\'' ∉ n.toList ∧ '(' ∉ n.toList ∧ '[' ∉ n.toList

/-- What stands before the name of a column and its quote. -/
def Style.opening : Style → List Char
  | .polars => ['p', 'l', '.', 'c', 'o', 'l', '(']
  | .pandas => ['d', 'f', '[']

/-- What stands after the name of a column and its quote. -/
def Style.closing : Style → Char
  | .polars => ')'
  | .pandas => ']'

variable {style : Style}

theorem symbol_toList (style : Style) (n : String) : (style.dialect.symbol n).toList =
    style.opening ++ '\'' :: (n.toList ++ '\'' :: [style.closing]) := by
  cases style <;> simp [Style.dialect, polars, pandas, Style.opening, Style.closing]

theorem quote_not_mem_opening (style : Style) : '\'' ∉ style.opening := by cases style <;> decide

theorem PlainName.opening_not_mem {n : String} (h : PlainName n) (cs : List Char) :
    n.toList ≠ cs ++ style.opening := by
  intro heq
  cases style with
  | polars => exact h.2.1 (by rw [heq]; simp [Style.opening])
  | pandas => exact h.2.2 (by rw [heq]; simp [Style.opening])

/-- The text is made of code without quotes and of columns, which are listed in order. -/
inductive Woven (style : Style) : List Char → List String → Prop
  | code {cs : List Char} : '\'' ∉ cs → Woven style cs []
  | column {cs : List Char} {n : String} {t : List Char} {ns : List String} : '\'' ∉ cs → PlainName n →
      Woven style t ns → Woven style (cs ++ (style.dialect.symbol n).toList ++ t) (n :: ns)

namespace Woven

theorem code_append {cs t : List Char} {ns : List String} (hcs : '\'' ∉ cs) (h : Woven style t ns) :
    Woven style (cs ++ t) ns := by
  cases h with
  | code ht => exact .code (by simp [hcs, ht])
  | column hds hn ht =>
    rw [← List.append_assoc, ← List.append_assoc]
    exact .column (by simp [hcs, hds]) hn ht

theorem append {t u : List Char} {ns ms : List String} (ht : Woven style t ns) (hu : Woven style u ms) :
    Woven style (t ++ u) (ns ++ ms) := by
  induction ht with
  | code hcs => exact hu.code_append hcs
  | column hcs hn _ ih =>
    rw [List.append_assoc, List.cons_append]
    exact .column hcs hn ih

theorem of_cons {c : Char} {t : List Char} {ns : List String} (hc : style.opening.head? ≠ some c)
    (h : Woven style (c :: t) ns) : Woven style t ns := by
  generalize hu : c :: t = u at h
  cases h with
  | code ht =>
    subst hu
    exact .code fun h => ht (List.mem_cons_of_mem _ h)
  | column hcs hn ht =>
    rename_i cs n _ _
    cases cs with
    | nil =>
      -- a column begins with its mark
      exfalso
      rw [symbol_toList] at hu
      cases style <;> simp_all [Style.opening]
    | cons d cs =>
      obtain ⟨_, rfl⟩ := List.cons.inj hu
      exact .column (fun h => hcs (List.mem_cons_of_mem _ h)) hn ht

theorem occurs_of_mem {t : List Char} {ns : List String} (h : Woven style t ns) {n : String}
    (hn : n ∈ ns) : (style.dialect.symbol n).toList <:+: t := by
  induction h with
  | code _ => simp at hn
  | @column cs m t ns _ _ _ ih =>
    rcases List.mem_cons.mp hn with rfl | hn
    · exact ⟨cs, t, rfl⟩
    · exact (ih hn).trans (List.suffix_append _ _).isInfix

/-- Where the code before a column ends, its quotes tell it from the columns that the text is
woven from: the name begins after the first quote and ends at the second. -/
theorem mem_of_split {t : List Char} {ns : List String} (h : Woven style t ns) {n : String}
    (hn : PlainName n) {before after : List Char}
    (heq : t = before ++ (style.dialect.symbol n).toList ++ after) : n ∈ ns := by
  induction h generalizing before with
  | code ht =>
    rw [symbol_toList] at heq
    exact absurd (by simp [heq]) ht
  | @column cs m u ns hcs hm _ ih =>
    have hop := quote_not_mem_opening style
    have hpieces : (cs ++ style.opening) ++ '\'' :: (m.toList ++ '\'' :: style.closing :: u) =
        (before ++ style.opening) ++ '\'' :: (n.toList ++ '\'' :: style.closing :: after) := by
      simpa [symbol_toList] using heq
    by_cases hbefore : '\'' ∈ before
    · obtain ⟨b₁, b₂, rfl, hb₁⟩ := List.eq_append_cons_of_mem hbefore
      have hsplit : (cs ++ style.opening) ++ '\'' :: (m.toList ++ '\'' :: style.closing :: u) =
          b₁ ++ '\'' :: (b₂ ++ (style.opening ++ '\'' :: (n.toList ++ '\'' :: style.closing :: after))) := by
        simpa using hpieces
      obtain ⟨_, hrest⟩ := eq_of_first (by simp [hcs, hop]) hb₁ hsplit
      by_cases hb₂ : '\'' ∈ b₂
      · -- the first column lies before the other one
        obtain ⟨b₃, b₄, rfl, hb₃⟩ := List.eq_append_cons_of_mem hb₂
        rw [List.append_assoc, List.cons_append] at hrest
        obtain ⟨_, hrest⟩ := eq_of_first hm.1 hb₃ hrest
        cases b₄ with
        | nil => cases style <;> simp [Style.opening, Style.closing] at hrest
        | cons d b₅ =>
          refine List.mem_cons_of_mem _ (@ih b₅ ?_)
          simpa [symbol_toList] using (List.cons.inj hrest).2
      · -- the other one would begin within the name of the first
        rw [← List.append_assoc] at hrest
        exact absurd (eq_of_first hm.1 (by simp [hb₂, hop]) hrest).1 (hm.opening_not_mem b₂)
    · obtain ⟨_, hrest⟩ := eq_of_first (by simp [hcs, hop]) (by simp [hbefore, hop]) hpieces
      have hnames := (eq_of_first hm.1 hn.1 hrest).1
      exact List.mem_cons.mpr (Or.inl (String.toList_injective hnames.symm))

theorem occurs_iff {t : List Char} {ns : List String} (h : Woven style t ns) {n : String}
    (hn : PlainName n) : (style.dialect.symbol n).toList <:+: t ↔ n ∈ ns := by
  refine ⟨fun hin => ?_, h.occurs_of_mem⟩
  obtain ⟨before, after, heq⟩ := hin
  exact h.mem_of_split hn heq.symm

end Woven

/-- The text is woven, and has the columns with a property. -/
def Shows (style : Style) (t : String) (P : String → Prop) : Prop :=
  ∃ ns, Woven style t.toList ns ∧ ∀ n, n ∈ ns ↔ P n

/-- The text has no quotes. -/
def Unquoted (t : String) : Prop := '\'' ∉ t.toList

instance (t : String) : Decidable (Unquoted t) := inferInstanceAs (Decidable (¬ _))

namespace Shows

variable {t u : String} {P Q : String → Prop}

theorem congr (h : Shows style t P) (hPQ : ∀ n, P n ↔ Q n) : Shows style t Q := by
  obtain ⟨ns, hw, hns⟩ := h
  exact ⟨ns, hw, fun n => (hns n).trans (hPQ n)⟩

theorem code (h : Unquoted t) : Shows style t (fun _ => False) := ⟨[], .code h, by simp⟩

theorem symbol {n : String} (h : PlainName n) : Shows style (style.dialect.symbol n) (fun m => m = n) := by
  refine ⟨[n], ?_, by simp⟩
  have hw := @Woven.column style [] n [] [] (by simp) h (.code (by simp))
  simpa using hw

theorem append (ht : Shows style t P) (hu : Shows style u Q) :
    Shows style (t ++ u) (fun n => P n ∨ Q n) := by
  obtain ⟨ns, hns, hP⟩ := ht
  obtain ⟨ms, hms, hQ⟩ := hu
  refine ⟨ns ++ ms, ?_, fun n => ?_⟩
  · rw [String.toList_append]
    exact hns.append hms
  · rw [List.mem_append, hP, hQ]

theorem code_append (ht : Unquoted t) (hu : Shows style u Q) : Shows style (t ++ u) Q :=
  ((code ht).append hu).congr fun _ => by simp

theorem append_code (ht : Shows style t P) (hu : Unquoted u) : Shows style (t ++ u) P :=
  (ht.append (code hu)).congr fun _ => by simp

theorem occurs_iff (h : Shows style t P) {n : String} (hn : PlainName n) :
    (style.dialect.symbol n).toList <:+: t.toList ↔ P n := by
  obtain ⟨ns, hw, hns⟩ := h
  rw [hw.occurs_iff hn, hns]

end Shows

/-! ## Numbers -/

@[simp] theorem unquoted_append {t u : String} : Unquoted (t ++ u) ↔ Unquoted t ∧ Unquoted u := by
  simp [Unquoted]

theorem unquoted_ite {β : Type} {p : Prop} [Decidable p] {f : β → String} {x y : β} (hx : Unquoted (f x))
    (hy : Unquoted (f y)) : Unquoted (f (if p then x else y)) := by
  split
  · exact hx
  · exact hy

theorem unquoted_scalar (s : Scalar) (short : Bool) : Unquoted (s.text short) := s.quote_notMem_text short

/-! ## Columns of an expression -/

/-- The arguments at the listed positions. -/
def picks {α : Type} (positions : List Nat) (as : List α) : List α := positions.filterMap (as[·]?)

/-- The named functions with the positions of the arguments that their code reads, in either
style. -/
def vocabulary : List (String × List Nat) :=
  [("if_else", [0, 1, 2]), ("signed_power", [0, 1]), ("sign", [0]),
   ("ts_delay", [0, 1]), ("ts_delta", [0, 1]), ("ts_arg_max", [0, 1]), ("ts_arg_min", [0, 1]),
   ("ts_max", [0, 1]), ("ts_min", [0, 1]), ("ts_sum", [0, 1]), ("ts_mean", [0, 1]),
   ("ts_decay_linear", [0, 1]), ("ts_product", [0, 1]), ("ts_std_dev", [0, 1]),
   ("ts_corr", [0, 1, 2]), ("ts_covariance", [0, 1, 2]), ("ts_rank", [0, 1]),
   ("cs_rank", [0]), ("cs_scale", [0]), ("gp_neutralize", [1])]

/-- The position of the argument that a rank within groups reads. -/
def Style.rankPosition : Style → Nat
  | .polars => 1
  | .pandas => 0

/-- The positions of the arguments that the code of a named function reads. -/
def Style.positions (style : Style) (name : String) : List Nat :=
  if name = "gp_rank" then [style.rankPosition] else (vocabulary.lookup name).getD []

/-- The sides of a connective that its code reads. -/
def Style.sides : Style → List Expr → List Expr
  | .polars, as => as
  | .pandas, as => picks [0, 1] as

/-- The arguments of a call that its code reads. -/
def Style.argsRead (style : Style) : Func → List Expr → List Expr
  | .named n, as => picks (style.positions n) as
  | .and, as => style.sides as
  | .or, as => style.sides as
  | .xor, as => style.sides as
  | .max, as => picks [0, 1] as
  | .min, as => picks [0, 1] as
  | .rel .eq, as => picks [0, 1] as
  | .log, as => picks [0] as
  | .abs, as => picks [0] as
  | .not, as => picks [0] as
  | _, as => as

/-- The column is read in an expression. -/
inductive Reads (style : Style) (n : String) : Expr → Prop
  | symbol : Reads style n (.symbol n)
  | sum {ts : List Expr} {t : Expr} : t ∈ ts → Reads style n t → Reads style n (.sum ts)
  | product {fs : List Expr} {f : Expr} : f ∈ fs → Reads style n f → Reads style n (.product fs)
  | base {b x : Expr} : Reads style n b → Reads style n (.power b x)
  | exponent {b x : Expr} : Reads style n x → Reads style n (.power b x)
  | argument {f : Func} {as : List Expr} {a : Expr} : a ∈ style.argsRead f as → Reads style n a →
      Reads style n (.apply f as)

/-- One of the expressions reads the column. -/
def ReadsAny (style : Style) (es : List Expr) (n : String) : Prop := ∃ e ∈ es, Reads style n e

section Reads
variable {n : String}

@[simp] theorem reads_symbol {m : String} : Reads style n (.symbol m) ↔ n = m :=
  ⟨fun h => by cases h; rfl, fun h => h ▸ .symbol⟩

@[simp] theorem reads_scalar {s : Scalar} : ¬ Reads style n (.scalar s) := fun h => by cases h

@[simp] theorem reads_constant {c : Constant} : ¬ Reads style n (.constant c) := fun h => by cases h

@[simp] theorem reads_truth {b : Bool} : ¬ Reads style n (.truth b) := fun h => by cases h

@[simp] theorem reads_sum {ts : List Expr} : Reads style n (.sum ts) ↔ ReadsAny style ts n :=
  ⟨fun h => by cases h with | sum ht h => exact ⟨_, ht, h⟩, fun ⟨_, ht, h⟩ => .sum ht h⟩

@[simp] theorem reads_product {fs : List Expr} : Reads style n (.product fs) ↔ ReadsAny style fs n :=
  ⟨fun h => by cases h with | product hf h => exact ⟨_, hf, h⟩, fun ⟨_, hf, h⟩ => .product hf h⟩

@[simp] theorem reads_power {b x : Expr} : Reads style n (.power b x) ↔ Reads style n b ∨ Reads style n x :=
  ⟨fun h => by cases h with | base h => exact .inl h | exponent h => exact .inr h,
   fun h => h.elim .base .exponent⟩

@[simp] theorem reads_apply {f : Func} {as : List Expr} :
    Reads style n (.apply f as) ↔ ReadsAny style (style.argsRead f as) n :=
  ⟨fun h => by cases h with | argument ha h => exact ⟨_, ha, h⟩, fun ⟨_, ha, h⟩ => .argument ha h⟩

@[simp] theorem readsAny_nil : ¬ ReadsAny style [] n := by simp [ReadsAny]

@[simp] theorem readsAny_cons {e : Expr} {es : List Expr} :
    ReadsAny style (e :: es) n ↔ Reads style n e ∨ ReadsAny style es n := by simp [ReadsAny]

@[simp] theorem readsAny_append {es ds : List Expr} :
    ReadsAny style (es ++ ds) n ↔ ReadsAny style es n ∨ ReadsAny style ds n := by
  simp [ReadsAny, or_and_right, exists_or]

theorem readsAny_congr {es ds : List Expr} (h : ∀ e, e ∈ es ↔ e ∈ ds) :
    ReadsAny style es n ↔ ReadsAny style ds n := by simp [ReadsAny, h]

@[simp] theorem reads_rawProduct {fs : List Expr} :
    Reads style n (Expr.rawProduct fs) ↔ ReadsAny style fs n := by
  obtain _ | ⟨a, _ | ⟨b, fs⟩⟩ := fs <;> simp [Expr.rawProduct, Expr.one, Expr.ofInt]

theorem reads_rawSum {ts : List Expr} : Reads style n (Expr.rawSum ts) ↔ ReadsAny style ts n := by
  obtain _ | ⟨a, _ | ⟨b, ts⟩⟩ := ts <;> simp [Expr.rawSum, Expr.zero, Expr.ofInt]

theorem readsAny_terms (e : Expr) : ReadsAny style e.terms n ↔ Reads style n e := by
  cases e <;> simp [Expr.terms]

theorem readsAny_factors (e : Expr) : ReadsAny style e.factors n ↔ Reads style n e := by
  cases e <;> simp [Expr.factors]

theorem reads_negateTerm (e : Expr) : Reads style n (Expr.negateTerm e) ↔ Reads style n e := by
  unfold Expr.negateTerm
  split
  · simp
  · simp [Expr.undirected]
  · split <;> simp
  · simp [Expr.negOne, Expr.ofInt]
  · simp [Expr.negOne, Expr.ofInt]

theorem reads_splitCoeff (e : Expr) : Reads style n e.splitCoeff.2 ↔ Reads style n e := by
  unfold Expr.splitCoeff
  split
  · simp
  · split <;> simp [Expr.one, Expr.ofInt]
  · rfl

theorem reads_splitConstant (e : Expr) : Reads style n e.splitConstant.2 ↔ Reads style n e := by
  unfold Expr.splitConstant
  split
  · simp [reads_rawSum]
  · simp [Expr.zero, Expr.ofInt]
  · rfl

theorem readsAny_map {es : List Expr} {f : Expr → Expr}
    (h : ∀ e ∈ es, (Reads style n (f e) ↔ Reads style n e)) :
    ReadsAny style (es.map f) n ↔ ReadsAny style es n := by
  simp only [ReadsAny, List.mem_map, exists_exists_and_eq_and]
  exact exists_congr fun e => and_congr_right fun he => h e he

theorem reads_keepCoeff (c : Scalar) (e : Expr) : Reads style n (Expr.keepCoeff c e) ↔ Reads style n e := by
  unfold Expr.keepCoeff
  split
  · rename_i he
    simp [he, Expr.one, Expr.ofInt]
  split
  · rfl
  split
  · simp
  · rename_i ts _
    split
    · have hnegated : ReadsAny style
          (Expr.sortCanonical ((Expr.sum ts).splitConstant.2.terms.map Expr.negateTerm)) n ↔
          Reads style n (.sum ts) := by
        rw [readsAny_congr fun e => Expr.mem_sortCanonical, readsAny_map fun e _ => reads_negateTerm e,
          readsAny_terms, reads_splitConstant]
      dsimp only
      split <;> simp only [reads_sum, readsAny_cons, reads_scalar, false_or, hnegated]
    · simp
  · split
    · exact reads_negateTerm e
    · split
      · dsimp only
        split <;> simp
      · simp
      · simp

theorem reads_flipPower (e : Expr) : Reads style n e.flipPower ↔ Reads style n e := by
  unfold Expr.flipPower
  split
  · split <;> simp
  · split <;> simp
  · rfl

theorem readsAny_orderedTerms (e : Expr) : ReadsAny style e.orderedTerms n ↔ Reads style n e := by
  rw [readsAny_congr fun a => (Expr.orderedTerms_perm e).mem_iff, readsAny_terms]

theorem readsAny_orderedFactors (e : Expr) : ReadsAny style e.orderedFactors n ↔ Reads style n e := by
  rw [readsAny_congr fun a => (Expr.orderedFactors_perm e).mem_iff, ← readsAny_factors]
  unfold Expr.shownFactors
  split
  · rename_i hfs
    rw [hfs]
    split <;> simp [Expr.negOne, Expr.ofInt]
  · rfl

theorem readsAny_signedFactors (fs : List Expr) :
    ReadsAny style (Expr.signedFactors fs).2 n ↔ ReadsAny style fs n := by
  unfold Expr.signedFactors
  split
  · rw [readsAny_orderedFactors, reads_keepCoeff, reads_splitCoeff, reads_product]
  · rw [readsAny_orderedFactors, reads_product]

theorem readsAny_fraction (fs : List Expr) : ReadsAny style (fs.flatMap Expr.numerators) n ∨
    ReadsAny style (fs.flatMap Expr.denominators) n ↔ ReadsAny style fs n := by
  have hfactor : ∀ f, ReadsAny style f.numerators n ∨ ReadsAny style f.denominators n ↔ Reads style n f := by
    intro f
    by_cases hf : ∃ q, f = .scalar (.exact q)
    · obtain ⟨q, rfl⟩ := hf
      simp only [Expr.numerators, Expr.denominators]
      split <;> split <;> simp [Expr.ofInt]
    · have hne : ∀ q, f ≠ .scalar (.exact q) := fun q h => hf ⟨q, h⟩
      rw [Expr.numerators_of_ne hne, Expr.denominators_of_ne hne]
      split <;> simp [reads_flipPower]
  induction fs with
  | nil => simp
  | cons f fs ih =>
    simp only [List.flatMap_cons, readsAny_append, readsAny_cons, ← ih, ← hfactor f]
    tauto

end Reads

/-! ## Pieces -/

/-- Where the piece has a text, it shows the columns that its expression reads. -/
def Shown (style : Style) (p : Piece) : Prop :=
  ∀ t, p.text = .ok t → Shows style t (fun n => Reads style n p.expr)

theorem Shows.parenthesized {t : String} {P : String → Prop} (h : Shows style t P) :
    Shows style ("(" ++ t ++ ")") P :=
  (h.code_append (by decide)).append_code (by decide)

theorem Shown.within {p : Piece} (h : Shown style p) {level : Nat} {t : String}
    (ht : p.within level = .ok t) : Shows style t (fun n => Reads style n p.expr) := by
  obtain ⟨u, hu, ht⟩ := bind_eq_ok.mp ht
  cases ht
  split
  · exact (h u hu).parenthesized
  · exact h u hu

/-- Texts that show what expressions read, one for each. -/
abbrev ShowEach (style : Style) (ts : List String) (es : List Expr) : Prop :=
  List.Forall₂ (fun t e => Shows style t (fun n => Reads style n e)) ts es

theorem showEach_allTexts {ps : List Piece} (h : ∀ p ∈ ps, Shown style p) {ts : List String}
    (hts : allTexts ps = .ok ts) : ShowEach style ts (ps.map (·.expr)) := by
  induction ps generalizing ts with
  | nil => cases hts; exact .nil
  | cons p ps ih =>
    obtain ⟨t, ht, hts⟩ := bind_eq_ok.mp hts
    obtain ⟨us, hus, hts⟩ := bind_eq_ok.mp hts
    cases hts
    exact .cons (h p (by simp) t ht) (ih (fun q hq => h q (by simp [hq])) hus)

theorem showEach_allWithin {ps : List Piece} (h : ∀ p ∈ ps, Shown style p) {level : Nat}
    {ts : List String} (hts : allWithin level ps = .ok ts) : ShowEach style ts (ps.map (·.expr)) := by
  induction ps generalizing ts with
  | nil => cases hts; exact .nil
  | cons p ps ih =>
    obtain ⟨t, ht, hts⟩ := bind_eq_ok.mp hts
    obtain ⟨us, hus, hts⟩ := bind_eq_ok.mp hts
    cases hts
    exact .cons ((h p (by simp)).within ht) (ih (fun q hq => h q (by simp [hq])) hus)

theorem Shows.intercalate {sep : String} (hsep : Unquoted sep) {ts : List String} {es : List Expr}
    (h : ShowEach style ts es) : Shows style (sep.intercalate ts) (ReadsAny style es) := by
  induction h with
  | nil =>
    rw [String.intercalate_nil]
    exact (code (by decide)).congr fun n => by simp
  | @cons t e ts es ht hrest ih =>
    cases hrest with
    | nil => exact ht.congr fun n => by simp
    | cons _ _ =>
      rw [String.intercalate_cons_cons]
      exact ((ht.append_code hsep).append ih).congr fun n => by simp

end Target

end FactorPlan
