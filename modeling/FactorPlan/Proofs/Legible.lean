import FactorPlan.Proofs.Spelled

/-!
Legible expressions: columns, exact numbers, sums, evaluated products, whole powers and the
operators of `operatorTable`. The calls of these operators are written in a few forms, and in
each form the call spells its operator (`callSpells_operator`).
-/

namespace FactorPlan

open Formula

universe u

namespace Target

/-! ## Legible expressions -/

/-- The operators, the number of their arguments and whether they are methods of the first one. -/
def operatorTable : List (Func × Nat × Bool) :=
  [(.named "ts_mean", 2, true), (.named "ts_std_dev", 2, true), (.named "ts_max", 2, true), (.named "ts_min", 2, true),
   (.named "ts_sum", 2, true), (.named "ts_delta", 2, true), (.named "ts_delay", 2, true),
   (.named "ts_product", 2, true), (.named "ts_corr", 3, false), (.named "ts_covariance", 3, false),
   (.named "ts_rank", 2, false), (.named "ts_arg_max", 2, false), (.named "ts_arg_min", 2, false),
   (.named "ts_decay_linear", 2, false), (.named "cs_rank", 1, false), (.named "cs_scale", 1, false),
   (.named "signed_power", 2, false), (.named "sign", 1, false), (.log, 1, false), (.abs, 1, false)]

/-- The factors of an evaluated product: a number stands in front only and is not 1, powers of numbers are numbers,
and a number in front of a product is put together with the number there. -/
structure Evaluated (fs : List Expr) : Prop where
  head_ne : fs.head? ≠ some .one
  tail : ∀ f ∈ fs.tail, f.isScalar = false
  base : ∀ b x, .power b x ∈ fs → b.isScalar = false
  coeff : ∀ c s gs, fs ≠ [.scalar c, .product (.scalar s :: gs)]

/-- Expressions whose code can be read back. -/
inductive Legible : Expr → Prop
  | symbol {n : String} : Quotable n → Legible (.symbol n)
  | number (q : Rat) : Legible (.scalar (.exact q))
  | sum {ts : List Expr} : ts ≠ [] → (∀ t ∈ ts, Legible t) → Legible (.sum ts)
  | product {fs : List Expr} : Evaluated fs → (∀ f ∈ fs, Legible f) → Legible (.product fs)
  | power {b : Expr} (n : Int) : Legible b → Legible (.power b (.ofInt n))
  /-- A method does not belong to a number. -/
  | call {f : Func} {as : List Expr} {method : Bool} : (f, as.length, method) ∈ operatorTable →
      (method = true → ∀ a ∈ as.head?, a.isScalar = false) → (∀ a ∈ as, Legible a) → Legible (.apply f as)

theorem Legible.exact {s : Scalar} (h : Legible (.scalar s)) : ∃ q, s = .exact q := by
  cases h with
  | number q => exact ⟨q, rfl⟩

theorem ofInt_inj {m n : Int} : Expr.ofInt m = .ofInt n ↔ m = n := by
  rw [Expr.ofInt, Expr.ofInt, Expr.scalar.injEq, Scalar.exact.injEq, Rat.intCast_inj]

theorem ofExpr_ofInt (n : Int) :
    Precedence.ofExpr (.ofInt n) = if n < 0 then Precedence.sum else Precedence.atom := by
  simp [Expr.ofInt, Precedence.ofExpr, Scalar.isNegative]

theorem Legible.commutes {e : Expr} (h : Legible e) : e.commutes = true := by
  have hall : ∀ es : List Expr, (∀ e ∈ es, e.commutes = true) → Expr.commutesAll es = true := by
    intro es hes
    induction es with
    | nil => rfl
    | cons e es ih => simp [Expr.commutesAll, hes e, ih fun d hd => hes d (by simp [hd])]
  induction h with
  | symbol _ => rfl
  | number q => rfl
  | sum _ _ ih => exact hall _ ih
  | product _ _ ih => exact hall _ ih
  | power n _ ih => simp [Expr.commutes, ih, Expr.ofInt]
  | @call f as method hf _ _ ih =>
    have hargs := hall _ ih
    have hfunc : (∃ n, f = .named n) ∨ f = .log ∨ f = .abs := by
      simp only [operatorTable, List.mem_cons, Prod.mk.injEq, List.not_mem_nil, or_false] at hf
      grind
    rcases hfunc with ⟨n, rfl⟩ | rfl | rfl <;> exact hargs

theorem ofExpr_operator {f : Func} {as : List Expr} {n : Nat} {method : Bool} (h : (f, n, method) ∈ operatorTable) :
    Precedence.ofExpr (.apply f as) = Precedence.call := by
  have hall : ∀ o ∈ operatorTable, Precedence.ofExpr (.apply o.1 []) = Precedence.call := by decide
  exact hall _ h

theorem ofExpr_product (fs : List Expr) : Precedence.ofExpr (.product fs) =
    if (Expr.product fs).splitCoeff.1.isNegative then Precedence.sum else Precedence.product := by
  rcases fs with _ | ⟨f, fs⟩
  · rfl
  · cases f <;> rfl

theorem Legible.sum_le_ofExpr {e : Expr} (h : Legible e) : Precedence.sum ≤ Precedence.ofExpr e := by
  cases h with
  | symbol _ => exact show Precedence.sum ≤ Precedence.atom by decide
  | number q =>
    simp only [Precedence.ofExpr]
    split
    · exact Nat.le_refl _
    · split <;> decide
  | sum _ _ => exact Nat.le_refl _
  | product _ _ =>
    rw [ofExpr_product]
    split <;> decide
  | power n _ => exact show Precedence.sum ≤ Precedence.power by decide
  | call hf _ _ =>
    rw [ofExpr_operator hf]
    decide

/-! ## Calls -/

theorem spells_column {n : String} (h : Quotable n) :
    Spells.{u} .primary ("pl.col('" ++ n ++ "')").toList (.symbol n) := by
  have hcol : Phrase .primary [word "pl", mark ".", word "col"] (.attribute (.name "pl") "col") :=
    .member (.name (by decide)) (by decide)
  have hname : Phrase .expression [.token (.text n)] (.text n) :=
    .expression (.sum (.term (.factor (.operand (.text h)))))
  refine ⟨_, _, ?_, @Phrase.call _ _ [(_, _)] [] hcol (phrases_singleton hname) (by simp) (by simp) (by simp),
    denotes_column n⟩
  simp [commas, Lexeme.chars, Token.chars]

/-- Calls that are written spell the operator over their arguments. -/
def CallSpells (call : Nat → List Piece → Except PrintError String) (f : Func) (n : Nat) (method : Bool) : Prop :=
  ∀ ps : List Piece, ps.length = n → (∀ p ∈ ps, Readable.{u} p ∧ Legible p.expr) →
    (method = true → ∀ p ∈ ps.head?, p.expr.isScalar = false) →
    ∃ s, call Precedence.call ps = .ok s ∧ Spells.{u} .primary s.toList (.apply f (ps.map (·.expr)))

theorem callSpells_methodForm {before after : String} {f : Func} (h : ∀ {cs ds : List Char} {x y : Expr},
      Spells.{u} .primary cs x → Spells.{u} .sum ds y →
      Spells.{u} .primary (cs ++ (before.toList ++ (ds ++ after.toList))) (.apply f [x, y])) :
    CallSpells.{u} (writeForm (methodForm before after)) f 2 true := by
  intro ps hlen hps hmethod
  obtain ⟨p, q, rfl⟩ := List.length_eq_two.mp hlen
  obtain ⟨s, hs, hw⟩ := (hps p (by simp)).1
  obtain ⟨t, ht, hv⟩ := (hps q (by simp)).1
  refine ⟨enclosed Precedence.call p.expr s ++ (before ++ (t ++ (after ++ ""))), ?_, ?_⟩
  · simp only [methodForm, writeForm, Part.write, List.getElem?_cons_zero, List.getElem?_cons_succ, within_eq hs, ht]
    rfl
  · simpa using h (hw.enclosed_primary (hmethod rfl p (by simp))) hv.sum

/-- A method of which the argument is the window. -/
theorem callSpells_window {before m : String} {f : Func} (hm : IsWord m)
    (hbefore : before.toList = '.' :: (m.toList ++ ['('])) (hg : signatures.lookup ("." ++ m ++ "", []) = some f) :
    CallSpells.{u} (writeForm (methodForm before ")")) f 2 true :=
  callSpells_methodForm fun hx hy => by
    simpa [hbefore, commaText] using hx.method hm (.cons hy .nil) .nil hg

theorem callSpells_deviation :
    CallSpells.{u} (writeForm (methodForm ".rolling_std(" ", ddof=0)")) (.named "ts_std_dev") 2 true :=
  callSpells_methodForm fun hx hy => by
    simpa [commaText] using hx.method (m := "rolling_std") (by decide) (.cons hy .nil) .ddof (by decide)

theorem callSpells_product : CallSpells.{u} (writeForm
    (methodForm ".rolling_apply(lambda x: np.product(x.to_numpy()), window_size=" ")")) (.named "ts_product") 2 true :=
  callSpells_methodForm fun hx hy => by
    simpa [commaText] using hx.method (m := "rolling_apply") (by decide) spellsArgs_product
      (.cons (w := "window_size") (by decide) (by decide) (by simp) hy .nil) (by decide)

/-- A function over two columns and a window. -/
theorem callSpells_pair {before m : String} {f : Func} (hm : IsWord m) (hcolumn : ("pl", m) ≠ ("pl", "col"))
    (hbefore : before.toList = 'p' :: 'l' :: '.' :: (m.toList ++ ['(']))
    (hg : signatures.lookup ("pl" ++ "." ++ m ++ "", ["window_size", "ddof"]) = some f) :
    CallSpells.{u} (writeForm
      [.text before, .arg 0, .text ", ", .arg 1, .text ", window_size=", .arg 2, .text ", ddof=0)"]) f 3 false := by
  intro ps hlen hps _
  obtain ⟨p, q, r, rfl⟩ := List.length_eq_three.mp hlen
  obtain ⟨s, hs, hw⟩ := (hps p (by simp)).1
  obtain ⟨t, ht, hv⟩ := (hps q (by simp)).1
  obtain ⟨d, hd, hx⟩ := (hps r (by simp)).1
  refine ⟨before ++ (s ++ (", " ++ (t ++ (", window_size=" ++ (d ++ (", ddof=0)" ++ "")))))), ?_, ?_⟩
  · simp only [writeForm, Part.write, List.getElem?_cons_zero, List.getElem?_cons_succ, hs, ht, hd]
    rfl
  · simpa [hbefore, commaText] using spells_libraryFunction (l := "pl") (by decide) hm hcolumn
      (.cons hw.sum (.cons hv.sum .nil)) (.cons (w := "window_size") (by decide) (by decide) (by simp) hx.sum .ddof) hg

/-- A function over one or two arguments. -/
theorem callSpells_callForm {name : String} {f : Func} {n : Nat} (hn : n = 1 ∨ n = 2) (hname : IsWord name)
    (hg : signatures.lookup (name ++ "", []) = some f) :
    CallSpells.{u} (writeForm (callForm name (List.range n))) f n false := by
  intro ps hlen hps _
  rcases hn with rfl | rfl
  · obtain ⟨p, rfl⟩ := List.length_eq_one_iff.mp hlen
    obtain ⟨s, hs, hw⟩ := (hps p (by simp)).1
    refine ⟨name ++ "(" ++ (s ++ (")" ++ "")), ?_, ?_⟩
    · have hform : callForm name (List.range 1) = [.text (name ++ "("), .arg 0, .text ")"] := rfl
      simp only [hform, writeForm, Part.write, List.getElem?_cons_zero, hs]
      rfl
    · simpa [commaText] using spells_function hname (.cons hw.sum .nil) .nil hg
  · obtain ⟨p, q, rfl⟩ := List.length_eq_two.mp hlen
    obtain ⟨s, hs, hw⟩ := (hps p (by simp)).1
    obtain ⟨t, ht, hv⟩ := (hps q (by simp)).1
    refine ⟨name ++ "(" ++ (s ++ (", " ++ (t ++ (")" ++ "")))), ?_, ?_⟩
    · have hform : callForm name (List.range 2) =
          [.text (name ++ "("), .arg 0, .text ", ", .arg 1, .text ")"] := rfl
      simp only [hform, writeForm, Part.write, List.getElem?_cons_zero, List.getElem?_cons_succ, hs, ht]
      rfl
    · simpa [commaText] using spells_function hname (.cons hw.sum (.cons hv.sum .nil)) .nil hg

theorem callSpells_numberOr {name method m : String} {f : Func} (hm : IsWord m)
    (hname : name.toList = 'n' :: 'p' :: '.' :: m.toList) (hmethod : method.toList = '.' :: (m.toList ++ ['(', ')']))
    (hlibrary : signatures.lookup ("np" ++ "." ++ m ++ "", []) = some f)
    (hg : signatures.lookup ("." ++ m ++ "", []) = some f) : CallSpells.{u} (numberOr name method) f 1 false := by
  intro ps hlen hps _
  obtain ⟨p, rfl⟩ := List.length_eq_one_iff.mp hlen
  obtain ⟨⟨s, hs, hw⟩, hlegible⟩ := hps p (by simp)
  obtain ⟨e, text⟩ := p
  dsimp only at hs hw hlegible
  by_cases hscalar : e.isScalar = true
  · -- a number is written anew and not taken from its piece
    obtain ⟨q, rfl⟩ : ∃ q, e = .scalar (.exact q) := by
      cases hlegible with
      | number q => exact ⟨q, rfl⟩
      | _ => cases hscalar
    refine ⟨name ++ "(" ++ (Scalar.exact q).text false ++ ")", rfl, ?_⟩
    simpa [hname, commaText] using spells_libraryFunction (l := "np") (by decide) hm (by simp)
      (.cons (written_exact q false).sum .nil) .nil hlibrary
  · rw [Bool.not_eq_true] at hscalar
    refine ⟨enclosed Precedence.call e s ++ method, ?_, ?_⟩
    · have hwithin := within_eq (p := ⟨e, text⟩) hs Precedence.call
      cases e with
      | scalar x => cases hscalar
      | _ => simp only [numberOr, List.getElem?_cons_zero, hwithin]; rfl
    · simpa [hmethod, commaText] using (hw.enclosed_primary hscalar).method hm .nil .nil hg

theorem callSpells_operator {f : Func} {n : Nat} {method : Bool} (h : (f, n, method) ∈ operatorTable) :
    ∃ call, polars.call f.kindName = some call ∧ CallSpells.{u} call f n method := by
  simp only [operatorTable, List.mem_cons, Prod.mk.injEq, List.not_mem_nil, or_false] at h
  rcases h with ⟨rfl, rfl, rfl⟩ | ⟨rfl, rfl, rfl⟩ | ⟨rfl, rfl, rfl⟩ | ⟨rfl, rfl, rfl⟩ | ⟨rfl, rfl, rfl⟩ |
    ⟨rfl, rfl, rfl⟩ | ⟨rfl, rfl, rfl⟩ | ⟨rfl, rfl, rfl⟩ | ⟨rfl, rfl, rfl⟩ | ⟨rfl, rfl, rfl⟩ | ⟨rfl, rfl, rfl⟩ |
    ⟨rfl, rfl, rfl⟩ | ⟨rfl, rfl, rfl⟩ | ⟨rfl, rfl, rfl⟩ | ⟨rfl, rfl, rfl⟩ | ⟨rfl, rfl, rfl⟩ | ⟨rfl, rfl, rfl⟩ |
    ⟨rfl, rfl, rfl⟩ | ⟨rfl, rfl, rfl⟩ | ⟨rfl, rfl, rfl⟩
  · exact ⟨_, rfl, callSpells_window (m := "rolling_mean") (by decide) (by decide) (by decide)⟩
  · exact ⟨_, rfl, callSpells_deviation⟩
  · exact ⟨_, rfl, callSpells_window (m := "rolling_max") (by decide) (by decide) (by decide)⟩
  · exact ⟨_, rfl, callSpells_window (m := "rolling_min") (by decide) (by decide) (by decide)⟩
  · exact ⟨_, rfl, callSpells_window (m := "rolling_sum") (by decide) (by decide) (by decide)⟩
  · exact ⟨_, rfl, callSpells_window (m := "diff") (by decide) (by decide) (by decide)⟩
  · exact ⟨_, rfl, callSpells_window (m := "shift") (by decide) (by decide) (by decide)⟩
  · exact ⟨_, rfl, callSpells_product⟩
  · exact ⟨_, rfl, callSpells_pair (m := "rolling_corr") (by decide) (by decide) (by decide) (by decide)⟩
  · exact ⟨_, rfl, callSpells_pair (m := "rolling_cov") (by decide) (by decide) (by decide) (by decide)⟩
  · exact ⟨_, rfl, callSpells_callForm (.inr rfl) (by decide) (by decide)⟩
  · exact ⟨_, rfl, callSpells_callForm (.inr rfl) (by decide) (by decide)⟩
  · exact ⟨_, rfl, callSpells_callForm (.inr rfl) (by decide) (by decide)⟩
  · exact ⟨_, rfl, callSpells_callForm (.inr rfl) (by decide) (by decide)⟩
  · exact ⟨_, rfl, callSpells_callForm (.inl rfl) (by decide) (by decide)⟩
  · exact ⟨_, rfl, callSpells_callForm (.inl rfl) (by decide) (by decide)⟩
  · exact ⟨_, rfl, callSpells_callForm (.inr rfl) (by decide) (by decide)⟩
  · exact ⟨_, rfl, callSpells_numberOr (m := "sign") (by decide) (by decide) (by decide) (by decide) (by decide)⟩
  · exact ⟨_, rfl, callSpells_numberOr (m := "log") (by decide) (by decide) (by decide) (by decide) (by decide)⟩
  · exact ⟨_, rfl, callSpells_numberOr (m := "abs") (by decide) (by decide) (by decide) (by decide) (by decide)⟩

end Target

end FactorPlan
