import FactorPlan.Genetic.Filter
import FactorPlan.Proofs.Attached
import FactorPlan.Proofs.Styles

/-!
Polars code in which no method is called on a number. Operators of the search that are written as
methods (`methodOperators`) are called on their first argument. Where that is no number, what is
written of it ends as a receiver does (`Guarded.endsInReceiver`): it is a column, a constant or an
extreme, or stands in parentheses. So by induction on the fuel a guarded expression has code in
which all methods are attached (`lands_textF`).
-/

namespace FactorPlan

namespace Target

/-! ## Pieces -/

/-- The text is attached where `Q` holds. -/
def Attaches (Q : Prop) (t : String) : Prop := Q → Attached t.toList

/-- The piece has a text, which is attached where `Q` holds. -/
def Lands (Q : Prop) (p : Piece) : Prop := Yields p.text (Attaches Q)

section Pieces
variable {Q : Prop} {t u : String}

theorem Code.attaches (h : Code t) : Attaches Q t := fun _ => h.attached

theorem attaches_code (t : String) (h : Code t := by decide) : Attaches Q t := h.attaches

theorem Attaches.append (h : Attaches Q t) (h' : Attaches Q u) : Attaches Q (t ++ u) := fun hq => by
  rw [String.toList_append]
  exact (h hq).append (h' hq)

theorem Attaches.parenthesized (h : Attaches Q t) : Attaches Q ("(" ++ t ++ ")") :=
  ((attaches_code "(").append h).append (attaches_code ")")

theorem Attaches.of_minus (h : Attaches Q t) (ht : t.startsWith "-" = true) :
    Attaches Q (String.ofList (t.toList.drop 1)) := fun hq => by
  obtain ⟨u, hu⟩ := String.startsWith_string_iff.mp ht
  have hcons : t.toList = '-' :: u := hu.symm
  have hattached := h hq
  rw [hcons] at hattached
  rw [String.toList_ofList, hcons]
  exact hattached.of_minus

theorem Attaches.intercalate {sep : String} (hsep : Code sep) {ts : List String} (h : ∀ t ∈ ts, Attaches Q t) :
    Attaches Q (sep.intercalate ts) := by
  induction ts with
  | nil =>
    rw [String.intercalate_nil]
    exact attaches_code ""
  | cons t ts ih =>
    cases ts with
    | nil => exact h t (by simp)
    | cons v ts =>
      rw [String.intercalate_cons_cons]
      exact ((h t (by simp)).append hsep.attaches).append (ih fun w hw => h w (by simp [hw]))

theorem Lands.within {p : Piece} (h : Lands Q p) (level : Nat) : Yields (p.within level) (Attaches Q) := by
  refine h.bind fun t ht => .pure ?_
  split
  · exact ht.parenthesized
  · exact ht

theorem lands_allTexts {ps : List Piece} (h : ∀ p ∈ ps, Lands Q p) :
    Yields (allTexts ps) fun ts => ∀ t ∈ ts, Attaches Q t := by
  induction ps with
  | nil => exact .pure (by simp)
  | cons p ps ih => exact (h p (by simp)).cons (ih fun q hq => h q (by simp [hq]))

theorem lands_allWithin {ps : List Piece} (h : ∀ p ∈ ps, Lands Q p) (level : Nat) :
    Yields (allWithin level ps) fun ts => ∀ t ∈ ts, Attaches Q t := by
  induction ps with
  | nil => exact .pure (by simp)
  | cons p ps ih => exact ((h p (by simp)).within level).cons (ih fun q hq => h q (by simp [hq]))

theorem lands_leadTexts {ps : List Piece} (h : ∀ p ∈ ps, Lands Q p) (level : Nat) (plain : Bool) :
    Yields (Expr.leadTexts level plain ps) fun ts => ∀ t ∈ ts, Attaches Q t := by
  cases ps with
  | nil => exact .pure (by simp)
  | cons p ps =>
    have hfirst : Yields (if plain then p.text else p.within level) (Attaches Q) := by
      cases plain with
      | true => exact h p (by simp)
      | false => exact (h p (by simp)).within level
    exact hfirst.cons (lands_allWithin (List.forall_mem_cons.mp h).2 level)

/-! ## Sums and fractions -/

theorem lands_signedTerm {p : Piece} (h : Lands Q p) :
    Yields (Expr.signedTerm p) fun s => Code s.1 ∧ Attaches Q s.2 := by
  refine h.bind fun t ht => ?_
  dsimp only
  split
  · rename_i hminus
    -- the minus is taken off for the sign, and the rest of a text that begins with it is attached too
    have hrest := ht.of_minus (Bool.and_eq_true_iff.mp hminus).1
    refine .pure ⟨show Code "-" by decide, ?_⟩
    dsimp only
    split
    · exact hrest.parenthesized
    · exact hrest
  · refine .pure ⟨show Code "+" by decide, ?_⟩
    dsimp only
    split
    · exact ht.parenthesized
    · exact ht

theorem lands_signedTerms {ps : List Piece} (h : ∀ p ∈ ps, Lands Q p) :
    Yields (Expr.signedTerms ps) fun ss => ∀ s ∈ ss, Code s.1 ∧ Attaches Q s.2 := by
  induction ps with
  | nil => exact .pure (by simp)
  | cons p ps ih => exact (lands_signedTerm (h p (by simp))).cons (ih fun q hq => h q (by simp [hq]))

theorem attaches_joinTerms {ss : List (String × String)} (h : ∀ s ∈ ss, Code s.1 ∧ Attaches Q s.2) :
    Attaches Q (Expr.joinTerms ss) := by
  have hblank : Attaches Q " " := attaches_code " "
  have hrest : ∀ ss : List (String × String), (∀ s ∈ ss, Code s.1 ∧ Attaches Q s.2) →
      Attaches Q (String.join (ss.map fun s => " " ++ s.1 ++ " " ++ s.2)) := by
    intro ss h
    induction ss with
    | nil => exact attaches_code ""
    | cons s ss ih =>
      obtain ⟨hs, hss⟩ := List.forall_mem_cons.mp h
      rw [List.map_cons, String.join_cons]
      exact (((hblank.append hs.1.attaches).append hblank).append hs.2).append (ih hss)
  cases ss with
  | nil => exact attaches_code ""
  | cons s ss =>
    obtain ⟨hs, hss⟩ := List.forall_mem_cons.mp h
    refine (Attaches.append ?_ hs.2).append (hrest ss hss)
    split
    · exact attaches_code ""
    · exact hs.1.attaches

theorem attaches_fractionText {ns ds : List String} (hns : ∀ n ∈ ns, Attaches Q n) (hds : ∀ d ∈ ds, Attaches Q d) :
    Attaches Q (Expr.fractionText ns ds) := by
  have hnum : Attaches Q ("*".intercalate (if ns.isEmpty then ["1"] else ns)) := by
    refine Attaches.intercalate (by decide) ?_
    split
    · exact List.forall_mem_singleton.mpr (attaches_code "1")
    · exact hns
  unfold Expr.fractionText
  dsimp only
  split
  · exact hnum
  · exact (hnum.append (attaches_code "/")).append (hds _ (by simp))
  · exact ((hnum.append (attaches_code "/(")).append (Attaches.intercalate (by decide) hds)).append
      (attaches_code ")")

/-! ## Calls -/

theorem lands_plainCall {ps : List Piece} (h : ∀ p ∈ ps, Lands Q p) {name : String} (hname : Code (name ++ "(")) :
    Yields (Dialect.plainCall name ps) (Attaches Q) :=
  (lands_allTexts h).bind fun _ hts =>
    .pure ((hname.attaches.append (Attaches.intercalate (by decide) hts)).append (attaches_code ")"))

/-- The part is code, or one of the first `n` arguments. -/
def Part.Within (n : Nat) : Part → Prop
  | .text s => Code s
  | .arg i => i < n
  | .bound i => i < n
  | .factor i => i < n

instance (n : Nat) : DecidablePred (Part.Within n)
  | .text s => inferInstanceAs (Decidable (Code s))
  | .arg i => inferInstanceAs (Decidable (i < n))
  | .bound i => inferInstanceAs (Decidable (i < n))
  | .factor i => inferInstanceAs (Decidable (i < n))

theorem lands_part {ps : List Piece} (h : ∀ p ∈ ps, Lands Q p) {part : Part} (hpart : part.Within ps.length)
    (level : Nat) : Yields (part.write level ps) (Attaches Q) := by
  cases part with
  | text s => exact .pure (Code.attaches hpart)
  | arg i =>
    have hi : i < ps.length := hpart
    simpa only [Lands, Part.write, List.getElem?_eq_getElem hi] using h ps[i] (List.getElem_mem hi)
  | bound i =>
    have hi : i < ps.length := hpart
    simpa only [Part.write, List.getElem?_eq_getElem hi] using (h ps[i] (List.getElem_mem hi)).within level
  | factor i =>
    have hi : i < ps.length := hpart
    simpa only [Part.write, List.getElem?_eq_getElem hi] using
      (h ps[i] (List.getElem_mem hi)).within Precedence.product

theorem lands_form {ps : List Piece} (h : ∀ p ∈ ps, Lands Q p) {form : List Part}
    (hform : ∀ part ∈ form, part.Within ps.length) (level : Nat) :
    Yields (writeForm form level ps) (Attaches Q) := by
  induction form with
  | nil => exact .pure (attaches_code "")
  | cons part form ih =>
    exact (lands_part h (hform part (by simp)) level).bind fun t ht =>
      (ih fun q hq => hform q (by simp [hq])).bind fun u hu => .pure (ht.append hu)

/-- Methods can be called on the piece. -/
def Receives (p : Piece) : Prop :=
  p.expr.isScalar = false ∧ ∀ t, p.within Precedence.call = .ok t → EndsInReceiver t.toList

theorem Attaches.method (h : Attaches Q t) (ht : EndsInReceiver t.toList) (hu : callsMethod u.toList = true) :
    Attaches Q (t ++ u) := fun hq => by
  rw [String.toList_append]
  exact (h hq).method ht hu

/-- The form calls a method on the first argument and has the second one for its argument. -/
def isMethodForm : List Part → Bool
  | [.bound 0, .text before, .arg 1, .text after] => callsMethod before.toList && decide (Code after)
  | _ => false

theorem lands_methodForm {p q : Piece} (hp : Lands Q p) (hreceives : Receives p) (hq : Lands Q q) {form : List Part}
    (hform : isMethodForm form = true) : Yields (writeForm form Precedence.call [p, q]) (Attaches Q) := by
  unfold isMethodForm at hform
  split at hform
  · rename_i before after
    obtain ⟨hbefore, hafter⟩ := Bool.and_eq_true_iff.mp hform
    obtain ⟨t, ht, htext⟩ := hp.within Precedence.call
    obtain ⟨u, hu, harg⟩ := hq
    -- the receiver stands directly before the method, and the argument after it
    refine ⟨t ++ (before ++ (u ++ (after ++ ""))), ?_, ?_⟩
    · simp only [writeForm, Part.write, List.getElem?_cons_zero, List.getElem?_cons_succ, ht, hu]
      rfl
    · have hmethod := (htext.method (hreceives.2 t ht) hbefore).append (harg.append (of_decide_eq_true hafter).attaches)
      simpa only [String.append_assoc, String.append_empty] using hmethod
  · cases hform

theorem lands_numberOr {p : Piece} (hp : Lands Q p) (hreceives : Receives p) {method : String}
    (hmethod : callsMethod method.toList = true) (name : String) :
    Yields (numberOr name method Precedence.call [p]) (Attaches Q) := by
  obtain ⟨t, ht, htext⟩ := hp.within Precedence.call
  refine ⟨t ++ method, ?_, htext.method (hreceives.2 t ht) hmethod⟩
  obtain ⟨e, text⟩ := p
  cases e with
  | scalar s => cases hreceives.1
  | _ => simp only [numberOr, List.getElem?_cons_zero, ht]; rfl

end Pieces

/-! ## Guarded expressions -/

/-- The operators of the search that are written as methods of their first argument. -/
def methodOperators : List String :=
  Genetic.plainOperators ++ Genetic.windowOperators.filter fun n => (polarsForms.lookup n).any isMethodForm

theorem operator_of_method {n : String} (h : n ∈ methodOperators) : ∃ o ∈ Genetic.operators, o.name = n := by
  have hnames : ∀ n ∈ Genetic.plainOperators ++ Genetic.windowOperators, n ∈ Genetic.operators.map (·.name) := by decide
  refine List.mem_map.mp (hnames n ?_)
  exact (List.Sublist.append_left List.filter_sublist _).subset h

/-- Expressions of the search in which no method is called on a number, and where `Q` holds no column has a quote
in its name. -/
inductive Guarded (Q : Prop) : Expr → Prop
  | symbol {n : String} : (Q → '\'' ∉ n.toList) → Guarded Q (.symbol n)
  | scalar (s : Scalar) : Guarded Q (.scalar s)
  | constant {c : Constant} : c ≠ .undirected → Guarded Q (.constant c)
  | sum {ts : List Expr} : (∀ t ∈ ts, Guarded Q t) → Guarded Q (.sum ts)
  | product {fs : List Expr} : (∀ f ∈ fs, Guarded Q f) → Guarded Q (.product fs)
  | power {b x : Expr} : Guarded Q b → Guarded Q x → Guarded Q (.power b x)
  | extreme {f : Func} {as : List Expr} : f = .max ∨ f = .min → 2 ≤ as.length → (∀ a ∈ as, Guarded Q a) →
      Guarded Q (.apply f as)
  | operator {f : Func} {as : List Expr} {o : Genetic.Operator} : o ∈ Genetic.operators → f.kindName = o.name →
      as.length = o.takes.length → (o.name ∈ methodOperators → ∀ a ∈ as.head?, a.isScalar = false) →
      (∀ a ∈ as, Guarded Q a) → Guarded Q (.apply f as)

/-- An operator is called by its name, or is the logarithm or the size. -/
theorem func_of_operator {f : Func} {o : Genetic.Operator} (ho : o ∈ Genetic.operators) (hf : f.kindName = o.name) :
    f = .named o.name ∨ o.name ∈ Genetic.plainOperators ∧ (f = .log ∨ f = .abs) := by
  have hname : f.kindName ∈ Genetic.operators.map (·.name) := hf ▸ List.mem_map_of_mem ho
  cases f with
  | named n => exact Or.inl (congrArg Func.named hf)
  | log => exact Or.inr ⟨hf ▸ by decide, Or.inl rfl⟩
  | abs => exact Or.inr ⟨hf ▸ by decide, Or.inr rfl⟩
  | rel r => cases r <;> exact absurd hname (by decide)
  | _ => exact absurd hname (by decide)

theorem ofExpr_searchOperator {f : Func} {as : List Expr} {o : Genetic.Operator} (ho : o ∈ Genetic.operators)
    (hf : f.kindName = o.name) : Precedence.ofExpr (.apply f as) = Precedence.call := by
  have hall : ∀ o ∈ Genetic.operators, Precedence.ofName o.name = Precedence.call := by decide
  rcases func_of_operator ho hf with rfl | ⟨-, rfl | rfl⟩
  · exact hall o ho
  · rfl
  · rfl

theorem call_eq_of_not_plain {n : String} (h : n ∉ Genetic.plainOperators) :
    polars.call n = (polarsForms.lookup n).map writeForm := by
  have hcall : Style.polars.dialect.call n = (Style.polars.forms.lookup n).map writeForm := by
    refine call_eq_form ⟨?_, ?_, ?_⟩ <;> rintro rfl <;> exact h (by decide)
  exact hcall

/-- Extremes are written as a call on the list of their first two arguments. -/
theorem call_extreme {f : Func} (hf : f = .max ∨ f = .min) : ∃ first, Code first ∧
    polars.call f.kindName = some (writeForm ([Part.text first, .arg 0, .text ", ", .arg 1] ++ [Part.text "])"])) := by
  rcases hf with rfl | rfl
  · exact ⟨"pl.max_horizontal([", by decide, call_eq_of_not_plain (by decide)⟩
  · exact ⟨"pl.min_horizontal([", by decide, call_eq_of_not_plain (by decide)⟩

section Guarded
variable {Q : Prop} {fuel : Nat}

/-- Text at the end of a form stands at the end of what is written. -/
theorem suffix_writeForm {form : List Part} {s : String} {level : Nat} {ps : List Piece} {t : String}
    (h : writeForm (form ++ [Part.text s]) level ps = .ok t) : s.toList <:+ t.toList := by
  induction form generalizing t with
  | nil =>
    obtain ⟨u, hu, h⟩ := bind_eq_ok.mp h
    cases hu
    cases h
    simp
  | cons part form ih =>
    obtain ⟨u, -, h⟩ := bind_eq_ok.mp h
    obtain ⟨v, hv, h⟩ := bind_eq_ok.mp h
    cases h
    rw [String.toList_append]
    exact (ih hv).trans (List.suffix_append _ _)

/-- What is no number ends as a receiver does, where it is written before a method. -/
theorem Guarded.endsInReceiver {a : Expr} (h : Guarded Q a) (ha : a.isScalar = false) {t : String}
    (ht : (⟨a, Expr.textF polars fuel true a⟩ : Piece).within Precedence.call = .ok t) : EndsInReceiver t.toList := by
  obtain ⟨u, hu, ht⟩ := bind_eq_ok.mp ht
  cases ht
  dsimp only at hu ⊢
  -- what binds no closer than a call stands in parentheses: sums, products, powers and other operators
  split
  · rw [String.toList_append]
    exact endsInReceiver_parenthesis _
  · rename_i hlevel
    cases fuel with
    | zero => simp at hu
    | succ fuel =>
      cases h with
      | @symbol n hn =>
        rw [Expr.textF_symbol] at hu
        cases hu
        exact ⟨")", by simp, "pl.col('".toList ++ n.toList ++ ['\''], by simp [polars]⟩
      | scalar s => cases ha
      | @constant c hc =>
        unfold Expr.textF at hu
        cases hu
        cases c with
        | pi => exact ⟨"pi", by simp, List.suffix_refl _⟩
        | imaginary => exact ⟨"I", by simp, List.suffix_refl _⟩
        | undirected => exact absurd rfl hc
      | sum _ => exact absurd (show Precedence.sum ≤ Precedence.call by decide) hlevel
      | @product fs _ =>
        refine absurd ?_ hlevel
        rcases fs with _ | ⟨f, fs⟩
        · decide
        · cases f with
          | scalar s => simp only [Precedence.ofExpr]; split <;> decide
          | _ => exact (by decide : Precedence.product ≤ Precedence.call)
      | power _ _ => exact absurd (show Precedence.power ≤ Precedence.call by decide) hlevel
      | @extreme f as hf _ _ =>
        obtain ⟨first, -, hcall⟩ := call_extreme hf
        rw [Expr.textF_call _ _ _ hcall] at hu
        have hbracket : ")".toList <:+ "])".toList := ⟨[']'], rfl⟩
        exact ⟨")", by simp, hbracket.trans (suffix_writeForm hu)⟩
      | operator ho hf _ _ _ => exact absurd (ofExpr_searchOperator ho hf).le hlevel

theorem Guarded.args {e : Expr} (h : Guarded Q e) : ∀ a ∈ e.args, Guarded Q a := by
  intro a ha
  cases h with
  | symbol _ => cases ha
  | scalar _ => cases ha
  | constant _ => cases ha
  | sum hall => exact hall a ha
  | product hall => exact hall a ha
  | power hb hx =>
    rcases List.mem_pair.mp ha with rfl | rfl
    · exact hb
    · exact hx
  | extreme _ _ hall => exact hall a ha
  | operator _ _ _ _ hall => exact hall a ha

theorem Guarded.node {e d : Expr} (h : Guarded Q e) (hd : d ∈ e.nodes) : Guarded Q d := by
  induction e using Expr.args_induction with
  | _ e ih =>
    rcases Expr.mem_nodes_iff.mp hd with rfl | ⟨a, ha, hd⟩
    · exact h
    · exact ih a ha (h.args a ha) hd

/-! ## Nodes -/

/-- The expression is guarded, and there is fuel to write it. Numbers need one step only: a product may be written with
numbers that are none of its factors. -/
structure Fueled (Q : Prop) (fuel : Nat) (e : Expr) : Prop where
  guarded : Guarded Q e
  fuel_pos : 0 < fuel
  fits : e.isScalar = true ∨ e.size < fuel

theorem Guarded.fueled {e : Expr} (h : Guarded Q e) (hsize : e.size < fuel) : Fueled Q fuel e :=
  ⟨h, by omega, Or.inr hsize⟩

theorem fueled_of_mem {es : List Expr} (hes : ∀ e ∈ es, Guarded Q e) (hsize : Expr.sizeList es < fuel) :
    ∀ e ∈ es, Fueled Q fuel e := fun e he =>
  (hes e he).fueled ((Expr.size_le_sizeList he).trans_lt hsize)

theorem fueled_scalar (hfuel : 0 < fuel) (s : Scalar) : Fueled Q fuel (.scalar s) := ⟨.scalar s, hfuel, Or.inl rfl⟩

theorem Fueled.factors {gs : List Expr} (h : Fueled Q fuel (.product gs)) : ∀ g ∈ gs, Fueled Q fuel g := by
  obtain ⟨hguarded, -, hscalar | hsize⟩ := h
  · cases hscalar
  · cases hguarded with
    | product hall =>
      rw [Expr.size] at hsize
      exact fueled_of_mem hall (by omega)

theorem size_flipPower_le (e : Expr) : e.flipPower.size ≤ e.size := by
  unfold Expr.flipPower
  split
  -- the number in the exponent changes its sign, or is one and is left out
  · split <;> simp only [Expr.size] <;> omega
  · split
    · rename_i b s rest _
      have hraw : (Expr.rawProduct rest).size ≤ 1 + Expr.sizeList rest := by
        unfold Expr.rawProduct
        split <;> simp only [Expr.one, Expr.ofInt, Expr.size, Expr.sizeList] <;> omega
      simp only [Expr.size, Expr.sizeList]
      omega
    · simp only [Expr.size, Expr.sizeList]
      omega
  · exact le_rfl

theorem Guarded.flipPower {e : Expr} (h : Guarded Q e) : Guarded Q e.flipPower := by
  unfold Expr.flipPower
  split
  · cases h with
    | power hb _ =>
      split
      · exact hb
      · exact .power hb (.scalar _)
  · cases h with
    | power hb hx =>
      cases hx with
      | product hall =>
        obtain ⟨-, hrest⟩ := List.forall_mem_cons.mp hall
        split
        · refine .power hb ?_
          unfold Expr.rawProduct
          split
          · exact .scalar _
          · exact hrest _ (by simp)
          · exact .product hrest
        · exact .power hb (.product (List.forall_mem_cons.mpr ⟨.scalar _, hrest⟩))
  · exact h

theorem Fueled.flipPower {e : Expr} (h : Fueled Q fuel e) : Fueled Q fuel e.flipPower := by
  obtain ⟨hguarded, hfuel, hscalar | hsize⟩ := h
  · cases e with
    | scalar s => exact fueled_scalar hfuel s
    | _ => cases hscalar
  · exact hguarded.flipPower.fueled ((size_flipPower_le e).trans_lt hsize)

/-- What is guarded lands, where there is fuel to write it. -/
def LandsBelow (Q : Prop) (fuel : Nat) : Prop :=
  ∀ e, Fueled Q fuel e → Lands Q ⟨e, Expr.textF polars fuel true e⟩

theorem LandsBelow.each (h : LandsBelow Q fuel) {es : List Expr} (hes : ∀ e ∈ es, Fueled Q fuel e) :
    ∀ p ∈ es.map (fun a => (⟨a, Expr.textF polars fuel true a⟩ : Piece)), Lands Q p := by
  intro p hp
  obtain ⟨e, he, rfl⟩ := List.mem_map.mp hp
  exact h e (hes e he)

theorem LandsBelow.sum (h : LandsBelow Q fuel) {ts : List Expr} (hts : ∀ t ∈ ts, Fueled Q fuel t) (short : Bool) :
    Lands Q ⟨.sum ts, Expr.textF polars (fuel + 1) short (.sum ts)⟩ := by
  have hterms := lands_signedTerms (h.each fun t ht => hts t ((Expr.orderedTerms_perm (.sum ts)).mem_iff.mp ht))
  unfold Lands
  dsimp only
  rw [Expr.textF_sum]
  exact hterms.bind fun _ hss => .pure (attaches_joinTerms hss)

theorem LandsBelow.asIs (h : LandsBelow Q fuel) {fs : List Expr} (hfs : ∀ f ∈ fs, Fueled Q fuel f) (level : Nat) :
    Yields (Expr.asIsText (fun a => ⟨a, Expr.textF polars fuel true a⟩) level fs) (Attaches Q) := by
  have hden : ∀ e ∈ (fs.filter Expr.isReciprocal).map Expr.flipPower, Fueled Q fuel e := by
    intro e he
    obtain ⟨f, hf, rfl⟩ := List.mem_map.mp he
    exact (hfs f (List.mem_filter.mp hf).1).flipPower
  have hnum : ∀ e ∈ fs.filter (!·.isReciprocal), Fueled Q fuel e := fun e he => hfs e (List.mem_filter.mp he).1
  rw [Expr.asIsText_eq]
  dsimp only
  generalize fs.filter (!·.isReciprocal) = num at hnum ⊢
  generalize (fs.filter Expr.isReciprocal).map Expr.flipPower = den at hden ⊢
  exact (lands_leadTexts (h.each hnum) level _).bind fun _ hns =>
    (lands_leadTexts (h.each hden) level _).bind fun _ hds => .pure (attaches_fractionText hns hds)

theorem LandsBelow.product (h : LandsBelow Q fuel) (hfuel : 0 < fuel) {fs : List Expr}
    (hfs : ∀ f ∈ fs, Fueled Q fuel f) (short : Bool) :
    Lands Q ⟨.product fs, Expr.textF polars (fuel + 1) short (.product fs)⟩ := by
  cases hw : Expr.writtenAsIs fs with
  | true =>
    unfold Lands
    dsimp only
    rw [Expr.textF]
    simpa only [hw, if_true] using h.asIs hfs (Precedence.ofExpr (.product fs))
  | false =>
    -- a sign, and numerators over denominators; numbers among them need not be factors
    have hscalar : ∀ s, Fueled Q fuel (.scalar s) := fueled_scalar hfuel
    have hshown : ∀ f ∈ (Expr.signedFactors fs).2, Fueled Q fuel f :=
      Expr.forall_signedFactors hscalar (fun gs hgs => hgs.factors) hfs
    have hnum := lands_allWithin (h.each (List.forall_mem_flatMap.mpr fun f hf =>
      Expr.forall_numerators hscalar (hshown f hf))) (Precedence.ofExpr (.product fs))
    have hden := lands_allWithin (h.each (List.forall_mem_flatMap.mpr fun f hf =>
      Expr.forall_denominators hscalar (hshown f hf).flipPower)) (Precedence.ofExpr (.product fs))
    have hsign : Attaches Q (Expr.signedFactors fs).1 := by
      unfold Expr.signedFactors
      split
      · exact attaches_code "-"
      · exact attaches_code ""
    unfold Lands
    dsimp only
    rw [Expr.textF_product _ _ _ hw]
    refine hnum.bind fun ns hns => hden.bind fun ds hds =>
      .pure (hsign.append (attaches_fractionText hns fun d hd => ?_))
    obtain ⟨p, hp, rfl⟩ := List.mem_map.mp hd
    have hd := hds p.2 (List.of_mem_zip hp).2
    split
    · exact hd.parenthesized
    · exact hd

theorem LandsBelow.power (h : LandsBelow Q fuel) {b x : Expr} (hb : Fueled Q fuel b) (hx : Fueled Q fuel x)
    (short : Bool) : Lands Q ⟨.power b x, Expr.textF polars (fuel + 1) short (.power b x)⟩ := by
  have hclose : Attaches Q ")" := attaches_code ")"
  have hbase := (h b hb).within Precedence.power
  unfold Lands
  dsimp only
  rw [Expr.textF]
  dsimp only
  split
  · exact (h b hb).bind fun _ hu => .pure (((attaches_code "sqrt(").append hu).append hclose)
  · split
    · exact (h b hb).bind fun _ hu => .pure (((attaches_code "1/sqrt(").append hu).append hclose)
    · split
      · exact hbase.bind fun _ hu => .pure ((attaches_code "1/").append hu)
      · exact ((h x hx).within Precedence.power).bind fun _ hv => hbase.bind fun _ hu =>
          .pure ((hu.append (attaches_code "**")).append hv)

theorem LandsBelow.extreme (h : LandsBelow Q fuel) {f : Func} (hf : f = .max ∨ f = .min) {as : List Expr}
    (hlength : 2 ≤ as.length) (has : ∀ a ∈ as, Fueled Q fuel a) (short : Bool) :
    Lands Q ⟨.apply f as, Expr.textF polars (fuel + 1) short (.apply f as)⟩ := by
  obtain ⟨first, hfirst, hcall⟩ := call_extreme hf
  have hwithin : ∀ part ∈ [Part.text first, .arg 0, .text ", ", .arg 1] ++ [Part.text "])"],
      part.Within (as.map fun a => (⟨a, Expr.textF polars fuel true a⟩ : Piece)).length := by
    simp only [List.length_map, List.forall_mem_append, List.forall_mem_cons, List.not_mem_nil, false_imp_iff,
      implies_true, and_true, Part.Within]
    exact ⟨⟨hfirst, by omega, by decide, by omega⟩, by decide⟩
  obtain ⟨t, ht, hattaches⟩ := lands_form (h.each has) hwithin (Precedence.ofExpr (.apply f as))
  exact ⟨t, (Expr.textF_call _ _ short hcall as).trans ht, hattaches⟩

/-- How the operators of the search are written: the plain ones as methods unless their argument is a number, others
in a form that calls a method on the first argument or none, and the rest as plain calls. -/
theorem operator_cases : ∀ o ∈ Genetic.operators,
    (o.name ∈ Genetic.plainOperators ∧ o.takes.length = 1) ∨ o.name ∉ Genetic.plainOperators ∧
      ((∃ form ∈ polarsForms.lookup o.name, isMethodForm form = true ∧ o.takes.length = 2 ∧ o.name ∈ methodOperators) ∨
      (∃ form ∈ polarsForms.lookup o.name, ∀ part ∈ form, part.Within o.takes.length) ∨
      polarsForms.lookup o.name = none ∧ Code (o.name ++ "(") ∧
        o.name ∈ "pass_int" :: Genetic.columnOperators ++ Genetic.scaledOperators) := by
  decide +kernel

/-- The names of operators without a form are not used for anything else. -/
theorem reservedCall_eq_none {n : String} (h : n ∈ "pass_int" :: Genetic.columnOperators ++ Genetic.scaledOperators)
    (d : Dialect) (ps : List Piece) : n ≠ "Mul" ∧ reservedCall d n ps = none := by
  simp only [Genetic.columnOperators, Genetic.scaledOperators, List.cons_append, List.nil_append, List.mem_cons,
    List.not_mem_nil, or_false] at h
  rcases h with rfl | rfl | rfl | rfl | rfl | rfl | rfl | rfl | rfl | rfl | rfl <;> exact ⟨by decide, rfl⟩

theorem plainCall_eq {n : String} (h : n ∈ Genetic.plainOperators) : ∃ name method,
    polars.call n = some (numberOr name method) ∧ callsMethod method.toList = true ∧ n ∈ methodOperators := by
  simp only [Genetic.plainOperators, List.mem_cons, List.not_mem_nil, or_false] at h
  rcases h with rfl | rfl | rfl <;> exact ⟨_, _, rfl, by decide, by decide⟩

theorem LandsBelow.operator (h : LandsBelow Q fuel) {f : Func} {as : List Expr} {o : Genetic.Operator}
    (ho : o ∈ Genetic.operators) (hf : f.kindName = o.name) (hlength : as.length = o.takes.length)
    (hreceiver : o.name ∈ methodOperators → ∀ a ∈ as.head?, a.isScalar = false) (has : ∀ a ∈ as, Fueled Q fuel a)
    (short : Bool) : Lands Q ⟨.apply f as, Expr.textF polars (fuel + 1) short (.apply f as)⟩ := by
  have hlevel : Precedence.ofExpr (.apply f as) = Precedence.call := ofExpr_searchOperator ho hf
  have hpieces := h.each has
  -- where a method is called, it is called on the first argument
  have hreceives : ∀ {a : Expr} {rest : List Expr}, as = a :: rest → o.name ∈ methodOperators →
      Receives ⟨a, Expr.textF polars fuel true a⟩ := by
    rintro a rest rfl hmethod
    have ha := hreceiver hmethod a rfl
    exact ⟨ha, fun t ht => (has a (by simp)).guarded.endsInReceiver ha ht⟩
  rcases operator_cases o ho with ⟨hplain, hone⟩ | ⟨hplain, hforms⟩
  · obtain ⟨name, method, hcall, hcalls, hmethod⟩ := plainCall_eq hplain
    obtain ⟨a, rfl⟩ := List.length_eq_one_iff.mp (hlength.trans hone)
    obtain ⟨t, ht, hattaches⟩ := lands_numberOr (hpieces _ (by simp)) (hreceives rfl hmethod) hcalls name
    refine ⟨t, ?_, hattaches⟩
    dsimp only
    rw [Expr.textF_call _ _ _ (hf ▸ hcall), hlevel]
    exact ht
  · have hcall : polars.call f.kindName = (polarsForms.lookup o.name).map writeForm := by
      rw [hf]
      exact call_eq_of_not_plain hplain
    rcases hforms with ⟨form, hform, hmethodForm, htwo, hmethod⟩ | ⟨form, hform, hwithin⟩ | ⟨hnone, hcode, hname⟩
    · rw [show polarsForms.lookup o.name = some form from hform, Option.map_some] at hcall
      obtain ⟨a, b, rfl⟩ := List.length_eq_two.mp (hlength.trans htwo)
      obtain ⟨t, ht, hattaches⟩ := lands_methodForm (hpieces _ (by simp)) (hreceives rfl hmethod)
        (hpieces ⟨b, Expr.textF polars fuel true b⟩ (by simp)) hmethodForm
      refine ⟨t, ?_, hattaches⟩
      dsimp only
      rw [Expr.textF_call _ _ _ hcall, hlevel]
      exact ht
    · rw [show polarsForms.lookup o.name = some form from hform, Option.map_some] at hcall
      obtain ⟨t, ht, hattaches⟩ := lands_form hpieces (by simpa [hlength] using hwithin)
        (Precedence.ofExpr (.apply f as))
      exact ⟨t, (Expr.textF_call _ _ short hcall as).trans ht, hattaches⟩
    · rw [hnone, Option.map_none] at hcall
      obtain rfl : f = .named o.name := (func_of_operator ho hf).resolve_right fun h => hplain h.1
      obtain ⟨hmul, hreserved⟩ := reservedCall_eq_none hname polars
        (as.map fun a => ⟨a, Expr.textF polars fuel true a⟩)
      obtain ⟨t, ht, hattaches⟩ := lands_plainCall hpieces hcode
      exact ⟨t, (Expr.textF_plainCall _ _ short hcall rfl hmul hreserved).trans ht, hattaches⟩

/-- Guarded expressions have polars code, in which all methods are attached. A number has to be written as it is
within an expression. -/
theorem lands_textF (fuel : Nat) {e : Expr} (h : Fueled Q fuel e) (short : Bool)
    (hshort : short = true ∨ e.isScalar = false) : Lands Q ⟨e, Expr.textF polars fuel short e⟩ := by
  induction fuel generalizing short e with
  | zero => exact absurd h.fuel_pos (by decide)
  | succ fuel ih =>
    -- all that is written of a node is written with one step less
    have hbelow : LandsBelow Q fuel := fun a ha => ih ha true (Or.inl rfl)
    obtain ⟨hguarded, -, hfits⟩ := h
    have hsize : e.isScalar = false → e.size ≤ fuel := fun hs => by
      rcases hfits with hscalar | hlt
      · rw [hs] at hscalar
        cases hscalar
      · omega
    cases hguarded with
    | symbol hn => exact ⟨_, Expr.textF_symbol polars fuel short _, fun hq => attached_column (hn hq)⟩
    | scalar s =>
      obtain rfl : short = true := hshort.resolve_right (by simp [Expr.isScalar])
      exact ⟨_, Expr.textF_scalar polars fuel true s, fun _ => attached_scalar s⟩
    | @constant c _ =>
      refine ⟨(Expr.constant c).atomText, by unfold Expr.textF; rfl, Code.attaches ?_⟩
      cases c <;> decide
    | sum hall =>
      have hlt := hsize rfl
      rw [Expr.size] at hlt
      exact hbelow.sum (fueled_of_mem hall (by omega)) short
    | product hall =>
      have hlt := hsize rfl
      rw [Expr.size] at hlt
      exact hbelow.product (by omega) (fueled_of_mem hall (by omega)) short
    | @power b x hb hx =>
      have hlt := hsize rfl
      rw [Expr.size] at hlt
      have hbpos := b.one_le_size
      have hxpos := x.one_le_size
      exact hbelow.power (hb.fueled (by omega)) (hx.fueled (by omega)) short
    | extreme hf hlength hall =>
      have hlt := hsize rfl
      rw [Expr.size] at hlt
      exact hbelow.extreme hf hlength (fueled_of_mem hall (by omega)) short
    | operator ho hf hlength hreceiver hall =>
      have hlt := hsize rfl
      rw [Expr.size] at hlt
      exact hbelow.operator ho hf hlength hreceiver (fueled_of_mem hall (by omega)) short

end Guarded

end Target

end FactorPlan
