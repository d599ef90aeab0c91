import FactorPlan.Proofs.Building
import FactorPlan.Proofs.Columns

/-!
The two styles of generated code compared. Each form of a style writes the arguments at fixed
positions (`callShows_form`), so by induction on the fuel the text of an expression shows the
columns that the expression reads in that style (`shown_textF`, `readsColumn_iff`). The styles
read the same columns where they read the same arguments (`styles_read`), which a rank within
groups and a connective of three sides keep them from.
-/

namespace FactorPlan

namespace Target

variable {style : Style}

/-! ## Forms -/

/-- The position of the argument that a part of a form writes. -/
def Part.position? : Part → Option Nat
  | .text _ => none
  | .arg i => some i
  | .bound i => some i
  | .factor i => some i

/-- The text of a part has no quotes. -/
def Part.Unquoted : Part → Prop
  | .text s => Target.Unquoted s
  | _ => True

instance : DecidablePred Part.Unquoted
  | .text s => inferInstanceAs (Decidable (Unquoted s))
  | .arg _ => isTrue trivial
  | .bound _ => isTrue trivial
  | .factor _ => isTrue trivial

theorem picks_append {α : Type} (is js : List Nat) (as : List α) :
    picks (is ++ js) as = picks is as ++ picks js as := List.filterMap_append

theorem picks_singleton {ps : List Piece} {i : Nat} {p : Piece} (h : ps[i]? = some p) :
    picks [i] (ps.map (·.expr)) = [p.expr] := by
  simp [picks, h]

theorem shows_part {ps : List Piece} (hps : ∀ p ∈ ps, Shown style p) {level : Nat} {part : Part}
    (hpart : part.Unquoted) {t : String} (ht : part.write level ps = .ok t) :
    Shows style t (ReadsAny style (picks part.position?.toList (ps.map (·.expr)))) := by
  -- an argument that is there shows what it reads, in parentheses or not
  have harg : ∀ {i : Nat} {p : Piece} {u : String}, ps[i]? = some p →
      Shows style u (fun n => Reads style n p.expr) →
      Shows style u (ReadsAny style (picks [i] (ps.map (·.expr)))) := by
    intro i p u hp hu
    rw [picks_singleton hp]
    exact hu.congr fun n => by simp
  cases part with
  | text s =>
    cases ht
    exact (Shows.code hpart).congr fun n => by simp [Part.position?, picks]
  | arg i =>
    cases hp : ps[i]? with
    | none => simp [Part.write, hp] at ht
    | some p => exact harg hp (hps p (List.mem_of_getElem? hp) t (by simpa [Part.write, hp] using ht))
  | bound i =>
    cases hp : ps[i]? with
    | none => simp [Part.write, hp] at ht
    | some p => exact harg hp ((hps p (List.mem_of_getElem? hp)).within (by simpa [Part.write, hp] using ht))
  | factor i =>
    cases hp : ps[i]? with
    | none => simp [Part.write, hp] at ht
    | some p => exact harg hp ((hps p (List.mem_of_getElem? hp)).within (by simpa [Part.write, hp] using ht))

theorem shows_form {ps : List Piece} (hps : ∀ p ∈ ps, Shown style p) {level : Nat} {form : List Part}
    (hform : ∀ part ∈ form, part.Unquoted) {t : String} (ht : writeForm form level ps = .ok t) :
    Shows style t (ReadsAny style (picks (form.filterMap Part.position?) (ps.map (·.expr)))) := by
  induction form generalizing t with
  | nil => cases ht; exact (Shows.code (by decide)).congr fun n => by simp [picks]
  | cons part form ih =>
    obtain ⟨u, hu, ht⟩ := bind_eq_ok.mp ht
    obtain ⟨v, hv, ht⟩ := bind_eq_ok.mp ht
    cases ht
    have hpart := shows_part hps (hform part (by simp)) hu
    have hrest := ih (fun q hq => hform q (by simp [hq])) hv
    refine (hpart.append hrest).congr fun n => ?_
    rw [← readsAny_append, ← picks_append]
    cases hp : part.position? <;> simp [hp]

/-- The call shows the columns that its arguments at the listed positions read. -/
def CallShows (style : Style) (call : Nat → List Piece → Except PrintError String) (positions : List Nat) :
    Prop :=
  ∀ (level : Nat) (ps : List Piece), (∀ p ∈ ps, Shown style p) → ∀ t, call level ps = .ok t →
    Shows style t (ReadsAny style (picks positions (ps.map (·.expr))))

theorem callShows_form {form : List Part} {positions : List Nat} (hform : ∀ part ∈ form, part.Unquoted)
    (hperm : (form.filterMap Part.position?).Perm positions) :
    CallShows style (writeForm form) positions := by
  intro level ps hps t ht
  exact (shows_form hps hform ht).congr fun n => readsAny_congr fun e => (hperm.filterMap _).mem_iff

theorem callShows_numberOr {name method : String} (hname : Unquoted name) (hmethod : Unquoted method) :
    CallShows style (numberOr name method) [0] := by
  intro level ps hps t ht
  cases ps with
  | nil => cases ht
  | cons p ps =>
    have hpick : picks [0] ((p :: ps).map (·.expr)) = [p.expr] := rfl
    rw [hpick]
    unfold numberOr at ht
    dsimp only [List.getElem?_cons_zero] at ht
    split at ht
    · rename_i s hs
      cases ht
      rw [hs]
      refine (Shows.code ?_).congr fun n => by simp
      simp only [unquoted_append]
      exact ⟨⟨⟨hname, by decide⟩, unquoted_scalar s false⟩, by decide⟩
    · obtain ⟨u, hu, ht⟩ := bind_eq_ok.mp ht
      cases ht
      exact (((hps p (by simp)).within hu).append_code hmethod).congr fun n => by simp

/-- The forms of a style. -/
def Style.forms : Style → List (String × List Part)
  | .polars => polarsForms
  | .pandas => pandasForms

/-- The style has a form for calls of a kind, without quotes, that reads the listed positions. -/
def HasForm (style : Style) (kind : String) (positions : List Nat) : Prop :=
  ∃ form ∈ style.forms.lookup kind,
    (∀ part ∈ form, part.Unquoted) ∧ (form.filterMap Part.position?).Perm positions

instance (style : Style) (kind : String) (positions : List Nat) : Decidable (HasForm style kind positions) :=
  inferInstanceAs (Decidable (∃ _ ∈ _, _ ∧ _))

/-- The style writes calls of a kind so that they show what the listed positions read. -/
def CallsShow (style : Style) (kind : String) (positions : List Nat) : Prop :=
  ∃ call, style.dialect.call kind = some call ∧ CallShows style call positions

theorem call_eq_form {kind : String} (h : kind ≠ "log" ∧ kind ≠ "Abs" ∧ kind ≠ "sign") :
    style.dialect.call kind = (style.forms.lookup kind).map writeForm := by
  cases style with
  | polars =>
    simp only [Style.dialect, polars, Style.forms]
    split <;> simp_all
  | pandas =>
    simp only [Style.dialect, pandas, Style.forms]
    split <;> simp_all

theorem HasForm.callsShow {kind : String} {positions : List Nat} (h : HasForm style kind positions)
    (hkind : kind ≠ "log" ∧ kind ≠ "Abs" ∧ kind ≠ "sign") : CallsShow style kind positions := by
  obtain ⟨form, hlookup, hform, hperm⟩ := h
  refine ⟨writeForm form, ?_, callShows_form hform hperm⟩
  rw [call_eq_form hkind, hlookup]
  rfl

theorem callsShow_named {n : String} (hn : n = "gp_rank" ∨ n ∈ vocabulary.map (·.1)) :
    CallsShow style n (style.positions n) := by
  have hforms : ∀ m ∈ "gp_rank" :: vocabulary.map (·.1), m ≠ "sign" →
      HasForm style m (style.positions m) ∧ m ≠ "log" ∧ m ≠ "Abs" ∧ m ≠ "sign" := by
    cases style <;> decide +kernel
  by_cases hsign : n = "sign"
  · subst hsign
    cases style with
    | polars => exact ⟨_, rfl, callShows_numberOr (by decide) (by decide)⟩
    | pandas => exact ⟨_, rfl, callShows_form (by decide) (by decide)⟩
  · obtain ⟨hform, hkind⟩ := hforms n (List.mem_cons.mpr hn) hsign
    exact hform.callsShow hkind

/-! ## Sums and products -/

theorem Shows.fractionText {ns ds : List String} {num den : List Expr} (hns : ShowEach style ns num)
    (hds : ShowEach style ds den) :
    Shows style (Expr.fractionText ns ds) (fun n => ReadsAny style num n ∨ ReadsAny style den n) := by
  have hnum : Shows style ("*".intercalate (if ns.isEmpty then ["1"] else ns)) (ReadsAny style num) := by
    cases hns with
    | nil => exact (code (by decide)).congr fun n => by simp
    | cons h hs => exact intercalate (by decide) (.cons h hs)
  unfold Expr.fractionText
  dsimp only
  split
  · cases hds
    exact hnum.congr fun n => by simp
  · cases hds with
    | cons hd hds =>
      cases hds
      exact ((hnum.append_code (by decide)).append hd).congr fun n => by simp
  · have hden : Shows style ("*".intercalate ds) (ReadsAny style den) := intercalate (by decide) hds
    exact ((hnum.append_code (by decide)).append hden).append_code (by decide)

theorem ShowEach.wrapped {ds : List String} {den : List Expr} (h : ShowEach style ds den)
    (wrap : Expr → Bool) :
    ShowEach style ((den.zip ds).map fun p => if wrap p.1 then "(" ++ p.2 ++ ")" else p.2) den := by
  induction h with
  | nil => exact .nil
  | cons hd _ ih =>
    refine .cons ?_ ih
    dsimp only
    split
    · exact hd.parenthesized
    · exact hd

theorem Shows.of_minus {t : String} {P : String → Prop} (h : Shows style t P)
    (ht : t.startsWith "-" = true) : Shows style (String.ofList (t.toList.drop 1)) P := by
  obtain ⟨ns, hw, hns⟩ := h
  obtain ⟨u, hu⟩ := String.startsWith_string_iff.mp ht
  have hcons : t.toList = '-' :: u := hu.symm
  refine ⟨ns, ?_, hns⟩
  rw [hcons] at hw
  rw [String.toList_ofList, hcons]
  exact hw.of_cons (by cases style <;> decide)

theorem shows_signedTerm {p : Piece} (hp : Shown style p) {s : String × String}
    (hs : Expr.signedTerm p = .ok s) :
    Unquoted s.1 ∧ Shows style s.2 (fun n => Reads style n p.expr) := by
  obtain ⟨t, ht, hs⟩ := bind_eq_ok.mp hs
  have htext := hp t ht
  dsimp only at hs
  split at hs
  · rename_i hminus
    have hrest := htext.of_minus (Bool.and_eq_true_iff.mp hminus).1
    cases hs
    refine ⟨show Unquoted "-" by decide, ?_⟩
    dsimp only
    split
    · exact hrest.parenthesized
    · exact hrest
  · cases hs
    refine ⟨show Unquoted "+" by decide, ?_⟩
    dsimp only
    split
    · exact htext.parenthesized
    · exact htext

theorem showEach_signedTerms {ps : List Piece} (h : ∀ p ∈ ps, Shown style p) {ss : List (String × String)}
    (hss : Expr.signedTerms ps = .ok ss) : List.Forall₂ (fun s e => Unquoted s.1 ∧
      Shows style s.2 (fun n => Reads style n e)) ss (ps.map (·.expr)) := by
  induction ps generalizing ss with
  | nil => cases hss; exact .nil
  | cons p ps ih =>
    obtain ⟨t, ht, hss⟩ := bind_eq_ok.mp hss
    obtain ⟨us, hus, hss⟩ := bind_eq_ok.mp hss
    cases hss
    exact .cons (shows_signedTerm (h p (by simp)) ht) (ih (fun q hq => h q (by simp [hq])) hus)

theorem Shows.joinTerms {ss : List (String × String)} {es : List Expr} (h : List.Forall₂ (fun s e =>
      Unquoted s.1 ∧ Shows style s.2 (fun n => Reads style n e)) ss es) :
    Shows style (Expr.joinTerms ss) (ReadsAny style es) := by
  have hrest : ∀ {ss : List (String × String)} {es : List Expr}, List.Forall₂ (fun s e =>
      Unquoted s.1 ∧ Shows style s.2 (fun n => Reads style n e)) ss es →
      Shows style (String.join (ss.map fun s => " " ++ s.1 ++ " " ++ s.2)) (ReadsAny style es) := by
    intro ss es h
    induction h with
    | nil => exact (code (by decide)).congr fun n => by simp
    | cons hs _ ih =>
      rw [List.map_cons, String.join_cons]
      have hsign : Unquoted (" " ++ _ ++ " ") :=
        unquoted_append.mpr ⟨unquoted_append.mpr ⟨by decide, hs.1⟩, by decide⟩
      exact ((hs.2.code_append hsign).append ih).congr fun n => by simp
  cases h with
  | nil => exact (code (by decide)).congr fun n => by simp
  | @cons s _ _ _ hs hss =>
    have hsign := unquoted_ite (f := id) (p := s.1 = "+") (show Unquoted "" by decide) hs.1
    exact ((hs.2.code_append hsign).append (hrest hss)).congr fun n => by simp

/-! ## Expressions -/

/-- What the code of an expression may be made of: symbols with plain names, and the named functions
that have forms. -/
def covered : Stock where
  symbol := PlainName
  function f _ := f = "gp_rank" ∨ f ∈ vocabulary.map (·.1)
  open_first _ _ := id

section Supplies
variable {S : Stock}

theorem supplies_flipPower {e : Expr} (h : S.Supplies e) : S.Supplies e.flipPower := by
  unfold Expr.flipPower
  split
  · split <;> simp_all
  · split
    · rename_i b s rest _
      simp only [Stock.supplies_power, Stock.supplies_product, List.forall_mem_cons] at h ⊢
      exact ⟨h.1, Stock.supplies_provision.mp (Expr.supplies_rawProduct fun f hf =>
        Stock.supplies_provision.mpr (h.2.2 f hf))⟩
    · simp_all
  · exact h

end Supplies

section Nodes
variable {fuel : Nat}

/-- The pieces of expressions. -/
def pieces (style : Style) (fuel : Nat) (es : List Expr) : List Piece :=
  es.map fun a => ⟨a, Expr.textF style.dialect fuel true a⟩

theorem pieces_expr (es : List Expr) : (pieces style fuel es).map (·.expr) = es := by
  rw [pieces, List.map_map]
  exact List.map_id es

/-- The pieces of what is covered show what is read. -/
def ShownBelow (style : Style) (fuel : Nat) : Prop :=
  ∀ e, covered.Supplies e → Shown style ⟨e, Expr.textF style.dialect fuel true e⟩

theorem ShownBelow.each (h : ShownBelow style fuel) {es : List Expr} (hes : ∀ e ∈ es, covered.Supplies e) :
    ∀ p ∈ pieces style fuel es, Shown style p := by
  intro p hp
  obtain ⟨e, he, rfl⟩ := List.mem_map.mp hp
  exact h e (hes e he)

theorem ShownBelow.sum (h : ShownBelow style fuel) {ts : List Expr} (hts : covered.Supplies (.sum ts))
    (short : Bool) : Shown style ⟨.sum ts, Expr.textF style.dialect (fuel + 1) short (.sum ts)⟩ := by
  intro t ht
  obtain ⟨ss, hss, ht⟩ := bind_eq_ok.mp ((Expr.textF_sum _ _ short ts).symm.trans ht)
  cases ht
  have hshown : ∀ p ∈ pieces style fuel (Expr.sum ts).orderedTerms, Shown style p := h.each fun e he =>
    (Stock.supplies_sum ts).mp hts e ((Expr.orderedTerms_perm _).mem_iff.mp he)
  refine (Shows.joinTerms (showEach_signedTerms hshown hss)).congr fun n => ?_
  rw [pieces_expr, readsAny_orderedTerms]

theorem showEach_leadTexts {ps : List Piece} (h : ∀ p ∈ ps, Shown style p) {level : Nat} {plain : Bool}
    {ts : List String} (hts : Expr.leadTexts level plain ps = .ok ts) :
    ShowEach style ts (ps.map (·.expr)) := by
  cases ps with
  | nil => cases hts; exact .nil
  | cons p ps =>
    obtain ⟨t, ht, hts⟩ := bind_eq_ok.mp hts
    obtain ⟨us, hus, hts⟩ := bind_eq_ok.mp hts
    cases hts
    refine .cons ?_ (showEach_allWithin (fun q hq => h q (by simp [hq])) hus)
    split at ht
    · exact h p (by simp) t ht
    · exact (h p (by simp)).within ht

theorem ShownBelow.asIs (h : ShownBelow style fuel) {fs : List Expr} (hfs : ∀ f ∈ fs, covered.Supplies f)
    {level : Nat} {t : String}
    (ht : Expr.asIsText (fun a => ⟨a, Expr.textF style.dialect fuel true a⟩) level fs = .ok t) :
    Shows style t (ReadsAny style fs) := by
  have hden : ∀ e ∈ (fs.filter Expr.isReciprocal).map Expr.flipPower, covered.Supplies e := by
    intro e he
    obtain ⟨f, hf, rfl⟩ := List.mem_map.mp he
    exact supplies_flipPower (hfs f (List.mem_filter.mp hf).1)
  rw [Expr.asIsText_eq] at ht
  obtain ⟨ns, hns, ht⟩ := bind_eq_ok.mp ht
  obtain ⟨ds, hds, ht⟩ := bind_eq_ok.mp ht
  cases ht
  have hshowsNum := showEach_leadTexts (h.each fun e he => hfs e (List.mem_filter.mp he).1) hns
  have hshowsDen := showEach_leadTexts (h.each hden) hds
  rw [pieces_expr] at hshowsNum hshowsDen
  refine (Shows.fractionText hshowsNum hshowsDen).congr fun n => ?_
  -- every factor is in the numerator or in the denominator
  rw [readsAny_map fun e _ => reads_flipPower e, ← readsAny_append]
  refine readsAny_congr fun e => ?_
  cases hr : e.isReciprocal <;> simp [hr]

theorem ShownBelow.product (h : ShownBelow style fuel) {fs : List Expr}
    (hfs : covered.Supplies (.product fs)) (short : Bool) :
    Shown style ⟨.product fs, Expr.textF style.dialect (fuel + 1) short (.product fs)⟩ := by
  intro t ht
  have hfactors := (Stock.supplies_product fs).mp hfs
  cases hw : Expr.writtenAsIs fs with
  | true =>
    rw [Expr.textF] at ht
    simp only [hw, if_true] at ht
    exact (h.asIs hfactors ht).congr fun n => by simp
  | false =>
    dsimp only at ht
    rw [Expr.textF_product _ _ _ hw] at ht
    obtain ⟨ns, hns, ht⟩ := bind_eq_ok.mp ht
    obtain ⟨ds, hds, ht⟩ := bind_eq_ok.mp ht
    cases ht
    have hshown := Expr.forall_signedFactors Stock.supplies_scalar (fun gs => (Stock.supplies_product gs).mp) hfactors
    have hnum := showEach_allWithin (h.each (List.forall_mem_flatMap.mpr fun f hf =>
      Expr.forall_numerators Stock.supplies_scalar (hshown f hf))) hns
    have hden := showEach_allWithin (h.each (List.forall_mem_flatMap.mpr fun f hf =>
      Expr.forall_denominators Stock.supplies_scalar (supplies_flipPower (hshown f hf)))) hds
    rw [pieces_expr] at hnum hden
    have hsign : Unquoted (Expr.signedFactors fs).1 := by
      unfold Expr.signedFactors
      exact unquoted_ite (f := Prod.fst) (show Unquoted "-" by decide) (show Unquoted "" by decide)
    have hwrapped := hden.wrapped fun e =>
      (Expr.signedFactors fs).2.contains (.power e Expr.negOne) && (e.isProduct || e.isPower)
    refine ((Shows.fractionText hnum hwrapped).code_append hsign).congr fun n => ?_
    rw [readsAny_fraction, readsAny_signedFactors, reads_product]

theorem ShownBelow.power (h : ShownBelow style fuel) {b x : Expr} (hbx : covered.Supplies (.power b x))
    (short : Bool) : Shown style ⟨.power b x, Expr.textF style.dialect (fuel + 1) short (.power b x)⟩ := by
  intro t ht
  obtain ⟨hb, hx⟩ := (Stock.supplies_power b x).mp hbx
  -- where the exponent is not written, it is a number
  have hbase : (∃ s, x = .scalar s) → ∀ n, Reads style n (.power b x) ↔ Reads style n b := by
    rintro ⟨s, rfl⟩ n
    simp
  rw [Expr.textF] at ht
  dsimp only at ht
  split at ht
  · rename_i hhalf
    obtain ⟨u, hu, ht⟩ := bind_eq_ok.mp ht
    cases ht
    exact (((h b hb u hu).code_append (by decide)).append_code (by decide)).congr fun n =>
      (hbase ⟨_, hhalf⟩ n).symm
  · split at ht
    · rename_i hhalf
      obtain ⟨u, hu, ht⟩ := bind_eq_ok.mp ht
      cases ht
      have hx := of_decide_eq_true (Bool.and_eq_true_iff.mp hhalf).1
      exact (((h b hb u hu).code_append (by decide)).append_code (by decide)).congr fun n =>
        (hbase ⟨_, hx⟩ n).symm
    · split at ht
      · rename_i hone
        obtain ⟨u, hu, ht⟩ := bind_eq_ok.mp ht
        cases ht
        have hx := of_decide_eq_true (Bool.and_eq_true_iff.mp hone).1
        exact (((h b hb).within hu).code_append (by decide)).congr fun n => (hbase ⟨_, hx⟩ n).symm
      · obtain ⟨u, hu, ht⟩ := bind_eq_ok.mp ht
        obtain ⟨v, hv, ht⟩ := bind_eq_ok.mp ht
        cases ht
        have hbx := (((h b hb).within hv).append_code (show Unquoted "**" by decide)).append ((h x hx).within hu)
        exact hbx.congr fun n => by simp

theorem ShownBelow.call (h : ShownBelow style fuel) {f : Func} {as : List Expr}
    (has : ∀ a ∈ as, covered.Supplies a) (positions : List Nat)
    (hcalls : CallsShow style f.kindName positions) (hread : style.argsRead f as = picks positions as)
    (short : Bool) : Shown style ⟨.apply f as, Expr.textF style.dialect (fuel + 1) short (.apply f as)⟩ := by
  intro t ht
  obtain ⟨call, hcall, hshows⟩ := hcalls
  have htext := (Expr.textF_call _ fuel short hcall as).symm.trans ht
  refine (hshows _ (pieces style fuel as) (h.each has) t htext).congr fun n => ?_
  rw [pieces_expr, ← hread, reads_apply]

theorem Shows.plainCall {ps : List Piece} (hps : ∀ p ∈ ps, Shown style p) {name : String}
    (hname : Unquoted name) {t : String} (ht : Dialect.plainCall name ps = .ok t) :
    Shows style t (ReadsAny style (ps.map (·.expr))) := by
  obtain ⟨ts, hts, ht⟩ := bind_eq_ok.mp ht
  cases ht
  have hargs := intercalate (show Unquoted ", " by decide) (showEach_allTexts hps hts)
  exact (hargs.code_append (unquoted_append.mpr ⟨hname, by decide⟩)).append_code (by decide)

theorem Shows.connective {ps : List Piece} (hps : ∀ p ∈ ps, Shown style p) {sep : String}
    (hsep : Unquoted sep) {level : Nat} {t : String}
    (ht : (do return sep.intercalate (← allWithin level ps)) = Except.ok t) :
    Shows style t (ReadsAny style (ps.map (·.expr))) := by
  obtain ⟨ts, hts, ht⟩ := bind_eq_ok.mp ht
  cases ht
  exact intercalate hsep (showEach_allWithin hps hts)

theorem ShownBelow.plain (h : ShownBelow style fuel) {f : Func} {as : List Expr}
    (has : ∀ a ∈ as, covered.Supplies a) (name : String) (hname : Unquoted name) {short : Bool}
    (htext : Expr.textF style.dialect (fuel + 1) short (.apply f as) =
      Dialect.plainCall name (pieces style fuel as)) (hread : style.argsRead f as = as) :
    Shown style ⟨.apply f as, Expr.textF style.dialect (fuel + 1) short (.apply f as)⟩ := by
  intro t ht
  refine (Shows.plainCall (h.each has) hname (htext.symm.trans ht)).congr fun n => ?_
  rw [pieces_expr, reads_apply, hread]

theorem ShownBelow.connective (h : ShownBelow style fuel) {f : Func} {as : List Expr}
    (has : ∀ a ∈ as, covered.Supplies a) (sep : String) (hsep : Unquoted sep) (level : Nat) {short : Bool}
    (hform : HasForm .pandas f.kindName [0, 1] ∧
      f.kindName ≠ "log" ∧ f.kindName ≠ "Abs" ∧ f.kindName ≠ "sign")
    (htext : Expr.textF Style.polars.dialect (fuel + 1) short (.apply f as) =
      (do return sep.intercalate (← allWithin level (pieces .polars fuel as))))
    (hread : style.argsRead f as = style.sides as) :
    Shown style ⟨.apply f as, Expr.textF style.dialect (fuel + 1) short (.apply f as)⟩ := by
  cases style with
  | pandas => exact h.call has _ (hform.1.callsShow hform.2) hread short
  | polars =>
    intro t ht
    refine (Shows.connective (h.each has) hsep (htext.symm.trans ht)).congr fun n => ?_
    rw [pieces_expr, reads_apply, hread, Style.sides]

theorem ShownBelow.comparison (h : ShownBelow style fuel) {r : Rel} {as : List Expr}
    (has : ∀ a ∈ as, covered.Supplies a) (heq : r ≠ .eq) (hne : r ≠ .ne) (short : Bool) :
    Shown style ⟨.apply (.rel r) as, Expr.textF style.dialect (fuel + 1) short (.apply (.rel r) as)⟩ := by
  intro t ht
  have hnone : style.dialect.call (Func.rel r).kindName = none := by
    cases style <;> cases r <;> first | rfl | contradiction
  have hread : style.argsRead (.rel r) as = as := by
    cases r <;> first | rfl | contradiction
  unfold Expr.textF at ht
  simp only [hnone] at ht
  split at ht <;> first | contradiction | skip
  rename_i p q hpq
  obtain ⟨x, hx, ht⟩ := bind_eq_ok.mp ht
  obtain ⟨y, hy, ht⟩ := bind_eq_ok.mp ht
  cases ht
  have hps : (∀ a ∈ [p, q], Shown style a) ∧ [p.expr, q.expr] = as := by
    have hexprs : (pieces style fuel as).map (·.expr) = as := pieces_expr as
    rw [← hexprs, pieces, hpq]
    exact ⟨hpq ▸ h.each has, rfl⟩
  have hsign : Unquoted (" " ++ Expr.relationSign r ++ " ") := by cases r <;> decide
  have hboth := ((hps.1 p (by simp)).within hx).append (((hps.1 q (by simp)).within hy).code_append hsign)
  simp only [String.append_assoc] at hboth ⊢
  refine hboth.congr fun n => ?_
  rw [reads_apply, hread, ← hps.2]
  simp

theorem ShownBelow.apply (h : ShownBelow style fuel) {f : Func} {as : List Expr}
    (hf : covered.Supplies (.apply f as)) (short : Bool) :
    Shown style ⟨.apply f as, Expr.textF style.dialect (fuel + 1) short (.apply f as)⟩ := by
  obtain ⟨hroot, has⟩ := (Stock.supplies_apply f as).mp hf
  -- a function is written as a call that the style knows, as a call by its own name, or with signs
  cases f with
  | named n =>
    have hcalls : CallsShow style n (style.positions n) := callsShow_named hroot
    exact h.call (f := .named n) has _ hcalls rfl short
  | log =>
    refine h.call has [0] ?_ rfl short
    cases style with
    | polars => exact ⟨_, rfl, callShows_numberOr (by decide) (by decide)⟩
    | pandas => exact ⟨_, rfl, callShows_form (by decide) (by decide)⟩
  | abs =>
    refine h.call has [0] ?_ rfl short
    cases style <;> exact ⟨_, rfl, callShows_numberOr (by decide) (by decide)⟩
  | max =>
    refine h.call has [0, 1] (HasForm.callsShow ?_ (by decide)) rfl short
    cases style <;> decide +kernel
  | min =>
    refine h.call has [0, 1] (HasForm.callsShow ?_ (by decide)) rfl short
    cases style <;> decide +kernel
  | floor =>
    refine h.plain has "floor" (by decide) ?_ rfl
    cases style <;> (unfold Expr.textF; rfl)
  | mod =>
    refine h.plain has "Mod" (by decide) ?_ rfl
    cases style <;> (unfold Expr.textF; rfl)
  | and =>
    refine h.connective has " & " (by decide) Precedence.bitAnd (by decide +kernel) ?_ rfl
    unfold Expr.textF
    rfl
  | or =>
    refine h.connective has " | " (by decide) Precedence.bitOr (by decide +kernel) ?_ rfl
    unfold Expr.textF
    rfl
  | xor =>
    refine h.connective has " ^ " (by decide) Precedence.bitXor (by decide +kernel) ?_ rfl
    unfold Expr.textF
    rfl
  | not =>
    cases style with
    | pandas => exact h.call has _ (HasForm.callsShow (by decide +kernel) (by decide)) rfl short
    | polars =>
      -- no call is known: a sign stands before the first argument, and no other is read
      intro t ht
      have hnone : Style.polars.dialect.call "Not" = none := rfl
      unfold Expr.textF at ht
      simp only [Func.kindName, hnone] at ht
      cases as with
      | nil => cases ht
      | cons a as =>
        obtain ⟨u, hu, ht⟩ := bind_eq_ok.mp ht
        cases ht
        exact (((h a (has a (by simp))).within hu).code_append (by decide)).congr fun n => by
          simp [Style.argsRead, picks]
  | rel r =>
    cases r with
    | eq =>
      refine h.call has _ (HasForm.callsShow ?_ (by decide)) rfl short
      cases style <;> decide +kernel
    | ne =>
      refine h.plain has "Ne" (by decide) ?_ rfl
      cases style <;> (unfold Expr.textF; rfl)
    | _ => exact h.comparison has (by decide) (by decide) short

theorem shown_textF (style : Style) (fuel : Nat) (short : Bool) {e : Expr} (he : covered.Supplies e) :
    Shown style ⟨e, Expr.textF style.dialect fuel short e⟩ := by
  -- what is written below is written with one level less
  induction fuel generalizing short e with
  | zero =>
    intro t ht
    rw [Expr.textF_zero] at ht
    cases ht
  | succ fuel ih =>
    have hbelow : ShownBelow style fuel := fun a ha => ih true ha
    cases e with
    | symbol n =>
      intro t ht
      rw [Expr.textF_symbol] at ht
      cases ht
      exact (Shows.symbol ((Stock.supplies_symbol n).mp he)).congr fun m => reads_symbol.symm
    | scalar s =>
      intro t ht
      rw [Expr.textF_scalar] at ht
      cases ht
      exact (Shows.code (unquoted_scalar s short)).congr fun m => by simp
    | constant c =>
      intro t ht
      unfold Expr.textF at ht
      cases ht
      exact (Shows.code (by cases c <;> decide)).congr fun m => by simp
    | truth b =>
      intro t ht
      unfold Expr.textF at ht
      cases ht
      exact (Shows.code (by cases b <;> decide)).congr fun m => by simp
    | sum ts => exact hbelow.sum he short
    | product fs => exact hbelow.product he short
    | power b x => exact hbelow.power he short
    | apply f as => exact hbelow.apply he short

end Nodes

/-! ## Both styles -/

/-- The code reads the column. -/
def ReadsColumn (style : Style) (code name : String) : Prop :=
  (style.dialect.symbol name).toList <:+: code.toList

/-- The styles read the same arguments of the node: it is no rank within groups, and a connective has
no more than two sides. -/
def SameArgs : Expr → Prop
  | .apply (.named n) _ => n ≠ "gp_rank"
  | .apply .and as => as.length ≤ 2
  | .apply .or as => as.length ≤ 2
  | .apply .xor as => as.length ≤ 2
  | _ => True

theorem sides_eq {as : List Expr} (h : as.length ≤ 2) : Style.pandas.sides as = as := by
  obtain _ | ⟨a, _ | ⟨b, _ | ⟨c, as⟩⟩⟩ := as
  · rfl
  · rfl
  · rfl
  · simp at h

theorem argsRead_eq {f : Func} {as : List Expr} (h : SameArgs (.apply f as)) :
    Style.polars.argsRead f as = Style.pandas.argsRead f as := by
  cases f with
  | named n =>
    have hn : n ≠ "gp_rank" := h
    simp only [Style.argsRead, Style.positions, if_neg hn]
  | and => exact (sides_eq h).symm
  | or => exact (sides_eq h).symm
  | xor => exact (sides_eq h).symm
  | rel r => cases r <;> rfl
  | _ => rfl

theorem mem_of_mem_argsRead {f : Func} {as : List Expr} {a : Expr} (h : a ∈ style.argsRead f as) : a ∈ as := by
  have hpicks : ∀ {positions : List Nat}, a ∈ picks positions as → a ∈ as := by
    intro positions ha
    obtain ⟨i, _, hi⟩ := List.mem_filterMap.mp ha
    exact List.mem_of_getElem? hi
  have hsides : a ∈ style.sides as → a ∈ as := by
    cases style with
    | polars => exact id
    | pandas => exact hpicks
  cases f with
  | named n => exact hpicks h
  | and => exact hsides h
  | or => exact hsides h
  | xor => exact hsides h
  | floor => exact h
  | mod => exact h
  | rel r =>
    cases r with
    | eq => exact hpicks h
    | _ => exact h
  | _ => exact hpicks h

theorem reads_iff_of_sameArgs {e : Expr} (h : ∀ a ∈ e.nodes, SameArgs a) (n : String) :
    Reads .polars n e ↔ Reads .pandas n e := by
  induction e using Expr.args_induction with
  | _ e ih =>
    rw [Expr.forall_mem_nodes] at h
    have hargs : ∀ a ∈ e.args, (Reads .polars n a ↔ Reads .pandas n a) := fun a ha => ih a ha (h.2 a ha)
    have hany : ∀ as : List Expr, (∀ a ∈ as, a ∈ e.args) → (ReadsAny .polars as n ↔ ReadsAny .pandas as n) :=
      fun as has => exists_congr fun a => and_congr_right fun ha => hargs a (has a ha)
    cases e with
    | sum ts => simpa using hany ts fun _ => id
    | product fs => simpa using hany fs fun _ => id
    | power b x => simp [hargs b (by simp [Expr.args]), hargs x (by simp [Expr.args])]
    | apply f as =>
      rw [reads_apply, reads_apply, ← argsRead_eq h.1]
      exact hany _ fun a ha => mem_of_mem_argsRead ha
    | _ => simp

theorem readsColumn_iff {e : Expr} (he : covered.Supplies e) {code : String}
    (hcode : e.write style.dialect = .ok code) {n : String} (hn : PlainName n) :
    ReadsColumn style code n ↔ Reads style n e :=
  (shown_textF style _ false he code hcode).occurs_iff hn

/-- Code in either style reads the columns of the arguments that the style reads. These are the same
columns where the styles read the same arguments of every node. -/
theorem styles_read {e : Expr} (he : covered.Supplies e) {s t : String} (hs : e.write polars = .ok s)
    (ht : e.write pandas = .ok t) {n : String} (hn : PlainName n) :
    (ReadsColumn .polars s n ↔ Reads .polars n e) ∧ (ReadsColumn .pandas t n ↔ Reads .pandas n e) ∧
      ((∀ a ∈ e.nodes, SameArgs a) → (ReadsColumn .polars s n ↔ ReadsColumn .pandas t n)) := by
  have hpolars : ReadsColumn .polars s n ↔ Reads .polars n e := @readsColumn_iff .polars e he s hs n hn
  have hpandas : ReadsColumn .pandas t n ↔ Reads .pandas n e := @readsColumn_iff .pandas e he t ht n hn
  refine ⟨hpolars, hpandas, fun hsame => ?_⟩
  rw [hpolars, hpandas]
  exact reads_iff_of_sameArgs hsame n

/-- The correlation of a factor, neutralised within sectors, with the size of another. -/
def correlation : Expr :=
  .apply (.named "ts_corr") [.apply (.named "gp_neutralize") [.symbol "sector", .symbol "CLOSE"],
    .apply .abs [.symbol "OPEN"], .symbol "n"]

theorem covered_correlation : covered.Supplies correlation := by
  simp only [correlation, Stock.supplies_apply, List.forall_mem_cons, Stock.supplies_symbol,
    List.not_mem_nil, false_imp_iff, implies_true, and_true]
  refine ⟨Or.inr (by decide), ⟨Or.inr (by decide), ?_, ?_⟩, ⟨trivial, ?_⟩, ?_⟩
  all_goals exact ⟨by decide, by decide, by decide⟩

theorem sameArgs_correlation : ∀ a ∈ correlation.nodes, SameArgs a := by
  simp [correlation, Expr.nodes, Expr.nodesList, SameArgs]

theorem polars_correlation : correlation.write polars =
    .ok "pl.rolling_corr(_neutralize(pl.col('CLOSE')), pl.col('OPEN').abs(), window_size=pl.col('n'), ddof=0)" := by
  have hcorr := fun fuel short as => Expr.textF_call polars fuel short (f := .named "ts_corr") rfl as
  have hneutral := fun fuel short as => Expr.textF_call polars fuel short (f := .named "gp_neutralize") rfl as
  have habs := fun fuel short as => Expr.textF_call polars fuel short (f := .abs) rfl as
  show Expr.textF polars 44 false correlation = _
  simp only [correlation, hcorr, hneutral, habs, List.map_cons, List.map_nil, Expr.textF_symbol]
  rfl

theorem pandas_correlation : correlation.write pandas =
    .ok "(_neutralize(df['CLOSE'])).rolling(df['n']).corr(df['OPEN'].abs(), ddof=0)" := by
  have hcorr := fun fuel short as => Expr.textF_call pandas fuel short (f := .named "ts_corr") rfl as
  have hneutral := fun fuel short as => Expr.textF_call pandas fuel short (f := .named "gp_neutralize") rfl as
  have habs := fun fuel short as => Expr.textF_call pandas fuel short (f := .abs) rfl as
  show Expr.textF pandas 44 false correlation = _
  simp only [correlation, hcorr, hneutral, habs, List.map_cons, List.map_nil, Expr.textF_symbol]
  rfl

theorem styles_read_correlation : ∃ s t, correlation.write polars = .ok s ∧ correlation.write pandas = .ok t ∧
    (ReadsColumn .polars s "OPEN" ↔ Reads .polars "OPEN" correlation) ∧
    (ReadsColumn .pandas t "OPEN" ↔ Reads .pandas "OPEN" correlation) ∧
    (ReadsColumn .polars s "OPEN" ↔ ReadsColumn .pandas t "OPEN") := by
  obtain ⟨hpolars, hpandas, hsame⟩ := styles_read (n := "OPEN") covered_correlation polars_correlation
    pandas_correlation ⟨by decide, by decide, by decide⟩
  exact ⟨_, _, polars_correlation, pandas_correlation, hpolars, hpandas, hsame sameArgs_correlation⟩

/-- The rank of a factor within sectors. -/
def rankWithin : Expr := .apply (.named "gp_rank") [.symbol "sw_l1", .symbol "CLOSE"]

/-- One style ranks the factor, the other one the sectors. -/
theorem rank_reads_sectors :
    rankWithin.write polars = .ok "_rank_pct(pl.col('CLOSE'))" ∧
      rankWithin.write pandas = .ok "df['sw_l1'].rank(pct=True)" ∧
      ReadsColumn .polars "_rank_pct(pl.col('CLOSE'))" "CLOSE" ∧
      ¬ ReadsColumn .pandas "df['sw_l1'].rank(pct=True)" "CLOSE" := by
  have hpolars := fun fuel short as => Expr.textF_call polars fuel short (f := .named "gp_rank") rfl as
  have hpandas := fun fuel short as => Expr.textF_call pandas fuel short (f := .named "gp_rank") rfl as
  refine ⟨?_, ?_, ⟨"_rank_pct(".toList, ")".toList, by decide⟩, ?_⟩
  · show Expr.textF polars 28 false rankWithin = _
    simp only [rankWithin, hpolars, List.map_cons, List.map_nil, Expr.textF_symbol]
    rfl
  · show Expr.textF pandas 28 false rankWithin = _
    simp only [rankWithin, hpandas, List.map_cons, List.map_nil, Expr.textF_symbol]
    rfl
  · unfold ReadsColumn
    decide

end Target

end FactorPlan
