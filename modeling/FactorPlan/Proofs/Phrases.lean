import FactorPlan.Formula.Parser
import FactorPlan.Proofs.Lexing

/-!
The grammar of formulas that code is generated in: names, whole and decimal numbers, quoted text, calls, powers,
products, sums and functions written in place, by rank from the tightest to the loosest. The
lexemes of a phrase can be told apart (`Phrase.separated`), so its text is read back as its
tokens.
-/

namespace FactorPlan

namespace Formula

/-! ## Phrases -/

/-- How tightly a phrase holds together. -/
inductive Rank where
  | primary | operand | factor | term | sum | expression
  deriving DecidableEq

abbrev mark (o : String) : Lexeme := .token (.op o)

abbrev word (n : String) : Lexeme := .token (.name n)

/-- A name that is no keyword. -/
def IsWord (n : String) : Prop := IsName n ∧ n ∉ keywords

instance (n : String) : Decidable (IsWord n) := inferInstanceAs (Decidable (_ ∧ _))

/-- Items with commas between them. -/
def commas : List (List Lexeme) → List Lexeme
  | [] => []
  | [a] => a
  | a :: b :: rest => a ++ mark "," :: .blank :: commas (b :: rest)

/-- Items with commas between them, and the same gap after each comma. -/
def spaced (gap : List Lexeme) : List (List Lexeme) → List Lexeme
  | [] => []
  | [a] => a
  | a :: b :: rest => a ++ mark "," :: (gap ++ spaced gap (b :: rest))

/-- A keyword argument. -/
def keyItem (k : String × List Lexeme × Tree) : List Lexeme := word k.1 :: mark "=" :: k.2.1

/-- The lexemes of a phrase of a rank, and the tree that they stand for. -/
inductive Phrase : Rank → List Lexeme → Tree → Prop
  | name {n : String} : IsWord n → Phrase .primary [word n] (.name n)
  | text {s : String} : Quotable s → Phrase .primary [.token (.text s)] (.text s)
  | group {xs : List Lexeme} {t : Tree} : Phrase .expression xs t →
      Phrase .primary (mark "(" :: (xs ++ [mark ")"])) t
  | member {xs : List Lexeme} {t : Tree} {n : String} : Phrase .primary xs t → IsWord n →
      Phrase .primary (xs ++ [mark ".", word n]) (.attribute t n)
  | call {xs : List Lexeme} {t : Tree} {args : List (List Lexeme × Tree)}
      {keys : List (String × List Lexeme × Tree)} : Phrase .primary xs t →
      (∀ a ∈ args, Phrase .expression a.1 a.2) → (∀ k ∈ keys, IsWord k.1) →
      (∀ k ∈ keys, Phrase .expression k.2.1 k.2.2) → (keys.map (·.1)).Nodup →
      Phrase .primary (xs ++ mark "(" :: (commas (args.map (·.1) ++ keys.map keyItem) ++ [mark ")"]))
        (.call t (args.map (·.2)) ((keys.map (·.1)).map some) (keys.map (·.2.2)))
  | int (n : Nat) : Phrase .operand [.token (.int n)] (.int n)
  | decimal (d : Decimal) : Phrase .operand [.decimal d] (.float d.value)
  | operand {xs : List Lexeme} {t : Tree} : Phrase .primary xs t → Phrase .operand xs t
  | factor {xs : List Lexeme} {t : Tree} : Phrase .operand xs t → Phrase .factor xs t
  | power {xs ys : List Lexeme} {b x : Tree} : Phrase .operand xs b → Phrase .factor ys x →
      Phrase .factor (xs ++ mark "**" :: ys) (.binary .pow b x)
  | minus {xs : List Lexeme} {t : Tree} : Phrase .factor xs t → Phrase .factor (mark "-" :: xs) (.unary .minus t)
  | term {xs : List Lexeme} {t : Tree} : Phrase .factor xs t → Phrase .term xs t
  | times {xs ys : List Lexeme} {a b : Tree} {o : String} {op : BinaryOp} :
      (o, op) ∈ [("*", BinaryOp.mul), ("/", .div)] → Phrase .term xs a → Phrase .factor ys b →
      Phrase .term (xs ++ mark o :: ys) (.binary op a b)
  | sum {xs : List Lexeme} {t : Tree} : Phrase .term xs t → Phrase .sum xs t
  | plus {xs ys : List Lexeme} {a b : Tree} {o : String} {op : BinaryOp} :
      (o, op) ∈ [("+", BinaryOp.add), ("-", .sub)] → Phrase .sum xs a → Phrase .term ys b →
      Phrase .sum (xs ++ .blank :: mark o :: .blank :: ys) (.binary op a b)
  | expression {xs : List Lexeme} {t : Tree} : Phrase .sum xs t → Phrase .expression xs t
  | lambda {n : String} {xs : List Lexeme} {t : Tree} : IsWord n → Phrase .expression xs t →
      Phrase .expression (word "lambda" :: .blank :: word n :: mark ":" :: .blank :: xs) (.lambda (.plain [n]) [] t)

/-! ## First and last lexemes -/

/-- The lexeme begins an operand. -/
def Lexeme.BeginsOperand : Lexeme → Prop
  | .token (.name n) => n ∉ keywords
  | .token (.int _) => True
  | .token (.float _) => True
  | .token (.text _) => True
  | .token (.op o) => o = "("
  | .decimal _ => True
  | _ => False

/-- The lexeme may begin a phrase of the rank. -/
def Rank.Opens : Rank → Lexeme → Prop
  | .primary, x => x.BeginsOperand
  | .operand, x => x.BeginsOperand
  | .expression, x => x = word "lambda" ∨ x = mark "-" ∨ x.BeginsOperand
  | _, x => x = mark "-" ∨ x.BeginsOperand

/-- The lexeme may end a phrase of the rank: after a number no attribute can follow. -/
def Rank.Closes (r : Rank) : Lexeme → Prop
  | .token (.name _) => True
  | .token (.int _) => r ≠ .primary
  | .token (.text _) => True
  | .token (.op o) => o = ")"
  | .decimal _ => r ≠ .primary
  | _ => False

variable {r : Rank} {xs ys : List Lexeme} {t : Tree}

theorem Phrase.opens (h : Phrase r xs t) : ∃ x ys, xs = x :: ys ∧ r.Opens x := by
  induction h with
  | name h => exact ⟨_, _, rfl, h.2⟩
  | text _ => exact ⟨_, _, rfl, trivial⟩
  | group _ _ => exact ⟨_, _, rfl, rfl⟩
  | member _ _ ih =>
    obtain ⟨x, ys, rfl, hx⟩ := ih
    exact ⟨x, _, rfl, hx⟩
  | call _ _ _ _ _ ih _ _ =>
    obtain ⟨x, ys, rfl, hx⟩ := ih
    exact ⟨x, _, rfl, hx⟩
  | int n => exact ⟨_, _, rfl, trivial⟩
  | decimal d => exact ⟨_, _, rfl, trivial⟩
  | operand _ ih => exact ih
  | factor _ ih =>
    obtain ⟨x, ys, rfl, hx⟩ := ih
    exact ⟨x, _, rfl, .inr hx⟩
  | power _ _ ih _ =>
    obtain ⟨x, ys, rfl, hx⟩ := ih
    exact ⟨x, _, rfl, .inr hx⟩
  | minus _ _ => exact ⟨_, _, rfl, .inl rfl⟩
  | term _ ih => exact ih
  | times _ _ _ ih _ =>
    obtain ⟨x, ys, rfl, hx⟩ := ih
    exact ⟨x, _, rfl, hx⟩
  | sum _ ih => exact ih
  | plus _ _ _ ih _ =>
    obtain ⟨x, ys, rfl, hx⟩ := ih
    exact ⟨x, _, rfl, hx⟩
  | expression _ ih =>
    obtain ⟨x, ys, rfl, hx⟩ := ih
    exact ⟨x, _, rfl, .inr hx⟩
  | lambda _ _ _ => exact ⟨_, _, rfl, .inl rfl⟩

theorem Phrase.ne_nil (h : Phrase r xs t) : xs ≠ [] := by
  obtain ⟨x, ys, rfl, _⟩ := h.opens
  simp

theorem Rank.Closes.mono {r s : Rank} {x : Lexeme} (h : r.Closes x) (hs : s ≠ .primary) : s.Closes x := by
  rcases x with _ | t | d
  · exact h
  · cases t with
    | int n => exact hs
    | _ => exact h
  · exact hs

theorem Phrase.closes (h : Phrase r xs t) : ∃ ys x, xs = ys ++ [x] ∧ r.Closes x := by
  induction h with
  | name _ => exact ⟨[], _, rfl, trivial⟩
  | text _ => exact ⟨[], _, rfl, trivial⟩
  | group _ _ => exact ⟨_ :: _, _, rfl, rfl⟩
  | @member xs _ n _ _ _ => exact ⟨xs ++ [mark "."], word n, by simp, trivial⟩
  | @call xs _ args keys _ _ _ _ _ _ _ _ =>
    exact ⟨xs ++ mark "(" :: commas (args.map (·.1) ++ keys.map keyItem), mark ")", by simp, rfl⟩
  | int n => exact ⟨[], _, rfl, show Rank.operand ≠ .primary by decide⟩
  | decimal d => exact ⟨[], _, rfl, show Rank.operand ≠ .primary by decide⟩
  | operand _ ih =>
    obtain ⟨ys, x, rfl, hx⟩ := ih
    exact ⟨ys, x, rfl, hx.mono (by decide)⟩
  | factor _ ih =>
    obtain ⟨ys, x, rfl, hx⟩ := ih
    exact ⟨ys, x, rfl, hx.mono (by decide)⟩
  | @power xs _ _ _ _ _ _ ih =>
    obtain ⟨ys, x, rfl, hx⟩ := ih
    exact ⟨xs ++ mark "**" :: ys, x, by simp, hx⟩
  | minus _ ih =>
    obtain ⟨ys, x, rfl, hx⟩ := ih
    exact ⟨mark "-" :: ys, x, rfl, hx⟩
  | term _ ih =>
    obtain ⟨ys, x, rfl, hx⟩ := ih
    exact ⟨ys, x, rfl, hx.mono (by decide)⟩
  | @times xs _ _ _ o _ _ _ _ _ ih =>
    obtain ⟨ys, x, rfl, hx⟩ := ih
    exact ⟨xs ++ mark o :: ys, x, by simp, hx.mono (by decide)⟩
  | sum _ ih =>
    obtain ⟨ys, x, rfl, hx⟩ := ih
    exact ⟨ys, x, rfl, hx.mono (by decide)⟩
  | @plus xs _ _ _ o _ _ _ _ _ ih =>
    obtain ⟨ys, x, rfl, hx⟩ := ih
    exact ⟨xs ++ .blank :: mark o :: .blank :: ys, x, by simp, hx.mono (by decide)⟩
  | expression _ ih =>
    obtain ⟨ys, x, rfl, hx⟩ := ih
    exact ⟨ys, x, rfl, hx.mono (by decide)⟩
  | @lambda n _ _ _ _ ih =>
    obtain ⟨ys, x, rfl, hx⟩ := ih
    exact ⟨word "lambda" :: .blank :: word n :: mark ":" :: .blank :: ys, x, rfl, hx⟩

/-! ## Neighbours -/

/-- What stands in names continues no operator, but a digit may continue a point. -/
theorem stops_of_isNameChar {o : String} {c : Char} (hc : isNameChar c = true)
    (hpoint : o = "." → c.isDigit = false) : (Token.op o).stops c = true := by
  have hall : ∀ p ∈ operators, ∀ d ∈ p.toList, isNameChar d = false := by decide
  simp only [Token.stops, Bool.and_eq_true, Bool.not_eq_true', List.any_eq_false, Bool.and_eq_false_iff]
  refine ⟨fun p hp h => ?_, ?_⟩
  · rw [ List.isPrefixOf_iff_prefix] at h
    have hmem : c ∈ p.toList := h.subset (by simp)
    simp [hall p hp c hmem] at hc
  · by_cases ho : o = "."
    · exact .inr (hpoint ho)
    · exact .inl (by simpa using ho)

theorem Rank.Opens.eq_or {x : Lexeme} (hx : r.Opens x) :
    x = word "lambda" ∨ x = mark "-" ∨ x.BeginsOperand := by
  cases r with
  | primary => exact .inr (.inr hx)
  | operand => exact .inr (.inr hx)
  | expression => exact hx
  | factor => exact .inr hx
  | term => exact .inr hx
  | sum => exact .inr hx

/-- The first character of a name. -/
theorem IsName.first {n : String} (h : IsName n) : ∃ c cs, (word n).chars = c :: cs ∧ isNameChar c = true := by
  obtain ⟨⟨c, cs, hn, hc, _⟩, _⟩ := h
  exact ⟨c, cs, hn, isNameChar_of_isNameStart hc⟩

/-- The first character of an operand. -/
theorem Lexeme.BeginsOperand.first {x : Lexeme} (hx : x.BeginsOperand) (hs : x.Spelled) :
    ∃ c cs, x.chars = c :: cs ∧ (isNameChar c = true ∨ c ∈ ['(', '\'']) := by
  rcases x with _ | t | d
  · exact hx.elim
  on_goal 2 =>
    obtain ⟨c, cs, hcs, hc⟩ := d.first
    exact ⟨c, cs, hcs, .inl (by simp [isNameChar, hc])⟩
  cases t with
  | name n =>
    obtain ⟨c, cs, hcs, hc⟩ := IsName.first hs
    exact ⟨c, cs, hcs, .inl hc⟩
  | int n =>
    obtain ⟨d, ds, hds⟩ := List.exists_cons_of_ne_nil (Nat.toDigits_ne_nil (n := n) (b := 10))
    have hd : d.isDigit = true := Nat.isDigit_of_mem_toDigits (b := 10) (n := n) (by decide) (by decide) (by simp [hds])
    exact ⟨d, ds, hds, .inl (by simp [isNameChar, hd])⟩
  | text s => exact ⟨_, _, rfl, .inr (by decide)⟩
  | op o =>
    obtain rfl : o = "(" := hx
    exact ⟨_, _, rfl, .inr (by decide)⟩
  | _ => exact hs.elim

/-- The first character of a phrase. -/
theorem Rank.Opens.first {x : Lexeme} (hx : r.Opens x) (hs : x.Spelled) :
    ∃ c cs, x.chars = c :: cs ∧ (isNameChar c = true ∨ c ∈ ['-', '(', '\'']) := by
  rcases hx.eq_or with rfl | rfl | hx
  · obtain ⟨c, cs, hcs, hc⟩ := IsName.first hs
    exact ⟨c, cs, hcs, .inl hc⟩
  · exact ⟨_, _, rfl, .inr (by decide)⟩
  · obtain ⟨c, cs, hcs, hc⟩ := hx.first hs
    exact ⟨c, cs, hcs, hc.imp_right (List.mem_cons_of_mem _)⟩

/-- What opens a phrase continues no operator but a point. -/
theorem Rank.Opens.apart {x : Lexeme} (hx : r.Opens x) (hs : x.Spelled) {o : String}
    (ho : o ∈ ["(", "**", "*", "/", "-", "="]) : (mark o).Apart x := by
  obtain ⟨c, cs, hcs, hc⟩ := hx.first hs
  intro d hd
  obtain rfl : c = d := by simpa [hcs] using hd
  rcases hc with hc | hc
  · exact stops_of_isNameChar hc fun h => absurd ho (by rw [h]; decide)
  · have hall : ∀ o ∈ ["(", "**", "*", "/", "-", "="], ∀ c ∈ ['-', '(', '\''], (Token.op o).stops c = true := by decide
    exact hall o ho c hc

/-- What closes a phrase is not continued by what may follow it. -/
theorem Rank.Closes.apart {x : Lexeme} (hx : r.Closes x) {y : Lexeme}
    (hy : y ∈ [.blank, mark ")", mark "**", mark "*", mark "/", mark ","] ∨
      r = .primary ∧ y ∈ [mark ".", mark "("]) : x.Apart y := by
  have hchar : ∀ c ∈ y.chars.head?, c ∈ [' ', ')', '*', '/', ','] ∨ r = .primary ∧ c ∈ ['.', '('] := by
    have hfollow : ∀ y ∈ [.blank, mark ")", mark "**", mark "*", mark "/", mark ","],
        ∀ c ∈ y.chars.head?, c ∈ [' ', ')', '*', '/', ','] := by decide
    have hprimary : ∀ y ∈ [mark ".", mark "("], ∀ c ∈ y.chars.head?, c ∈ ['.', '('] := by decide
    exact fun c hc => hy.imp (fun hy => hfollow y hy c hc) fun hy => ⟨hy.1, hprimary y hy.2 c hc⟩
  have hany : ∀ c ∈ y.chars.head?, c ∈ [' ', ')', '*', '/', ',', '.', '('] := fun c hc => by
    rcases hchar c hc with hc | ⟨_, hc⟩
    · exact List.mem_append_left ['.', '('] hc
    · exact List.mem_append_right [' ', ')', '*', '/', ','] hc
  have hnumber : r ≠ .primary → ∀ c ∈ y.chars.head?, (Token.int 0).stops c = true := by
    have hall : ∀ c ∈ [' ', ')', '*', '/', ','], (Token.int 0).stops c = true := by decide
    exact fun hr c hc => hall c ((hchar c hc).resolve_right fun h => hr h.1)
  rcases x with _ | t | d
  · exact hx.elim
  on_goal 2 => exact hnumber hx
  cases t with
  | name n =>
    have hall : ∀ c ∈ [' ', ')', '*', '/', ',', '.', '('], (Token.name "").stops c = true := by decide
    exact fun c hc => hall c (hany c hc)
  | int n => exact hnumber hx
  | text s =>
    have hall : ∀ c ∈ [' ', ')', '*', '/', ',', '.', '('], (Token.text "").stops c = true := by decide
    exact fun c hc => hall c (hany c hc)
  | op o =>
    obtain rfl : o = ")" := hx
    have hall : ∀ c ∈ [' ', ')', '*', '/', ',', '.', '('], (Token.op ")").stops c = true := by decide
    exact fun c hc => hall c (hany c hc)
  | _ => exact hx.elim

theorem separated_append : Separated (xs ++ ys) ↔
    Separated xs ∧ Separated ys ∧ ∀ x ∈ xs.getLast?, ∀ y ∈ ys.head?, x.Apart y := by
  constructor
  · intro h
    obtain ⟨hxs, hys, hjoin⟩ := List.isChain_append.mp h.apart
    exact ⟨⟨fun x hx => h.spelled x (by simp [hx]), hxs⟩, ⟨fun x hx => h.spelled x (by simp [hx]), hys⟩, hjoin⟩
  · rintro ⟨hxs, hys, hjoin⟩
    refine ⟨fun x hx => ?_, List.isChain_append.mpr ⟨hxs.apart, hys.apart, hjoin⟩⟩
    rcases List.mem_append.mp hx with hx | hx
    · exact hxs.spelled x hx
    · exact hys.spelled x hx

theorem separated_cons {x : Lexeme} : Separated (x :: xs) ↔
    x.Spelled ∧ Separated xs ∧ ∀ y ∈ xs.head?, x.Apart y := by
  have hsingle : Separated [x] ↔ x.Spelled :=
    ⟨fun h => h.spelled x (by simp), fun h => ⟨by simpa using h, List.isChain_singleton x⟩⟩
  rw [← List.singleton_append, separated_append, hsingle]
  simp

theorem separated_nil : Separated [] := ⟨by simp, List.isChain_nil⟩

theorem Separated.followed {y : Lexeme} (hxs : Separated xs) (hys : Separated (y :: ys))
    (h : ∀ x ∈ xs.getLast?, x.Apart y) : Separated (xs ++ y :: ys) :=
  separated_append.mpr ⟨hxs, hys, fun x hx z hz => by
    obtain rfl : y = z := by simpa using hz
    exact h x hx⟩

theorem separated_close : Separated [mark ")"] :=
  separated_cons.mpr ⟨show ")" ∈ marks by decide, separated_nil, by simp⟩

theorem mark_apart_blank {o : String} (ho : o ∈ ["+", "-", ",", ":"]) :
    ∀ y ∈ (Lexeme.blank :: xs).head?, (mark o).Apart y := by
  have hall : ∀ o ∈ ["+", "-", ",", ":"], ∀ c ∈ [' '].head?, (Token.op o).stops c = true := by decide
  intro y hy
  obtain rfl : Lexeme.blank = y := by simpa using hy
  exact hall o ho

theorem Phrase.head_opens (h : Phrase r xs t) : ∀ x ∈ xs.head?, r.Opens x := by
  obtain ⟨x, ys, rfl, hx⟩ := h.opens
  simpa using hx

theorem Phrase.last_closes (h : Phrase r xs t) : ∀ x ∈ xs.getLast?, r.Closes x := by
  obtain ⟨ys, x, rfl, hx⟩ := h.closes
  simpa using hx

/-- Lexemes that can stand between brackets and commas. -/
structure Item (xs : List Lexeme) : Prop where
  separated : Separated xs
  ne_nil : xs ≠ []
  opens : ∀ x ∈ xs.head?, (mark "(").Apart x
  closes : ∀ x ∈ xs.getLast?, Rank.expression.Closes x

theorem Phrase.apart_head (h : Phrase r xs t) (hs : Separated xs) {o : String}
    (ho : o ∈ ["(", "**", "*", "/", "-", "="]) : ∀ x ∈ xs.head?, (mark o).Apart x := fun x hx =>
  (h.head_opens x hx).apart (hs.spelled x (List.mem_of_head? hx)) ho

theorem Phrase.item (h : Phrase r xs t) (hs : Separated xs) : Item xs where
  separated := hs
  ne_nil := h.ne_nil
  opens := h.apart_head hs (by decide)
  closes x hx := (h.last_closes x hx).mono (by decide)

theorem mark_apart_word {n : String} (hn : IsName n) (o : String) : (mark o).Apart (word n) := by
  obtain ⟨⟨c, cs, hcs, hc, _⟩, _⟩ := hn
  intro d hd
  obtain rfl : c = d := by simpa [Lexeme.chars, Token.chars, hcs] using hd
  refine stops_of_isNameChar (isNameChar_of_isNameStart hc) fun _ => ?_
  rw [Bool.eq_false_iff]
  intro hdigit
  simp [isNameStart_of_isDigit hdigit] at hc

theorem word_apart_mark (n : String) {o : String} (ho : o ∈ ["=", ":"]) : (word n).Apart (mark o) := by
  have hall : ∀ o ∈ ["=", ":"], ∀ c ∈ o.toList.head?, (Token.name "").stops c = true := by decide
  exact hall o ho

theorem getLast?_append_cons_of_ne_nil {x : Lexeme} (hys : ys ≠ []) : (xs ++ x :: ys).getLast? = ys.getLast? := by
  rw [List.getLast?_append_of_ne_nil _ (by simp), List.getLast?_cons_of_ne_nil hys]

theorem Item.keyItem {k : String × List Lexeme × Tree} (hword : IsWord k.1) (h : Phrase .expression k.2.1 k.2.2)
    (hs : Separated k.2.1) : Item (keyItem k) where
  separated := by
    refine separated_cons.mpr ⟨hword.1, separated_cons.mpr ⟨?_, hs, h.apart_head hs (by decide)⟩, ?_⟩
    · exact show "=" ∈ marks by decide
    · simpa using word_apart_mark k.1 (by decide)
  ne_nil := by simp [Formula.keyItem]
  opens := by simpa [Formula.keyItem] using mark_apart_word hword.1 "("
  closes := by
    rw [Formula.keyItem, List.getLast?_cons_of_ne_nil (by simp), List.getLast?_cons_of_ne_nil h.ne_nil]
    exact h.last_closes

/-- No character continues a comma. -/
theorem comma_apart (y : Lexeme) : (mark ",").Apart y := by
  intro c _
  have hall : ∀ p ∈ operators, p.toList.head? = some ',' → p.toList = [','] := by decide
  simp only [Token.stops, Bool.and_eq_true, Bool.not_eq_true', List.any_eq_false]
  refine ⟨fun p hp h => ?_, rfl⟩
  rw [ List.isPrefixOf_iff_prefix] at h
  obtain ⟨rest, hrest⟩ := h
  rw [hall p hp (by rw [← hrest]; rfl)] at hrest
  simp at hrest

/-- Items with commas between them can stand between brackets. -/
theorem item_spaced {gap : List Lexeme} (hgap : gap = [] ∨ gap = [.blank]) {items : List (List Lexeme)}
    (h : ∀ a ∈ items, Item a) (hne : items ≠ []) : Item (spaced gap items) := by
  induction items with
  | nil => exact absurd rfl hne
  | cons a items ih =>
    have ha := h a (by simp)
    cases items with
    | nil => exact ha
    | cons b items =>
      have hrest := ih (fun c hc => h c (by simp [hc])) (by simp)
      have hspace : Separated (gap ++ spaced gap (b :: items)) := by
        rcases hgap with rfl | rfl
        · exact hrest.separated
        · exact separated_cons.mpr ⟨trivial, hrest.separated, fun _ _ => trivial⟩
      have hcomma : Separated (mark "," :: (gap ++ spaced gap (b :: items))) := separated_cons.mpr
        ⟨show "," ∈ marks by decide, hspace, fun y _ => comma_apart y⟩
      refine ⟨?_, by simp [spaced], ?_, ?_⟩
      · exact ha.separated.followed hcomma fun x hx => (ha.closes x hx).apart (.inl (by decide))
      · rw [spaced, List.head?_append_of_ne_nil _ ha.ne_nil]
        exact ha.opens
      · rw [spaced, getLast?_append_cons_of_ne_nil (by simp [hrest.ne_nil]),
          List.getLast?_append_of_ne_nil _ hrest.ne_nil]
        exact hrest.closes

theorem commas_eq_spaced (items : List (List Lexeme)) : commas items = spaced [.blank] items := by
  fun_induction commas items with
  | case1 => rfl
  | case2 a => rfl
  | case3 a b rest ih => rw [spaced, ih]; rfl

theorem item_commas {items : List (List Lexeme)} (h : ∀ a ∈ items, Item a) (hne : items ≠ []) :
    Item (commas items) := by
  rw [commas_eq_spaced]
  exact item_spaced (.inr rfl) h hne

/-- A phrase, an operator and another phrase can be told apart. -/
theorem Phrase.separated_mark {r s : Rank} {t u : Tree} (h : Phrase r xs t) (h' : Phrase s ys u) (hxs : Separated xs)
    (hys : Separated ys) {o : String} (ho : o ∈ ["**", "*", "/"]) : Separated (xs ++ mark o :: ys) := by
  have hmarks : ∀ o ∈ ["**", "*", "/"], o ∈ marks ∧ mark o ∈ [.blank, mark ")", mark "**", mark "*", mark "/", mark ","] ∧
      o ∈ ["(", "**", "*", "/", "-", "="] := by decide
  obtain ⟨hmark, hfollow, hopen⟩ := hmarks o ho
  exact hxs.followed (separated_cons.mpr ⟨hmark, hys, h'.apart_head hys hopen⟩) fun x hx =>
    (h.last_closes x hx).apart (.inl hfollow)

/-- Arguments in parentheses can be told apart. -/
theorem separated_arguments {items : List (List Lexeme)} (h : ∀ a ∈ items, Item a) :
    Separated (mark "(" :: (commas items ++ [mark ")"])) := by
  have hopen : "(" ∈ marks := by decide
  cases items with
  | nil =>
    have hempty : (mark "(").Apart (mark ")") := show ∀ c ∈ [')'].head?, (Token.op "(").stops c = true by decide
    exact separated_cons.mpr ⟨hopen, separated_close, by simpa [commas] using hempty⟩
  | cons a items =>
    have hitem := item_commas h (by simp)
    refine separated_cons.mpr ⟨hopen, hitem.separated.followed separated_close fun x hx =>
      (hitem.closes x hx).apart (.inl (by decide)), ?_⟩
    rw [List.head?_append_of_ne_nil _ hitem.ne_nil]
    exact hitem.opens

theorem Phrase.separated_call {args : List (List Lexeme × Tree)} {keys : List (String × List Lexeme × Tree)}
    (h : Phrase .primary xs t) (hxs : Separated xs) (hargs : ∀ a ∈ args, Phrase .expression a.1 a.2)
    (ihargs : ∀ a ∈ args, Separated a.1) (hwords : ∀ k ∈ keys, IsWord k.1)
    (hkeys : ∀ k ∈ keys, Phrase .expression k.2.1 k.2.2) (ihkeys : ∀ k ∈ keys, Separated k.2.1) :
    Separated (xs ++ mark "(" :: (commas (args.map (·.1) ++ keys.map keyItem) ++ [mark ")"])) := by
  have hitems : ∀ a ∈ args.map (·.1) ++ keys.map keyItem, Item a := by
    intro a ha
    rcases List.mem_append.mp ha with ha | ha
    · obtain ⟨b, hb, rfl⟩ := List.mem_map.mp ha
      exact (hargs b hb).item (ihargs b hb)
    · obtain ⟨k, hk, rfl⟩ := List.mem_map.mp ha
      exact .keyItem (hwords k hk) (hkeys k hk) (ihkeys k hk)
  exact hxs.followed (separated_arguments hitems) fun x hx => (h.last_closes x hx).apart (.inr ⟨rfl, by decide⟩)

theorem Phrase.separated (h : Phrase r xs t) : Separated xs := by
  induction h with
  | name h => exact separated_cons.mpr ⟨h.1, separated_nil, by simp⟩
  | text h => exact separated_cons.mpr ⟨h, separated_nil, by simp⟩
  | group h ih =>
    refine separated_cons.mpr ⟨show "(" ∈ marks by decide, ih.followed separated_close fun x hx =>
      (h.last_closes x hx).apart (.inl (by decide)), ?_⟩
    rw [List.head?_append_of_ne_nil _ h.ne_nil]
    exact h.apart_head ih (by decide)
  | member h hn ih =>
    refine ih.followed (separated_cons.mpr ⟨show "." ∈ marks by decide,
      separated_cons.mpr ⟨hn.1, separated_nil, by simp⟩, by simpa using mark_apart_word hn.1 "."⟩) fun x hx => ?_
    exact (h.last_closes x hx).apart (.inr ⟨rfl, by decide⟩)
  | call h hargs hwords hkeys _ ih ihargs ihkeys => exact h.separated_call ih hargs ihargs hwords hkeys ihkeys
  | int n => exact separated_cons.mpr ⟨trivial, separated_nil, by simp⟩
  | decimal d => exact separated_cons.mpr ⟨trivial, separated_nil, by simp⟩
  | operand _ ih => exact ih
  | factor _ ih => exact ih
  | power h h' ih ih' => exact h.separated_mark h' ih ih' (by decide)
  | minus h ih => exact separated_cons.mpr ⟨show "-" ∈ marks by decide, ih, h.apart_head ih (by decide)⟩
  | term _ ih => exact ih
  | times ho h h' ih ih' =>
    refine h.separated_mark h' ih ih' ?_
    simp only [List.mem_cons, Prod.mk.injEq, List.not_mem_nil, or_false] at ho
    rcases ho with ⟨rfl, _⟩ | ⟨rfl, _⟩ <;> decide
  | sum _ ih => exact ih
  | @plus xs ys _ _ o _ ho h h' ih ih' =>
    have hmark : o ∈ marks ∧ o ∈ ["+", "-", ",", ":"] := by
      simp only [List.mem_cons, Prod.mk.injEq, List.not_mem_nil, or_false] at ho
      rcases ho with ⟨rfl, _⟩ | ⟨rfl, _⟩ <;> decide
    have hterm : Separated (.blank :: mark o :: .blank :: ys) := separated_cons.mpr ⟨trivial, separated_cons.mpr
      ⟨hmark.1, separated_cons.mpr ⟨trivial, ih', fun _ _ => trivial⟩, mark_apart_blank hmark.2⟩, fun _ _ => trivial⟩
    exact ih.followed hterm fun x hx => (h.last_closes x hx).apart (.inl (by decide))
  | expression _ ih => exact ih
  | @lambda n xs _ hn h ih =>
    have hblank : (word "lambda").Apart .blank := show ∀ c ∈ [' '].head?, (Token.name "lambda").stops c = true by decide
    have hbody : Separated (mark ":" :: .blank :: xs) := separated_cons.mpr ⟨show ":" ∈ marks by decide,
      separated_cons.mpr ⟨trivial, ih, fun _ _ => trivial⟩, mark_apart_blank (by decide)⟩
    have hname : Separated (word n :: mark ":" :: .blank :: xs) :=
      separated_cons.mpr ⟨hn.1, hbody, by simpa using word_apart_mark n (by decide)⟩
    exact separated_cons.mpr ⟨show IsName "lambda" by decide,
      separated_cons.mpr ⟨trivial, hname, fun _ _ => trivial⟩, by simpa using hblank⟩

end Formula

end FactorPlan
