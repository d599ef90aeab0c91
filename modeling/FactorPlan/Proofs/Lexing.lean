import Mathlib.Data.List.Chain
import FactorPlan.Formula.Format

/-!
Reading the tokens of text that is spelled out from tokens. A token is read back where the
character after it cannot continue it (`tokens_cons_token`), so a text is read back as the
tokens it is spelled from where neighbours stand apart (`readTokens_spell`).
-/

namespace FactorPlan

namespace Formula

/-! ## Characters -/

/-- What holds of the characters of a text is decided for these, not for all characters there are. -/
instance decidableForallChars {p : Char → Prop} [DecidablePred p] (cs : List Char) : Decidable (∀ c ∈ cs, p c) :=
  List.decidableBAll p cs

instance decidableForallChar {p : Char → Prop} [DecidablePred p] (c : Option Char) : Decidable (∀ d ∈ c, p d) :=
  Option.decidableForallMem c

/-! ## Spelling -/

/-- A decimal number as it is written: digits, and after them a point with more digits, an exponent
with its sign, or both. -/
structure Decimal where
  whole : List Char
  fraction : Option (List Char)
  /-- Whether the exponent is negative, and its digits. -/
  exponent : Option (Bool × List Char)
  whole_ne_nil : whole ≠ []
  whole_digits : ∀ c ∈ whole, c.isDigit = true
  fraction_digits : ∀ cs ∈ fraction, ∀ c ∈ cs, c.isDigit = true
  exponent_ne_nil : ∀ p ∈ exponent, p.2 ≠ []
  exponent_digits : ∀ p ∈ exponent, ∀ c ∈ p.2, c.isDigit = true
  given : fraction.isSome = true ∨ exponent.isSome = true
  deriving DecidableEq, Repr

namespace Decimal

variable (d : Decimal)

/-- The point and the digits after it. -/
def fractionChars : List Char := d.fraction.elim [] ('.' :: ·)

def exponentChars : List Char := d.exponent.elim [] fun p => 'e' :: (if p.1 then '-' else '+') :: p.2

def chars : List Char := d.whole ++ (d.fractionChars ++ d.exponentChars)

def exponentValue : Option Int := d.exponent.map fun p => (if p.1 then -1 else 1) * digitsValue 10 p.2

def value : Double := decimalValue d.whole (d.fraction.getD []) (d.exponentValue.getD 0)

end Decimal

/-- A token of a text, a decimal number as it is written, or a blank between tokens. -/
inductive Lexeme where
  | blank
  | token (t : Token)
  | decimal (d : Decimal)
  deriving DecidableEq

/-- The characters of a token. -/
def Token.chars : Token → List Char
  | .name s => s.toList
  | .int n => Nat.toDigits 10 n
  | .text s => '\'' :: (s.toList ++ ['\''])
  | .op o => o.toList
  | _ => []

def Lexeme.chars : Lexeme → List Char
  | .blank => [' ']
  | .token t => t.chars
  | .decimal d => d.chars

/-- The text of lexemes. -/
def spell (xs : List Lexeme) : List Char := xs.flatMap Lexeme.chars

/-- The tokens among lexemes. -/
def tokensOf (xs : List Lexeme) : List Token :=
  xs.filterMap fun x => match x with
    | .blank => none
    | .token t => some t
    | .decimal d => some (.float d.value)

@[simp] theorem spell_nil : spell [] = [] := rfl

@[simp] theorem spell_cons (x : Lexeme) (xs : List Lexeme) : spell (x :: xs) = x.chars ++ spell xs := rfl

@[simp] theorem spell_append (xs ys : List Lexeme) : spell (xs ++ ys) = spell xs ++ spell ys :=
  List.flatMap_append

@[simp] theorem tokensOf_nil : tokensOf [] = [] := rfl

@[simp] theorem tokensOf_blank (xs : List Lexeme) : tokensOf (.blank :: xs) = tokensOf xs := rfl

@[simp] theorem tokensOf_token (t : Token) (xs : List Lexeme) :
    tokensOf (.token t :: xs) = t :: tokensOf xs := rfl

@[simp] theorem tokensOf_decimal (d : Decimal) (xs : List Lexeme) :
    tokensOf (.decimal d :: xs) = .float d.value :: tokensOf xs := rfl

@[simp] theorem tokensOf_append (xs ys : List Lexeme) : tokensOf (xs ++ ys) = tokensOf xs ++ tokensOf ys :=
  List.filterMap_append

/-- A name in its normal form: a letter or underscore with letters, digits and underscores after it. -/
def IsName (s : String) : Prop :=
  (∃ c cs, s.toList = c :: cs ∧ isNameStart c = true ∧ ∀ d ∈ cs, isNameChar d = true) ∧
    Text.Unicode.normal s.toList = s.toList

theorem isName_iff (s : String) :
    IsName s ↔ (s.toList.head?.any isNameStart = true ∧ s.toList.tail.all isNameChar = true) ∧
      Text.Unicode.normal s.toList = s.toList := by
  unfold IsName
  cases s.toList <;> simp

instance (s : String) : Decidable (IsName s) := decidable_of_iff _ (isName_iff s).symm

/-- A text that quotes can be put around as it stands. -/
def Quotable (s : String) : Prop := ∀ c ∈ s.toList, c ∉ ['\'', '\\', '\n', '\r', '\x00']

instance (s : String) : Decidable (Quotable s) := inferInstanceAs (Decidable (∀ c ∈ _, _))

/-- The operators of generated code. -/
def marks : List String := ["(", ")", "**", "*", "/", "-", "+", ",", ".", "=", ":"]

/-- The token has a spelling of its own. -/
def Token.Spelled : Token → Prop
  | .name s => IsName s
  | .int _ => True
  | .text s => Quotable s
  | .op o => o ∈ marks
  | _ => False

def Lexeme.Spelled : Lexeme → Prop
  | .token t => t.Spelled
  | _ => True

/-- The character after a token does not continue it. -/
def Token.stops : Token → Char → Bool
  | .name _, c => !isNameChar c && c != '\'' && c != '"'
  | .int _, c => !isNameChar c && c != '.'
  | .float _, c => !isNameChar c && c != '.'
  | .text _, c => c != '\''
  | .op o, c => !(operators.any fun p => (o.toList ++ [c]).isPrefixOf p.toList) && !(o == "." && c.isDigit)
  | _, _ => false

/-- The token ends where the text begins. -/
def Token.EndsBefore (t : Token) (cs : List Char) : Prop := ∀ c ∈ cs.head?, t.stops c = true

/-- One lexeme can follow the other at once. -/
def Lexeme.Apart : Lexeme → Lexeme → Prop
  | .blank, _ => True
  | .token t, y => t.EndsBefore y.chars
  | .decimal d, y => (Token.float d.value).EndsBefore y.chars

/-- Lexemes that can be told apart in the text they spell. -/
structure Separated (xs : List Lexeme) : Prop where
  spelled : ∀ x ∈ xs, x.Spelled
  apart : xs.IsChain Lexeme.Apart

/-! ## Tokens -/

/-- What is read where the text begins with no line end, comment or escape. -/
theorem tokens_cons {c : Char} (h : c ∉ ['\n', '\\', '#']) (fuel depth : Nat) (rest : List Char) :
    tokens (fuel + 1) depth (c :: rest) =
      if isBlank c then tokens fuel depth rest
      else match quoteStart? [] 2 (c :: rest) with
      | some letters => (textToken letters ((c :: rest).drop letters.length)).bind fun p =>
          (tokens fuel depth p.2).map (p.1 :: ·)
      | none =>
        if isNameStart c then
          (tokens fuel depth ((c :: rest).dropWhile isNameChar)).map
            (.name (String.ofList (Text.Unicode.normal ((c :: rest).takeWhile isNameChar))) :: ·)
        else if c.isDigit || (c = '.' && (rest.head?.map Char.isDigit).getD false) then
          (numberToken (c :: rest)).bind fun p => (tokens fuel depth p.2).map (p.1 :: ·)
        else
          (operatorToken (c :: rest)).bind fun p => (tokens fuel (depthAfter depth p.1) p.2).map (.op p.1 :: ·) := by
  have hne : c ≠ '\n' ∧ c ≠ '\\' ∧ c ≠ '#' := by simpa using h
  rw [tokens]
  · -- the branches read one token and the rest of the text
    congr 1
    rcases quoteStart? [] 2 (c :: rest) with _ | letters
    · dsimp only
      congr 1
      congr 1
      · rcases numberToken (c :: rest) with _ | ⟨t, more⟩ <;> rfl
      · rcases operatorToken (c :: rest) with _ | ⟨o, more⟩ <;> rfl
    · dsimp only
      rcases textToken letters ((c :: rest).drop letters.length) with _ | ⟨t, more⟩ <;> rfl
  all_goals simp [hne]

/-- A run of characters with a property ends where the rest has not the property at once. -/
theorem span_append {p : Char → Bool} {cs rest : List Char} (hcs : ∀ c ∈ cs, p c = true)
    (hrest : ∀ c ∈ rest.head?, p c = false) :
    (cs ++ rest).takeWhile p = cs ∧ (cs ++ rest).dropWhile p = rest := by
  have hstop : rest.takeWhile p = [] ∧ rest.dropWhile p = rest := by
    cases rest with
    | nil => exact ⟨rfl, rfl⟩
    | cons c rest =>
      have hc := hrest c (by simp)
      simp [hc]
  rw [List.takeWhile_append_of_pos hcs, List.dropWhile_append_of_pos hcs, hstop.1, hstop.2]
  exact ⟨List.append_nil cs, rfl⟩

theorem isNameChar_of_isNameStart {c : Char} (h : isNameStart c = true) : isNameChar c = true := by
  simp [isNameChar, h]

theorem isBlank_of_isNameChar {c : Char} (h : isNameChar c = true) : isBlank c = false := by
  rw [Bool.eq_false_iff]
  intro hb
  simp only [isBlank, Bool.or_eq_true, beq_iff_eq] at hb
  have hc : c = ' ' ∨ c = '\t' ∨ c = Char.ofNat 12 := by
    rcases hb with (rfl | rfl) | hb
    · simp
    · simp
    · exact .inr (.inr (by rw [← hb, Char.ofNat_toNat]))
  rcases hc with rfl | rfl | rfl <;> revert h <;> decide

/-! ### Names -/

/-- No text begins with a character that is no quote and stands before none. -/
theorem quoteStart?_cons {c : Char} (hquote : c ≠ '"' ∧ c ≠ '\'') (hletter : quoteLetters.lookup c = none)
    (letters : List Char) (count : Nat) (rest : List Char) : quoteStart? letters count (c :: rest) = none := by
  unfold quoteStart?
  rw [if_neg (by simp [hquote]), hletter]
  cases count <;> rfl

theorem lookup_quoteLetters {c : Char} (h : ∀ p ∈ quoteLetters, c ≠ p.1) : quoteLetters.lookup c = none := by
  rcases hletter : quoteLetters.lookup c with _ | l
  · rfl
  · obtain ⟨before, after, heq, -⟩ := List.lookup_eq_some_iff.mp hletter
    exact absurd rfl (h (c, l) (by simp [heq]))

theorem isNameChar_of_quoteLetter {c l : Char} (h : quoteLetters.lookup c = some l) : isNameChar c = true := by
  have hall : ∀ p ∈ quoteLetters, isNameChar p.1 = true := by decide
  obtain ⟨before, after, heq, -⟩ := List.lookup_eq_some_iff.mp h
  exact hall (c, l) (by simp [heq])

/-- No text begins with characters of a name that no quote follows. -/
theorem quoteStart?_word {word rest : List Char} (hword : ∀ c ∈ word, isNameChar c = true)
    (hrest : ∀ c ∈ rest.head?, isNameChar c = false ∧ c ≠ '"' ∧ c ≠ '\'') (letters : List Char) (count : Nat) :
    quoteStart? letters count (word ++ rest) = none := by
  induction word generalizing letters count with
  | nil =>
    cases rest with
    | nil => rfl
    | cons c rest =>
      obtain ⟨hname, hquote⟩ := hrest c rfl
      refine quoteStart?_cons hquote ?_ letters count rest
      rcases hletter : quoteLetters.lookup c with _ | l
      · rfl
      · simp [isNameChar_of_quoteLetter hletter] at hname
  | cons c word ih =>
    have hc := hword c (by simp)
    have hquote : ¬ (c = '"' || c = '\'') = true := by
      rw [Bool.or_eq_true, decide_eq_true_eq, decide_eq_true_eq]
      rintro (rfl | rfl) <;> revert hc <;> decide
    rw [List.cons_append]
    unfold quoteStart?
    rw [if_neg hquote]
    split
    · exact ih (fun d hd => hword d (by simp [hd])) _ _
    · rfl

theorem tokens_name {s : String} (hs : IsName s) {rest : List Char} (hrest : (Token.name s).EndsBefore rest)
    (fuel depth : Nat) : tokens (fuel + 1) depth (s.toList ++ rest) =
      (tokens fuel depth rest).map (.name s :: ·) := by
  obtain ⟨⟨c, cs, hs, hc, hcs⟩, hnormal⟩ := hs
  have hne : ∀ d, isNameStart d = false → c ≠ d := fun d hd heq => by simp [← heq, hc] at hd
  have hword : ∀ d ∈ c :: cs, isNameChar d = true := by
    simpa [isNameChar_of_isNameStart hc] using hcs
  have hend : ∀ d ∈ rest.head?, isNameChar d = false ∧ d ≠ '"' ∧ d ≠ '\'' := fun d hd => by
    have hd := hrest d hd
    simp only [Token.stops, Bool.and_eq_true, Bool.not_eq_true', bne_iff_ne] at hd
    exact ⟨hd.1.1, hd.2, hd.1.2⟩
  have hstart := quoteStart?_word hword hend [] 2
  obtain ⟨htake, hdrop⟩ := span_append hword fun d hd => (hend d hd).1
  rw [List.cons_append] at hstart htake hdrop
  have hlines : c ∉ ['\n', '\\', '#'] := by
    simp [hne '\n' (by decide), hne '\\' (by decide), hne '#' (by decide)]
  rw [hs] at hnormal
  rw [hs, List.cons_append, tokens_cons hlines, htake, hdrop, hnormal, ← hs, String.ofList_toList, hstart]
  simp only [isBlank_of_isNameChar (isNameChar_of_isNameStart hc), hc, Bool.false_eq_true, if_false, if_true]

/-! ## Numbers -/

theorem head_toDigits {n : Nat} (h : (Nat.toDigits 10 n).head? = some '0') : n = 0 := by
  induction n using Nat.strongRecOn with
  | ind n ih =>
    by_cases hn : n < 10
    · rw [Nat.toDigits_of_lt_base hn] at h
      have hall : ∀ m < 10, [Nat.digitChar m].head? = some '0' → m = 0 := by decide
      exact hall n hn h
    · rw [Nat.toDigits_of_base_le (by decide) (by omega), List.head?_append_of_ne_nil _ Nat.toDigits_ne_nil] at h
      have := ih (n / 10) (by omega) h
      omega

theorem digitValue_of_isDigit {c : Char} (h : c.isDigit = true) : digitValue c = c.toNat - '0'.toNat := by
  simp [digitValue, h]

theorem digitsValue_toDigits (n : Nat) : digitsValue 10 (Nat.toDigits 10 n) = n := by
  have hfold : ∀ (cs : List Char) (init : Nat), (∀ c ∈ cs, c.isDigit = true) →
      cs.foldl (fun n c => n * 10 + digitValue c) init = Nat.ofDigitChars 10 cs init := by
    intro cs
    induction cs with
    | nil => intro init _; rfl
    | cons c cs ih =>
      intro init h
      rw [List.foldl_cons, Nat.ofDigitChars_cons, ih _ fun d hd => h d (by simp [hd]),
        digitValue_of_isDigit (h c (by simp)), Nat.mul_comm]
  rw [digitsValue, hfold _ _ fun c hc => Nat.isDigit_of_mem_toDigits (by decide) (by decide) hc]
  exact Nat.ofDigitChars_ten_toDigits

theorem digitValue_lt_ten {c : Char} : digitValue c < 10 ↔ c.isDigit = true := by
  constructor
  · intro h
    by_contra hc
    simp only [digitValue, hc] at h
    split at h
    · contradiction
    · split at h
      · omega
      · split at h <;> omega
  · intro h
    rw [digitValue_of_isDigit h]
    simp only [Char.isDigit, Bool.and_eq_true, decide_eq_true_eq] at h
    have hle : c.toNat ≤ 57 := h.2
    show c.toNat - 48 < 10
    omega

theorem singleUnderscores_of_not_mem {cs : List Char} (h : '_' ∉ cs) : singleUnderscores cs = true := by
  induction cs with
  | nil => rfl
  | cons c cs ih =>
    have hc : c ≠ '_' := fun heq => h (by simp [heq])
    rw [singleUnderscores]
    · exact ih fun hmem => h (by simp [hmem])
    · simp [hc]

/-- Digits end where no digit and no underscore follows. -/
theorem digitRun_digits {ds rest : List Char} (hds : ∀ c ∈ ds, c.isDigit = true)
    (hrest : ∀ c ∈ rest.head?, c.isDigit = false ∧ c ≠ '_') : digitRun 10 (ds ++ rest) = some (ds, rest) := by
  have hunder : '_' ∉ ds := fun h => absurd (hds '_' h) (by decide)
  have hrun : ∀ c ∈ ds, (decide (digitValue c < 10) || c == '_') = true := fun c hc => by
    simp [digitValue_lt_ten, hds c hc]
  have hend : ∀ c ∈ rest.head?, (decide (digitValue c < 10) || c == '_') = false := fun c hc => by
    obtain ⟨hdigit, hne⟩ := hrest c hc
    have hten : ¬ digitValue c < 10 := by simp [digitValue_lt_ten, hdigit]
    simp [hten, hne]
  have hspan := span_append (p := fun c => decide (digitValue c < 10) || c == '_') hrun hend
  unfold digitRun
  simp only [hspan.1, hspan.2]
  have hfirst : ds.head? ≠ some '_' := fun h => hunder (List.mem_of_head? h)
  have hlast : ds.getLast? ≠ some '_' := fun h => hunder (List.mem_of_getLast? h)
  have hfilter : ds.filter (· ≠ '_') = ds := by
    rw [List.filter_eq_self]
    intro c hc
    simpa using fun heq : c = '_' => hunder (heq ▸ hc)
  simp only [hfirst, hlast, singleUnderscores_of_not_mem hunder, hfilter, if_false, decide_false, Bool.not_true,
    Bool.or_self, Bool.false_eq_true]

/-- What stands in no name is no digit and no underscore. -/
theorem digit_of_isNameChar {c : Char} (h : isNameChar c = false) : c.isDigit = false ∧ c ≠ '_' := by
  simp only [isNameChar, isNameStart, Bool.or_eq_false_iff] at h
  exact ⟨h.1.2, by simpa using h.1.1.1.2⟩

theorem exponentRun_none {rest : List Char} (h : ∀ c ∈ rest.head?, isNameChar c = false) :
    exponentRun rest = some (none, rest) := by
  cases rest with
  | nil => rfl
  | cons c rest =>
    have hc := h c (by simp)
    have hne : ∀ d, isNameChar d = true → c ≠ d := fun d hd heq => by simp [← heq, hc] at hd
    simp [exponentRun, hne 'e' (by decide), hne 'E' (by decide)]

/-- A number in base 10 is read where nothing continues it. -/
theorem numberToken_of_decimalToken {cs rest : List Char} {t : Token}
    (hsecond : ∀ a b more, cs = a :: b :: more → b ∉ ['x', 'X', 'o', 'O', 'b', 'B'])
    (h : decimalToken cs = some (t, rest)) (hrest : ∀ c ∈ rest.head?, isNameChar c = false) :
    numberToken cs = some (t, rest) := by
  have hends : endsNumber rest = true := by
    cases rest with
    | nil => rfl
    | cons c rest => simp [endsNumber, hrest c rfl]
  unfold numberToken
  split
  iterate 6 exact absurd (hsecond _ _ _ rfl) (by decide)
  simp [h, hends]

theorem numberToken_toDigits (n : Nat) {rest : List Char} (hrest : (Token.int n).EndsBefore rest) :
    numberToken (Nat.toDigits 10 n ++ rest) = some (.int n, rest) := by
  have hstop : ∀ c ∈ rest.head?, isNameChar c = false ∧ c ≠ '.' := fun c hc => by
    simpa [Token.stops] using hrest c hc
  have hdigit : ∀ c ∈ Nat.toDigits 10 n, c.isDigit = true := fun c hc =>
    Nat.isDigit_of_mem_toDigits (by decide) (by decide) hc
  refine numberToken_of_decimalToken (fun a b more heq hmem => ?_) ?_ fun c hc => (hstop c hc).1
  · -- no letter stands in the second place, so the number has no base of its own
    have hletter : ∀ c ∈ ['x', 'X', 'o', 'O', 'b', 'B'], isNameChar c = true ∧ c.isDigit = false := by decide
    rcases hds : Nat.toDigits 10 n with _ | ⟨d, _ | ⟨e, ds⟩⟩
    · exact absurd hds Nat.toDigits_ne_nil
    · rw [hds, List.singleton_append] at heq
      have hb := (hstop b (by rw [(List.cons.inj heq).2]; rfl)).1
      simp [(hletter b hmem).1] at hb
    · rw [hds] at heq
      obtain ⟨_, heq⟩ := List.cons.inj heq
      obtain ⟨rfl, _⟩ := List.cons.inj heq
      have he := hdigit e (by simp [hds])
      simp [(hletter e hmem).2] at he
  · have hrun := digitRun_digits hdigit fun c hc => digit_of_isNameChar (hstop c hc).1
    have hfraction : fractionRun rest = some (none, rest) := by
      cases rest with
      | nil => rfl
      | cons c rest =>
        rw [fractionRun]
        simpa using (hstop c (by simp)).2
    have hexponent : exponentRun rest = some (none, rest) := exponentRun_none fun c hc => (hstop c hc).1
    have hreal : ¬ (rest.head? = some 'j' ∨ rest.head? = some 'J') := by
      rintro (h | h)
      all_goals exact absurd (hstop _ h).1 (by decide)
    have hzero : ¬ ((Nat.toDigits 10 n).head? = some '0' ∧ (Nat.toDigits 10 n).any (· ≠ '0')) := by
      rintro ⟨hhead, hany⟩
      obtain rfl := head_toDigits hhead
      revert hany
      decide
    simp only [decimalToken, hrun, hfraction, hexponent, digitsValue_toDigits, bind, Option.bind, if_neg hreal,
      if_neg hzero, Option.isSome_none, Bool.or_self, Bool.false_eq_true, if_false]
    rfl

theorem isNameStart_of_isDigit {c : Char} (h : c.isDigit = true) : isNameStart c = false := by
  simp only [Char.isDigit, Bool.and_eq_true, decide_eq_true_eq] at h
  have hlow : 48 ≤ c.toNat := h.1
  have hhigh : c.toNat ≤ 57 := h.2
  have halpha : c.isAlpha = false := by
    rw [Bool.eq_false_iff]
    intro hc
    rcases Bool.or_eq_true_iff.mp (show (c.isUpper || c.isLower) = true from hc) with hc | hc
    · have hupper : c.val ≥ 'A'.val ∧ c.val ≤ 'Z'.val := of_decide_eq_true hc
      have : 65 ≤ c.toNat := hupper.1
      omega
    · have hlower : (decide (c.val ≥ 'a'.val) && decide (c.val ≤ 'z'.val)) = true := hc
      have : 97 ≤ c.toNat := of_decide_eq_true (Bool.and_eq_true_iff.mp hlower).1
      omega
  have hunder : c ≠ '_' := by rintro rfl; revert hhigh; decide
  have hbeyond : ¬ 128 ≤ c.toNat := by omega
  simp [isNameStart, halpha, hunder, hbeyond]

/-- A number is read where a digit stands first. -/
theorem tokens_number {d : Char} (hd : d.isDigit = true) {ds rest : List Char} {t : Token}
    (h : numberToken (d :: ds) = some (t, rest)) (fuel depth : Nat) :
    tokens (fuel + 1) depth (d :: ds) = (tokens fuel depth rest).map (t :: ·) := by
  have hne : ∀ c, c.isDigit = false → d ≠ c := fun c hc heq => by simp [← heq, hd] at hc
  have hblank : isBlank d = false := isBlank_of_isNameChar (by simp [isNameChar, hd])
  have hletter : ∀ p ∈ quoteLetters, p.1.isDigit = false := by decide
  have hstart := quoteStart?_cons ⟨hne '"' (by decide), hne '\'' (by decide)⟩
    (lookup_quoteLetters fun p hp => hne p.1 (hletter p hp)) [] 2 ds
  rw [tokens_cons (by simp [hne '\n' (by decide), hne '\\' (by decide), hne '#' (by decide)]), h, hstart]
  simp [hblank, isNameStart_of_isDigit hd, hd]

theorem tokens_int (n : Nat) {rest : List Char} (hrest : (Token.int n).EndsBefore rest) (fuel depth : Nat) :
    tokens (fuel + 1) depth (Nat.toDigits 10 n ++ rest) = (tokens fuel depth rest).map (.int n :: ·) := by
  obtain ⟨d, ds, hds⟩ := List.exists_cons_of_ne_nil (Nat.toDigits_ne_nil (n := n) (b := 10))
  have hd : d.isDigit = true := Nat.isDigit_of_mem_toDigits (b := 10) (n := n) (by decide) (by decide) (by simp [hds])
  have hnumber := numberToken_toDigits n hrest
  rw [hds, List.cons_append] at hnumber ⊢
  exact tokens_number hd hnumber fuel depth

/-! ### Decimal numbers -/

namespace Decimal

variable {d : Decimal} {rest : List Char}

theorem exponentRun_append (hrest : ∀ c ∈ rest.head?, isNameChar c = false) :
    exponentRun (d.exponentChars ++ rest) = some (d.exponentValue, rest) := by
  rcases he : d.exponent with _ | ⟨negative, es⟩
  · simpa [exponentChars, exponentValue, he] using exponentRun_none hrest
  · obtain ⟨e, es', rfl⟩ := List.exists_cons_of_ne_nil (d.exponent_ne_nil _ he)
    have hrun := digitRun_digits (d.exponent_digits _ he) fun c hc => digit_of_isNameChar (hrest c hc)
    rw [List.cons_append] at hrun
    cases negative <;> simp [exponentChars, exponentValue, he, exponentRun, hrun]

/-- What stands after the digits at the start. -/
theorem head_tail : ∀ c ∈ (d.fractionChars ++ (d.exponentChars ++ rest)).head?, c = '.' ∨ c = 'e' := by
  intro c hc
  rcases hf : d.fraction with _ | fs
  · rcases he : d.exponent with _ | p
    · rcases d.given with h | h <;> simp [hf, he] at h
    · have hc : 'e' = c := by simpa [fractionChars, exponentChars, hf, he] using hc
      exact .inr hc.symm
  · have hc : '.' = c := by simpa [fractionChars, hf] using hc
    exact .inl hc.symm

theorem fractionRun_append (hrest : ∀ c ∈ rest.head?, isNameChar c = false ∧ c ≠ '.') :
    fractionRun (d.fractionChars ++ (d.exponentChars ++ rest)) = some (d.fraction, d.exponentChars ++ rest) := by
  have hnext : ∀ c ∈ (d.exponentChars ++ rest).head?, (c.isDigit = false ∧ c ≠ '_') ∧ c ≠ '.' := by
    intro c hc
    rcases he : d.exponent with _ | p
    · obtain ⟨hname, hpoint⟩ := hrest c (by simpa [exponentChars, he] using hc)
      exact ⟨digit_of_isNameChar hname, hpoint⟩
    · obtain rfl : 'e' = c := by simpa [exponentChars, he] using hc
      decide
  rcases hf : d.fraction with _ | fs
  · rw [fractionChars, hf, Option.elim_none, List.nil_append, fractionRun]
    intro more heq
    exact (hnext '.' (by rw [heq]; rfl)).2 rfl
  · have hrun := digitRun_digits (d.fraction_digits fs hf) fun c hc => (hnext c hc).1
    simp [fractionChars, hf, fractionRun, hrun]

end Decimal

/-- A decimal number is read as it is written, where nothing continues it. -/
theorem numberToken_decimal (d : Decimal) {rest : List Char} (hrest : (Token.float d.value).EndsBefore rest) :
    numberToken (d.chars ++ rest) = some (.float d.value, rest) := by
  have hstop : ∀ c ∈ rest.head?, isNameChar c = false ∧ c ≠ '.' := fun c hc => by
    simpa [Token.stops] using hrest c hc
  have htext : d.chars ++ rest = d.whole ++ (d.fractionChars ++ (d.exponentChars ++ rest)) := by
    simp [Decimal.chars]
  refine numberToken_of_decimalToken (fun a b more heq hmem => ?_) ?_ fun c hc => (hstop c hc).1
  · have hletter : ∀ c ∈ ['x', 'X', 'o', 'O', 'b', 'B'], c.isDigit = false ∧ ¬ (c = '.' ∨ c = 'e') := by decide
    rw [htext] at heq
    rcases hds : d.whole with _ | ⟨d', _ | ⟨e, ds⟩⟩
    · exact absurd hds d.whole_ne_nil
    · rw [hds, List.singleton_append] at heq
      exact (hletter b hmem).2 (Decimal.head_tail b (by rw [(List.cons.inj heq).2]; rfl))
    · rw [hds] at heq
      obtain ⟨_, heq⟩ := List.cons.inj heq
      obtain ⟨rfl, _⟩ := List.cons.inj heq
      have he := d.whole_digits e (by simp [hds])
      simp [(hletter e hmem).1] at he
  · have hrun : digitRun 10 (d.chars ++ rest) = some (d.whole, d.fractionChars ++ (d.exponentChars ++ rest)) := by
      rw [htext]
      refine digitRun_digits d.whole_digits fun c hc => ?_
      rcases Decimal.head_tail c hc with rfl | rfl <;> decide
    have hreal : ¬ (rest.head? = some 'j' ∨ rest.head? = some 'J') := by
      rintro (h | h)
      all_goals exact absurd (hstop _ h).1 (by decide)
    have hgiven : (d.fraction.isSome || d.exponentValue.isSome) = true := by
      simpa [Decimal.exponentValue] using d.given
    simp only [decimalToken, hrun, Decimal.fractionRun_append hstop,
      Decimal.exponentRun_append fun c hc => (hstop c hc).1, bind, Option.bind, if_neg hreal, hgiven, if_true]
    rfl

/-! ## Quoted text -/

theorem quotedRun_append {cs : List Char} (h : ∀ c ∈ cs, c ∉ ['\'', '\\', '\n', '\r', '\x00']) (rest : List Char) :
    quotedRun '\'' (cs ++ '\'' :: rest) = some (cs, rest) := by
  induction cs with
  | nil => simp [quotedRun]
  | cons c cs ih =>
    have hc := h c (by simp)
    simp only [List.mem_cons, not_or] at hc
    rw [List.cons_append, quotedRun, ih fun d hd => h d (by simp [hd])]
    · simp [hc.1, hc.2.2.1]
    · simp [hc.2.1]

theorem quoted_single {q : Char} {cs : List Char} (h : ¬ [q, q] <+: cs) : quoted (q :: cs) = quotedRun q cs := by
  rcases cs with _ | ⟨b, _ | ⟨c, cs⟩⟩
  · rfl
  · rfl
  · rw [quoted, if_neg]
    rintro ⟨rfl, rfl⟩
    exact h ⟨cs, rfl⟩

theorem charOf_toNat (c : Char) : charOf c.toNat = c := by
  have hvalid : c.toNat.isValidChar := c.valid
  rw [charOf, if_pos hvalid, Char.ofNat_toNat]

/-- Without escapes characters stand for themselves. -/
theorem unescape_plain {cs : List Char} (h : '\\' ∉ cs) : unescape false cs.length cs = some (cs.map Char.toNat) := by
  induction cs with
  | nil => rfl
  | cons c cs ih =>
    obtain ⟨hc, hcs⟩ := not_or.mp (mt List.mem_cons.mpr h)
    rw [List.length_cons, unescape, if_neg (Ne.symm hc), ih hcs]
    rfl

theorem textToken_plain {s : String} (hs : Quotable s) {rest : List Char} (hrest : (Token.text s).EndsBefore rest) :
    textToken [] ('\'' :: (s.toList ++ '\'' :: rest)) = some (.text s, rest) := by
  -- three quotes would begin a longer text
  have htriple : ¬ ['\'', '\''] <+: s.toList ++ '\'' :: rest := by
    rcases hcs : s.toList with _ | ⟨c, cs⟩
    · rintro ⟨more, hmore⟩
      have hhead : rest.head? = some '\'' := by
        rw [← (List.cons.inj hmore).2]
        rfl
      exact absurd (hrest '\'' hhead) (by simp [Token.stops])
    · rintro ⟨more, hmore⟩
      have hc : '\'' = c := (List.cons.inj hmore).1
      exact hs c (by rw [hcs]; exact List.mem_cons_self) (by simp [← hc])
  have hescape : '\\' ∉ s.toList := fun h => hs _ h (by simp)
  have hchars : (s.toList.map Char.toNat).map charOf = s.toList := by
    rw [List.map_map]
    exact List.map_id'' charOf_toNat s.toList
  rw [textToken, quoted_single htriple, quotedRun_append hs rest]
  simp [written, unescape_plain hescape, hchars]

theorem tokens_text {s : String} (hs : Quotable s) {rest : List Char} (hrest : (Token.text s).EndsBefore rest)
    (fuel depth : Nat) : tokens (fuel + 1) depth ('\'' :: (s.toList ++ '\'' :: rest)) =
      (tokens fuel depth rest).map (.text s :: ·) := by
  have hstart : quoteStart? [] 2 ('\'' :: (s.toList ++ '\'' :: rest)) = some [] := by simp [quoteStart?, quotePrefixes]
  rw [tokens_cons (by decide), if_neg (by decide), hstart]
  simp only [List.length_nil, List.drop_zero, textToken_plain hs hrest, Option.bind_some]

/-! ## Operators -/

/-- The longest operator at the start of the text is the one that is spelled there. -/
theorem operatorToken_mark {o : String} (ho : o ∈ marks) {rest : List Char} (hrest : (Token.op o).EndsBefore rest) :
    operatorToken (o.toList ++ rest) = some (o, rest) := by
  have hprefix : ∀ p ∈ operators, p.toList.isPrefixOf (o.toList ++ rest) = p.toList.isPrefixOf o.toList := by
    intro p hp
    rw [Bool.eq_iff_iff, List.isPrefixOf_iff_prefix, List.isPrefixOf_iff_prefix]
    refine ⟨fun h => ?_, fun h => h.trans (List.prefix_append _ _)⟩
    rcases List.prefix_or_prefix_of_prefix h (List.prefix_append _ _) with h' | ⟨more, hmore⟩
    · exact h'
    · cases more with
      | nil => simp [← hmore]
      | cons c more =>
        -- a longer operator would go on with the character after this one
        rw [← hmore, List.prefix_append_right_inj] at h
        obtain ⟨tail, rfl⟩ := h
        have hstop := hrest c (by simp)
        have hlonger : (o.toList ++ [c]).isPrefixOf p.toList = true := by
          rw [ List.isPrefixOf_iff_prefix, ← hmore]
          exact ⟨more, by simp⟩
        simp only [Token.stops, Bool.and_eq_true, Bool.not_eq_true', List.any_eq_false] at hstop
        exact absurd hlonger (hstop.1 p hp)
  have hfind : ∀ o ∈ marks, operators.find? (fun p => p.toList.isPrefixOf o.toList) = some o := by decide
  rw [operatorToken, ← List.head?_filter, List.filter_congr hprefix, List.head?_filter, hfind o ho]
  simp [← String.length_toList]

/-- The first character of an operator begins no other token, but that a point may begin a number. -/
theorem first_of_mark : ∀ o ∈ marks, ∃ c cs, o.toList = c :: cs ∧
    c ∉ ['\n', '\\', '#', '"', '\''] ∧
    isBlank c = false ∧ isNameStart c = false ∧ c.isDigit = false ∧ (c = '.' → o = ".") := by
  simp only [marks, List.forall_mem_cons, List.not_mem_nil, false_imp_iff, implies_true, and_true]
  exact ⟨⟨_, _, rfl, by decide⟩, ⟨_, _, rfl, by decide⟩, ⟨_, _, rfl, by decide⟩, ⟨_, _, rfl, by decide⟩,
    ⟨_, _, rfl, by decide⟩, ⟨_, _, rfl, by decide⟩, ⟨_, _, rfl, by decide⟩, ⟨_, _, rfl, by decide⟩,
    ⟨_, _, rfl, by decide⟩, ⟨_, _, rfl, by decide⟩, ⟨_, _, rfl, by decide⟩⟩

theorem tokens_op {o : String} (ho : o ∈ marks) {rest : List Char} (hrest : (Token.op o).EndsBefore rest)
    (fuel depth : Nat) : tokens (fuel + 1) depth (o.toList ++ rest) =
      (tokens fuel (depthAfter depth o) rest).map (.op o :: ·) := by
  have hop := operatorToken_mark ho hrest
  obtain ⟨c, cs, hcs, hc, hblank, hname, hdigit, hpoint⟩ := first_of_mark o ho
  -- no digit follows a point
  have hnumber : (decide (c = '.') && ((cs ++ rest).head?.map Char.isDigit).getD false) = false := by
    rw [Bool.eq_false_iff, Ne, Bool.and_eq_true, decide_eq_true_eq]
    rintro ⟨rfl, h⟩
    obtain rfl := hpoint rfl
    obtain rfl : cs = [] := by simpa using hcs.symm
    cases hhead : rest.head? with
    | none => simp [hhead] at h
    | some d =>
      have hstop := hrest d hhead
      have hd : d.isDigit = true := by simpa [hhead] using h
      simp [Token.stops, hd] at hstop
  rw [hcs, List.cons_append] at hop ⊢
  simp only [List.mem_cons, List.not_mem_nil, or_false, not_or] at hc
  have hletter : ∀ p ∈ quoteLetters, isNameStart p.1 = true := by decide
  have hstart := quoteStart?_cons ⟨hc.2.2.2.1, hc.2.2.2.2⟩
    (lookup_quoteLetters fun p hp heq => by simp [heq, hletter p hp] at hname) [] 2 (cs ++ rest)
  rw [tokens_cons (by simp [hc]), hop, hstart]
  simp only [hblank, hname, hdigit, hnumber, Bool.or_self, Bool.false_eq_true, if_false, Option.bind_some]

/-! ## Texts -/

/-- The depth of brackets after a token. -/
def Token.depthAfter (depth : Nat) : Token → Nat
  | .op o => Formula.depthAfter depth o
  | _ => depth

/-- One token is read back, whatever follows that does not continue it. -/
theorem tokens_cons_token {t : Token} (ht : t.Spelled) {rest : List Char} (hrest : t.EndsBefore rest)
    (fuel depth : Nat) : tokens (fuel + 1) depth (t.chars ++ rest) =
      (tokens fuel (t.depthAfter depth) rest).map (t :: ·) := by
  cases t with
  | name s => exact tokens_name ht hrest fuel depth
  | int n => exact tokens_int n hrest fuel depth
  | text s =>
    rw [Token.chars, List.cons_append, List.append_assoc]
    exact tokens_text ht hrest fuel depth
  | op o => exact tokens_op ht hrest fuel depth
  | _ => exact ht.elim

/-- A character that no blank, line end, comment or escape begins with. -/
def Solid (c : Char) : Prop := isBlank c = false ∧ c ∉ ['\n', '#', '\\']

/-- The characters of names and numbers are solid. -/
theorem solid_of_isNameChar {c : Char} (hc : isNameChar c = true) : Solid c := by
  refine ⟨isBlank_of_isNameChar hc, fun hmem => ?_⟩
  have hall : ∀ d ∈ ['\n', '#', '\\'], isNameChar d = false := by decide
  simp [hall c hmem] at hc

theorem solid_of_isDigit {c : Char} (hc : c.isDigit = true) : Solid c :=
  solid_of_isNameChar (by simp [isNameChar, hc])

theorem Token.Spelled.first {t : Token} (ht : t.Spelled) : ∃ c cs, t.chars = c :: cs ∧ Solid c := by
  cases t with
  | name s =>
    obtain ⟨⟨c, cs, hs, hc, _⟩, _⟩ := ht
    exact ⟨c, cs, hs, solid_of_isNameChar (isNameChar_of_isNameStart hc)⟩
  | int n =>
    obtain ⟨d, ds, hds⟩ := List.exists_cons_of_ne_nil (Nat.toDigits_ne_nil (n := n) (b := 10))
    have hd : d.isDigit = true := Nat.isDigit_of_mem_toDigits (b := 10) (n := n) (by decide) (by decide) (by simp [hds])
    exact ⟨d, ds, hds, solid_of_isDigit hd⟩
  | text s => exact ⟨_, _, rfl, by decide, by decide⟩
  | op o =>
    have hall : ∀ o ∈ marks, ∀ c ∈ o.toList, isBlank c = false ∧ c ∉ ['\n', '#', '\\'] := by decide
    have hne : ∀ o ∈ marks, o.toList ≠ [] := by decide
    obtain ⟨c, cs, hcs⟩ := List.exists_cons_of_ne_nil (hne o ht)
    exact ⟨c, cs, hcs, hall o ht c (by simp [hcs])⟩
  | _ => exact ht.elim

theorem Decimal.first (d : Decimal) : ∃ c cs, d.chars = c :: cs ∧ c.isDigit = true := by
  obtain ⟨c, cs, hcs⟩ := List.exists_cons_of_ne_nil d.whole_ne_nil
  exact ⟨c, _, by rw [Decimal.chars, hcs]; rfl, d.whole_digits c (by simp [hcs])⟩

/-- What is no blank begins with a solid character. -/
theorem Lexeme.Spelled.first {x : Lexeme} (hx : x.Spelled) (hblank : x ≠ .blank) :
    ∃ c cs, x.chars = c :: cs ∧ Solid c := by
  cases x with
  | blank => exact absurd rfl hblank
  | token t => exact Token.Spelled.first hx
  | decimal d =>
    obtain ⟨c, cs, hcs, hc⟩ := d.first
    exact ⟨c, cs, hcs, solid_of_isDigit hc⟩

theorem Lexeme.Spelled.chars_ne_nil {x : Lexeme} (hx : x.Spelled) : x.chars ≠ [] := by
  by_cases hblank : x = .blank
  · simp [hblank, Lexeme.chars]
  · obtain ⟨c, cs, hcs, _⟩ := hx.first hblank
    simp [hcs]

theorem Separated.tail {x : Lexeme} {xs : List Lexeme} (h : Separated (x :: xs)) : Separated xs :=
  ⟨fun y hy => h.spelled y (by simp [hy]), h.apart.tail⟩

theorem Separated.head {t : Token} {xs : List Lexeme} (h : Separated (.token t :: xs)) : t.Spelled :=
  h.spelled (.token t) (by simp)

theorem endsBefore_spell {t : Token} {xs : List Lexeme} (hxs : ∀ x ∈ xs, x.Spelled)
    (h : ∀ x ∈ xs.head?, t.EndsBefore x.chars) : t.EndsBefore (spell xs) := by
  cases xs with
  | nil => simp [Token.EndsBefore]
  | cons x xs =>
    rw [Token.EndsBefore, spell_cons, List.head?_append_of_ne_nil _ (hxs x (by simp)).chars_ne_nil]
    exact h x rfl

/-- The first of separated lexemes is read back, whatever follows. -/
theorem Separated.tokens_head {x : Lexeme} {xs : List Lexeme} (h : Separated (x :: xs)) (fuel depth : Nat) :
    ∃ after, tokens (fuel + 1) depth (x.chars ++ spell xs) =
      (tokens fuel after (spell xs)).map (tokensOf [x] ++ ·) := by
  have hspelled : ∀ y ∈ xs, y.Spelled := h.tail.spelled
  have hnext : ∀ y ∈ xs.head?, x.Apart y := by
    cases xs with
    | nil => simp
    | cons y xs => simpa using (List.isChain_cons_cons.mp h.apart).1
  cases x with
  | blank =>
    refine ⟨depth, ?_⟩
    rw [Lexeme.chars, List.singleton_append, tokens_cons (by decide), if_pos (by decide)]
    exact Option.map_id'.symm
  | token t => exact ⟨_, tokens_cons_token h.head (endsBefore_spell hspelled hnext) fuel depth⟩
  | decimal d =>
    obtain ⟨c, cs, hcs, hc⟩ := d.first
    have hnumber := numberToken_decimal d (endsBefore_spell hspelled hnext)
    rw [hcs, List.cons_append] at hnumber
    refine ⟨depth, ?_⟩
    rw [Lexeme.chars, hcs, List.cons_append]
    exact tokens_number hc hnumber fuel depth

/-- The tokens of a text are those it is spelled from. -/
theorem tokens_spell {xs : List Lexeme} (h : Separated xs) {fuel : Nat} (hfuel : (spell xs).length ≤ fuel)
    (depth : Nat) : tokens fuel depth (spell xs) = some (tokensOf xs) := by
  induction xs generalizing fuel depth with
  | nil => cases fuel <;> rfl
  | cons x xs ih =>
    have hlen : 0 < x.chars.length := List.length_pos_of_ne_nil (h.spelled x (by simp)).chars_ne_nil
    rw [spell_cons, List.length_append] at hfuel
    obtain ⟨fuel, rfl⟩ : ∃ n, fuel = n + 1 := ⟨fuel - 1, by omega⟩
    obtain ⟨after, hhead⟩ := h.tokens_head fuel depth
    rw [spell_cons, hhead, ih h.tail (by omega), Option.map_some, ← tokensOf_append, List.singleton_append]

/-! ### Characters of tokens -/

/-- No token holds a character that is changed or refused before tokens are read. -/
theorem Token.Spelled.chars_clean {t : Token} (ht : t.Spelled) {c : Char} (hc : c ∈ t.chars) :
    c ∉ ['\r', '\x00'] := by
  have hchar : ∀ d, isNameChar d = true → d ∉ ['\r', '\x00'] := by
    intro d hd hmem
    have hall : ∀ d ∈ ['\r', '\x00'], isNameChar d = false := by decide
    simp [hall d hmem] at hd
  cases t with
  | name s =>
    obtain ⟨⟨d, ds, hs, hd, hds⟩, _⟩ := ht
    rw [Token.chars, hs, List.mem_cons] at hc
    rcases hc with rfl | hc
    · exact hchar _ (isNameChar_of_isNameStart hd)
    · exact hchar c (hds c hc)
  | int n =>
    have hd : c.isDigit = true := Nat.isDigit_of_mem_toDigits (b := 10) (n := n) (by decide) (by decide) hc
    exact hchar c (by simp [isNameChar, hd])
  | text s =>
    rw [Token.chars, List.mem_cons, List.mem_append, List.mem_singleton] at hc
    rcases hc with rfl | hc | rfl
    · decide
    · have hs := ht c hc
      simp only [List.mem_cons, not_or] at hs ⊢
      exact ⟨hs.2.2.2.1, hs.2.2.2.2⟩
    · decide
  | op o =>
    have hall : ∀ o ∈ marks, ∀ c ∈ o.toList, c ∉ ['\r', '\x00'] := by decide
    exact hall o ht c hc
  | _ => exact ht.elim

theorem Decimal.chars_clean {d : Decimal} {c : Char} (hc : c ∈ d.chars) : c ∉ ['\r', '\x00'] := by
  have hdigit : c.isDigit = true → c ∉ ['\r', '\x00'] := by
    intro hd hmem
    have hall : ∀ c ∈ ['\r', '\x00'], c.isDigit = false := by decide
    simp [hall c hmem] at hd
  have hmark : c ∈ ['.', 'e', '-', '+'] → c ∉ ['\r', '\x00'] := by
    have hall : ∀ c ∈ ['.', 'e', '-', '+'], c ∉ ['\r', '\x00'] := by decide
    exact hall c
  rw [Decimal.chars, List.mem_append, List.mem_append] at hc
  rcases hc with hc | hc | hc
  · exact hdigit (d.whole_digits c hc)
  · rcases hf : d.fraction with _ | fs
    · simp [Decimal.fractionChars, hf] at hc
    · rcases (by simpa [Decimal.fractionChars, hf] using hc : c = '.' ∨ c ∈ fs) with rfl | hc
      · exact hmark (by decide)
      · exact hdigit (d.fraction_digits fs hf c hc)
  · rcases he : d.exponent with _ | ⟨negative, es⟩
    · simp [Decimal.exponentChars, he] at hc
    · have hsign : (if negative = true then '-' else '+') ∈ ['.', 'e', '-', '+'] := by cases negative <;> decide
      rcases (by simpa [Decimal.exponentChars, he] using hc :
        c = 'e' ∨ c = (if negative = true then '-' else '+') ∨ c ∈ es) with rfl | rfl | hc
      · exact hmark (by decide)
      · exact hmark hsign
      · exact hdigit (d.exponent_digits _ he c hc)

theorem Separated.chars_clean {xs : List Lexeme} (h : Separated xs) {c : Char} (hc : c ∈ spell xs) :
    c ∉ ['\r', '\x00'] := by
  obtain ⟨x, hx, hc⟩ := List.mem_flatMap.mp hc
  cases x with
  | blank =>
    obtain rfl : c = ' ' := by simpa [Lexeme.chars] using hc
    decide
  | token t => exact Token.Spelled.chars_clean (h.spelled _ hx) hc
  | decimal d => exact Decimal.chars_clean hc

theorem joinLineEnds_of_not_mem {cs : List Char} (h : '\r' ∉ cs) : joinLineEnds cs = cs := by
  induction cs with
  | nil => rfl
  | cons c cs ih =>
    obtain ⟨hc, hcs⟩ := not_or.mp (mt List.mem_cons.mpr h)
    rw [joinLineEnds, ih hcs, if_neg (Ne.symm hc)]
    exact fun rest heq => absurd heq.symm hc

theorem beginsIndented_of_solid {c : Char} (h : Solid c) (rest : List Char) :
    beginsIndented false false (c :: rest) = false := by
  obtain ⟨hblank, hc⟩ := h
  simp only [isBlank, Bool.or_eq_false_iff, beq_eq_false_iff_ne] at hblank
  simp only [List.mem_cons, List.not_mem_nil, or_false, not_or] at hc
  rw [beginsIndented]
  · simp [hblank]
  all_goals simp [hc]

/-! ### Fields -/

/-- Where no text has fields, tokens stay as they are. -/
theorem readFields_plain {ts : List Token} (h : ∀ t ∈ ts, ∀ raw body, t ≠ .formatted raw body) {fuel : Nat}
    (hfuel : ts.length ≤ fuel) : readFields fuel ts = some ts := by
  induction ts generalizing fuel with
  | nil => cases fuel <;> rfl
  | cons t ts ih =>
    obtain ⟨fuel, rfl⟩ : ∃ n, fuel = n + 1 := ⟨fuel - 1, by simp only [List.length_cons] at hfuel; omega⟩
    rw [readFields, ih (fun u hu => h u (by simp [hu])) (by simpa using hfuel)]
    · rfl
    · exact h t (by simp)

theorem Separated.tokens_plain {xs : List Lexeme} (h : Separated xs) :
    ∀ t ∈ tokensOf xs, ∀ raw body, t ≠ .formatted raw body := by
  rintro t ht raw body rfl
  obtain ⟨x, hx, hxt⟩ := List.mem_filterMap.mp ht
  cases x with
  | blank => cases hxt
  | token u =>
    cases hxt
    exact h.spelled _ hx
  | decimal d => cases hxt

theorem Separated.length_tokensOf {xs : List Lexeme} (h : Separated xs) :
    (tokensOf xs).length ≤ (spell xs).length := by
  induction xs with
  | nil => exact Nat.le_refl 0
  | cons x xs ih =>
    have hrest := ih h.tail
    have hlen : 0 < x.chars.length := List.length_pos_of_ne_nil (h.spelled x (by simp)).chars_ne_nil
    have hone : (tokensOf [x]).length ≤ 1 := List.length_filterMap_le _ [x]
    rw [← List.singleton_append, tokensOf_append, spell_append, List.length_append, List.length_append, spell_cons,
      List.length_append]
    omega

/-- A text is read back as the tokens that it is spelled from. -/
theorem readTokens_spell {x : Lexeme} (hx : x ≠ .blank) {xs : List Lexeme} (h : Separated (x :: xs)) :
    readTokens (String.ofList (spell (x :: xs))) = .ok (tokensOf (x :: xs)) := by
  have hstart : beginsIndented false false (spell (x :: xs)) = false := by
    obtain ⟨c, cs, hcs, hc⟩ := (h.spelled x (by simp)).first hx
    rw [spell_cons, hcs]
    exact beginsIndented_of_solid hc _
  have hends : joinLineEnds (spell (x :: xs)) = spell (x :: xs) :=
    joinLineEnds_of_not_mem fun hc => h.chars_clean hc (by decide)
  have hzero : (spell (x :: xs)).contains '\x00' = false := by
    rw [Bool.eq_false_iff, Ne, List.contains_iff_mem]
    exact fun hc => h.chars_clean hc (by decide)
  have hfuel : (tokensOf (x :: xs)).length ≤ 4 * ((spell (x :: xs)).length + 1) := by
    have hlength := h.length_tokensOf
    omega
  simp only [readTokens, String.toList_ofList, hends, hzero, hstart, Bool.false_eq_true, if_false,
    tokens_spell h (Nat.le_succ _), readFields_plain h.tokens_plain hfuel]

end Formula

end FactorPlan
