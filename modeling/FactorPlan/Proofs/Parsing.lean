import FactorPlan.Proofs.Phrases

/-!
Reading phrases. Whatever may follow a phrase of a rank, the parser of that rank takes the
tokens of the phrase and no more, and gives its tree (`Phrase.readAs`). So the text of a phrase
has the tree of the phrase (`parse_phrase`).
-/

namespace FactorPlan

namespace Formula

/-! ## The parser -/

/-- The tokens are at their end, or go on with one of the operators. -/
def Ends (ops : List String) (ts : List Token) : Prop := ∀ t ∈ ts.head?, ∃ o ∈ ops, t = .op o

/-- What may follow a phrase of a rank. -/
def Rank.followers : Rank → List String
  | .primary => [".", "(", "**", "*", "/", "+", "-", ")", ","]
  | .operand => ["**", "*", "/", "+", "-", ")", ","]
  | .factor => ["*", "/", "+", "-", ")", ","]
  | .term => ["*", "/", "+", "-", ")", ","]
  | .sum => ["+", "-", ")", ","]
  | .expression => [")", ","]

def termLevel : List (String × BinaryOp) :=
  [("*", .mul), ("/", .div), ("//", .floorDiv), ("%", .mod), ("@", .matMul)]

def sumLevel : List (String × BinaryOp) := [("+", .add), ("-", .sub)]

/-- The parser of the rank takes the tokens, whatever may follow them, and gives the tree. The
tokens of a primary, a term or a sum may go on, so there the parser is left with what it has
so far and the tokens that follow. -/
def ReadAs (ts : List Token) (t : Tree) : Rank → Prop
  | .primary => ∀ fuel rest, Ends Rank.primary.followers rest → 20 * ts.length ≤ fuel →
      ∃ left, fuel ≤ left + 20 * ts.length ∧ primary fuel (ts ++ rest) = trailers left t rest
  | .operand => ∀ fuel rest, Ends Rank.operand.followers rest → 20 * ts.length + 1 ≤ fuel →
      primary fuel (ts ++ rest) = some (t, rest)
  | .factor => ∀ fuel rest, Ends Rank.factor.followers rest → 20 * ts.length + 2 ≤ fuel →
      prefixed fuel (ts ++ rest) = some (t, rest)
  | .term => ∀ fuel rest, Ends Rank.term.followers rest → 20 * ts.length + 4 ≤ fuel →
      ∃ left, fuel ≤ left + 20 * ts.length + 1 ∧
        binary fuel [termLevel] (ts ++ rest) = moreOperands left termLevel [] t rest
  | .sum => ∀ fuel rest, Ends Rank.sum.followers rest → 20 * ts.length + 6 ≤ fuel →
      ∃ left, fuel ≤ left + 20 * ts.length + 1 ∧
        binary fuel [sumLevel, termLevel] (ts ++ rest) = moreOperands left sumLevel [termLevel] t rest
  | .expression => ∀ fuel rest, Ends Rank.expression.followers rest → 20 * ts.length + 16 ≤ fuel →
      expression fuel (ts ++ rest) = some (t, rest)

theorem Ends.mono {os ps : List String} {ts : List Token} (h : Ends os ts) (hsub : os ⊆ ps) : Ends ps ts :=
  fun t ht => (h t ht).imp fun _ ho => ⟨hsub ho.1, ho.2⟩

theorem ends_cons {os : List String} {o : String} (ho : o ∈ os) (ts : List Token) : Ends os (.op o :: ts) :=
  fun t ht => ⟨o, ho, by simpa using ht.symm⟩

theorem ends_nil (os : List String) : Ends os [] := fun t ht => by simp at ht

/-- Where the tokens end or go on with one of the operators, what holds at the end and before
each of the operators holds. -/
theorem Ends.cases {os : List String} {ts : List Token} {P : List Token → Prop} (h : Ends os ts) (hnil : P [])
    (hcons : ∀ o ∈ os, ∀ more, P (.op o :: more)) : P ts := by
  cases ts with
  | nil => exact hnil
  | cons t ts =>
    obtain ⟨o, ho, rfl⟩ := h t (by simp)
    exact hcons o ho ts

theorem trailers_stop {rest : List Token} (h : Ends Rank.operand.followers rest) (fuel : Nat) (t : Tree) :
    trailers (fuel + 1) t rest = some (t, rest) := by
  refine h.cases (P := fun rest => trailers (fuel + 1) t rest = some (t, rest)) ?_ ?_
  · rw [trailers] <;> simp
  · simp only [Rank.followers, List.forall_mem_cons, List.not_mem_nil, false_imp_iff, implies_true, and_true]
    refine ⟨?_, ?_, ?_, ?_, ?_, ?_, ?_⟩ <;> intro more <;> rw [trailers] <;> simp

/-! ## Steps of the parser -/

section Steps
variable {fuel : Nat} {tk : Token} {ts rest more : List Token} {t u : Tree}

theorem expect_power (h : Ends Rank.factor.followers rest) : expect "**" rest = none := by
  refine h.cases (P := fun rest => expect "**" rest = none) rfl ?_
  have hall : ∀ o ∈ Rank.factor.followers, o ≠ "**" := by decide
  exact fun o ho more => by simp [expect, hall o ho]

theorem levelToken_of_ends {level : List (String × BinaryOp)} {os : List String} (h : Ends os rest)
    (hlevel : ∀ o ∈ os, level.lookup o = none) : levelToken level rest = none :=
  h.cases (P := fun rest => levelToken level rest = none) rfl fun o ho more => by simp [levelToken, hlevel o ho]

/-- What begins an operand is no operator but a bracket, and no keyword. -/
theorem ne_of_beginsOperand (htk : (Lexeme.token tk).BeginsOperand) :
    (∀ o ≠ "(", tk ≠ .op o) ∧ ∀ w ∈ keywords, tk ≠ .name w := by
  refine ⟨fun o ho h => ?_, fun w hw h => ?_⟩
  · rw [h] at htk
    exact ho htk
  · rw [h] at htk
    exact htk hw

theorem prefixed_eq (htk : (Lexeme.token tk).BeginsOperand) (hp : primary fuel (tk :: ts) = some (t, rest)) :
    prefixed (fuel + 1) (tk :: ts) = powers fuel t rest := by
  obtain ⟨hops, hwords⟩ := ne_of_beginsOperand htk
  rw [prefixed]
  · simp only [hp]
  · exact fun _ h => hops "-" (by decide) (List.cons.inj h).1
  · exact fun _ h => hops "+" (by decide) (List.cons.inj h).1
  · exact fun _ h => hops "~" (by decide) (List.cons.inj h).1
  · exact fun _ h => hwords "await" (by decide) (List.cons.inj h).1

theorem powers_stop (hrest : expect "**" rest = none) : powers (fuel + 1) t rest = some (t, rest) := by
  rw [powers]
  simp only [hrest]

theorem powers_raised (hx : prefixed fuel more = some (u, rest)) :
    powers (fuel + 1) t (.op "**" :: more) = some (.binary .pow t u, rest) := by
  rw [powers]
  simp [expect, hx]

theorem binary_nil : binary (fuel + 1) [] ts = prefixed fuel ts := by rw [binary]

theorem binary_cons {level : List (String × BinaryOp)} {levels : List (List (String × BinaryOp))}
    (h : binary fuel levels ts = some (t, rest)) :
    binary (fuel + 1) (level :: levels) ts = moreOperands fuel level levels t rest := by
  rw [binary]
  simp only [h]

theorem moreOperands_stop {level : List (String × BinaryOp)} (levels : List (List (String × BinaryOp)))
    (h : levelToken level rest = none) : moreOperands (fuel + 1) level levels t rest = some (t, rest) := by
  rw [moreOperands]
  simp only [h]

theorem moreOperands_step {level : List (String × BinaryOp)} {levels : List (List (String × BinaryOp))}
    {o : String} {op : BinaryOp} (ho : level.lookup o = some op) (h : binary fuel levels more = some (u, rest)) :
    moreOperands (fuel + 1) level levels t (.op o :: more) = moreOperands fuel level levels (.binary op t u) rest := by
  rw [moreOperands]
  simp only [levelToken, ho, Option.map_some, h]

/-- Looser operators than those of a sum do not follow it. -/
theorem binary_through {level : List (String × BinaryOp)} {levels : List (List (String × BinaryOp))}
    (h : binary (fuel + 1) levels ts = some (t, rest)) (hrest : Ends Rank.expression.followers rest)
    (hlevel : ∀ o ∈ Rank.expression.followers, level.lookup o = none) :
    binary (fuel + 2) (level :: levels) ts = some (t, rest) := by
  rw [binary_cons h]
  exact moreOperands_stop levels (levelToken_of_ends hrest hlevel)

theorem expression_of_binary (hlambda : tk ≠ .name "lambda") (hnot : tk ≠ .name "not")
    (h : binary (fuel + 1) binaryLevels (tk :: ts) = some (t, rest)) (hrest : Ends Rank.expression.followers rest) :
    expression (fuel + 5) (tk :: ts) = some (t, rest) := by
  have hword : ∀ w, expectWord w rest = none := fun w =>
    hrest.cases (P := fun rest => expectWord w rest = none) rfl fun _ _ _ => rfl
  have hcompare : compareToken rest = none := by
    refine hrest.cases (P := fun rest => compareToken rest = none) rfl ?_
    simp [Rank.followers, compareToken]
  have hnotWord : expectWord "not" (tk :: ts) = none := by
    cases tk with
    | name n => exact if_neg fun h => hnot (by rw [h])
    | _ => rfl
  have hinversion : inversion (fuel + 2) (tk :: ts) = some (t, rest) := by
    rw [inversion]
    simp only [hnotWord, h]
    rw [moreComparisons]
    simp only [hcompare]
  have hconjunction : conjunction (fuel + 3) (tk :: ts) = some (t, rest) := by
    rw [conjunction]
    simp only [hinversion]
    rw [moreConjuncts]
    simp only [hword]
  have hdisjunction : disjunction (fuel + 4) (tk :: ts) = some (t, rest) := by
    rw [disjunction]
    simp only [hconjunction]
    rw [moreDisjuncts]
    simp only [hword]
  rw [expression]
  · simp only [hdisjunction, hword]
  · exact fun _ h => hlambda (List.cons.inj h).1

/-! ## Arguments -/

/-- The tokens begin like an item: not with the end of the items, further items, a keyword argument
or a name that is given a value. -/
structure BeginsItem (ts : List Token) : Prop where
  mark : ∀ o ∈ [")", "*", "**"], ∀ more, ts ≠ .op o :: more
  given : ∀ more, ts ≠ .name "yield" :: more
  keyword : ∀ n more, ts ≠ .name n :: .op "=" :: more
  named : ∀ n more, ts ≠ .name n :: .op ":=" :: more

theorem named_of_beginsItem (h : BeginsItem ts) : named (fuel + 1) ts = expression fuel ts := by
  rw [named]
  exact h.named

theorem item_of_beginsItem (h : BeginsItem ts) : item (fuel + 2) ts = expression fuel ts := by
  rw [item, named_of_beginsItem h]
  exact h.mark "*" (by decide)

theorem arguments_comma {args : List Tree} (hts : BeginsItem ts)
    (h : expression fuel ts = some (t, .op "," :: rest)) :
    arguments (fuel + 2) .positional args ts = arguments (fuel + 1) .positional (args ++ [t]) rest := by
  rw [arguments]
  · simp [named_of_beginsItem hts, h]
  · exact hts.mark ")" (by decide)
  · exact hts.mark "**" (by decide)
  · exact hts.mark "*" (by decide)
  · exact hts.keyword

theorem arguments_close {args : List Tree} (hts : BeginsItem ts)
    (h : expression fuel ts = some (t, .op ")" :: rest)) :
    arguments (fuel + 2) .positional args ts = some (args ++ [t], [], [], rest) := by
  rw [arguments]
  · simp [named_of_beginsItem hts, h]
  · exact hts.mark ")" (by decide)
  · exact hts.mark "**" (by decide)
  · exact hts.mark "*" (by decide)
  · exact hts.keyword

theorem arguments_keyword_comma {args : List Tree} {stage : ArgumentStage} (hstage : stage ≠ .spread) {w : String}
    (hw : w ∉ keywords) (h : expression fuel ts = some (t, .op "," :: rest)) :
    arguments (fuel + 1) stage args (.name w :: .op "=" :: ts) =
      (arguments fuel .keyed args rest).map fun p => (p.1, some w :: p.2.1, t :: p.2.2.1, p.2.2.2) := by
  rw [arguments]
  simp [hw, h, hstage]

theorem arguments_keyword_close {args : List Tree} {stage : ArgumentStage} {w : String} (hw : w ∉ keywords)
    (h : expression fuel ts = some (t, .op ")" :: rest)) :
    arguments (fuel + 1) stage args (.name w :: .op "=" :: ts) = some (args, [some w], [t], rest) := by
  rw [arguments]
  simp [hw, h]

end Steps

/-- A name that an operator follows is followed by one that may follow a primary. -/
def Unnamed (ts : List Token) : Prop :=
  ∀ n o more, ts = .name n :: .op o :: more → o ∈ Rank.primary.followers

theorem Unnamed.append {ts rest : List Token} (h : Unnamed ts) (hne : ts ≠ [])
    (hrest : Ends Rank.primary.followers rest) : Unnamed (ts ++ rest) := by
  intro n o more heq
  rcases ts with _ | ⟨a, _ | ⟨b, ts⟩⟩
  · exact absurd rfl hne
  · have hrest' : rest = .op o :: more := (List.cons.inj heq).2
    obtain ⟨p, hp, hop⟩ := hrest (.op o) (by simp [hrest'])
    cases hop
    exact hp
  · obtain ⟨rfl, hb⟩ := List.cons.inj heq
    obtain ⟨rfl, _⟩ := List.cons.inj hb
    exact h n o ts rfl

variable {r : Rank} {xs : List Lexeme} {t : Tree}

theorem Phrase.tokens_opens (h : Phrase r xs t) : ∃ tk ts, tokensOf xs = tk :: ts ∧ r.Opens (.token tk) := by
  obtain ⟨x, ys, rfl, hx⟩ := h.opens
  cases x with
  | blank => rcases hx.eq_or with h | h | h <;> cases h
  | token tk => exact ⟨tk, tokensOf ys, rfl, hx⟩
  | decimal d =>
    -- what may begin with a number may begin with any
    refine ⟨.float d.value, tokensOf ys, rfl, ?_⟩
    cases r with
    | primary => exact hx
    | operand => exact hx
    | expression => exact .inr (.inr trivial)
    | factor => exact .inr trivial
    | term => exact .inr trivial
    | sum => exact .inr trivial

theorem Phrase.tokens_ne_nil (h : Phrase r xs t) : tokensOf xs ≠ [] := by
  obtain ⟨tk, ts, hts, _⟩ := h.tokens_opens
  simp [hts]

theorem Phrase.unnamed (h : Phrase r xs t) : Unnamed (tokensOf xs) := by
  induction h with
  | name _ => exact fun n o more heq => by simp at heq
  | text _ => exact fun n o more heq => by simp at heq
  | group _ _ => exact fun n o more heq => by simp at heq
  | member h _ ih =>
    rw [tokensOf_append]
    exact ih.append h.tokens_ne_nil (ends_cons (by decide) _)
  | call h _ _ _ _ ih _ _ =>
    rw [tokensOf_append]
    exact ih.append h.tokens_ne_nil (ends_cons (by decide) _)
  | int n => exact fun n o more heq => by simp at heq
  | decimal d => exact fun n o more heq => by simp at heq
  | operand _ ih => exact ih
  | factor _ ih => exact ih
  | power h _ ih _ =>
    rw [tokensOf_append]
    exact ih.append h.tokens_ne_nil (ends_cons (by decide) _)
  | minus _ _ => exact fun n o more heq => by simp at heq
  | term _ ih => exact ih
  | times ho h _ ih _ =>
    rw [tokensOf_append]
    refine ih.append h.tokens_ne_nil (ends_cons ?_ _)
    simp only [List.mem_cons, Prod.mk.injEq, List.not_mem_nil, or_false] at ho
    rcases ho with ⟨rfl, _⟩ | ⟨rfl, _⟩ <;> decide
  | sum _ ih => exact ih
  | plus ho h _ ih _ =>
    rw [tokensOf_append]
    refine ih.append h.tokens_ne_nil (ends_cons ?_ _)
    simp only [List.mem_cons, Prod.mk.injEq, List.not_mem_nil, or_false] at ho
    rcases ho with ⟨rfl, _⟩ | ⟨rfl, _⟩ <;> decide
  | expression _ ih => exact ih
  | lambda _ _ _ => exact fun n o more heq => by simp at heq

theorem Phrase.beginsItem (h : Phrase r xs t) {rest : List Token} (hrest : Ends Rank.expression.followers rest) :
    BeginsItem (tokensOf xs ++ rest) := by
  have hunnamed := h.unnamed.append h.tokens_ne_nil (hrest.mono (by decide))
  obtain ⟨tk, ts, hts, htk⟩ := h.tokens_opens
  have hmark : ∀ o ∈ [")", "*", "**"], tk ≠ .op o := by
    have hall : ∀ o ∈ [")", "*", "**"], o ≠ "-" ∧ o ≠ "(" := by decide
    rintro o ho rfl
    rcases htk.eq_or with h | h | h
    · simp at h
    · exact (hall o ho).1 (by simpa using h)
    · exact (hall o ho).2 h
  have hgiven : tk ≠ .name "yield" := by
    rintro rfl
    rcases htk.eq_or with h | h | h
    · exact absurd h (by decide)
    · simp at h
    · exact h (by decide)
  refine ⟨fun o ho more heq => ?_, fun more heq => ?_, fun n more heq => absurd (hunnamed n _ more heq) (by decide),
    fun n more heq => absurd (hunnamed n _ more heq) (by decide)⟩
  · rw [hts, List.cons_append] at heq
    exact hmark o ho (List.cons.inj heq).1
  · rw [hts, List.cons_append] at heq
    exact hgiven (List.cons.inj heq).1

/-- A phrase is one item. -/
theorem Phrase.isStarred_eq (h : Phrase r xs t) : isStarred t = false := by
  induction h with
  | group _ ih => exact ih
  | operand _ ih => exact ih
  | factor _ ih => exact ih
  | term _ ih => exact ih
  | sum _ ih => exact ih
  | expression _ ih => exact ih
  | _ => rfl

theorem arguments_keys {keys : List (String × List Lexeme × Tree)} (hwords : ∀ k ∈ keys, IsWord k.1)
    (hreads : ∀ k ∈ keys, ReadAs (tokensOf k.2.1) k.2.2 .expression) (args : List Tree) (rest : List Token)
    {stage : ArgumentStage} (hstage : stage ≠ .spread) (fuel : Nat)
    (hfuel : 20 * (tokensOf (commas (keys.map keyItem))).length + 20 ≤ fuel) :
    arguments fuel stage args (tokensOf (commas (keys.map keyItem)) ++ .op ")" :: rest) =
      some (args, (keys.map (·.1)).map some, keys.map (·.2.2), rest) := by
  induction keys generalizing stage fuel with
  | nil =>
    obtain ⟨fuel, rfl⟩ : ∃ n, fuel = n + 1 := ⟨fuel - 1, by omega⟩
    simp [commas, arguments]
  | cons k keys ih =>
    obtain ⟨fuel, rfl⟩ : ∃ n, fuel = n + 1 := ⟨fuel - 1, by omega⟩
    have hword := (hwords k (by simp)).2
    have hread := hreads k (by simp)
    cases keys with
    | nil =>
      simp only [List.map_cons, List.map_nil, commas, keyItem, tokensOf_token, List.length_cons] at hfuel
      have hvalue := hread fuel (.op ")" :: rest) (ends_cons (by decide) _) (by omega)
      simpa [commas, keyItem] using arguments_keyword_close hword hvalue
    | cons k' keys =>
      have htokens : tokensOf (commas ((k :: k' :: keys).map keyItem)) = .name k.1 :: .op "=" ::
          (tokensOf k.2.1 ++ .op "," :: tokensOf (commas ((k' :: keys).map keyItem))) := by
        simp [commas, keyItem]
      simp only [htokens, List.length_cons, List.length_append] at hfuel
      have hvalue := hread fuel (.op "," :: (tokensOf (commas ((k' :: keys).map keyItem)) ++ .op ")" :: rest))
        (ends_cons (by decide) _) (by omega)
      have hrest := ih (fun k hk => hwords k (by simp [hk])) (fun k hk => hreads k (by simp [hk]))
        (show ArgumentStage.keyed ≠ .spread by decide) fuel (by omega)
      rw [htokens, List.cons_append, List.cons_append, List.append_assoc, List.cons_append,
        arguments_keyword_comma hstage hword hvalue, hrest]
      rfl

/-- The arguments of a call, positional ones first. -/
theorem arguments_items {args : List (List Lexeme × Tree)} {keys : List (String × List Lexeme × Tree)}
    (hargs : ∀ a ∈ args, Phrase .expression a.1 a.2) (hreads : ∀ a ∈ args, ReadAs (tokensOf a.1) a.2 .expression)
    (hwords : ∀ k ∈ keys, IsWord k.1) (hkeys : ∀ k ∈ keys, ReadAs (tokensOf k.2.1) k.2.2 .expression)
    (met : List Tree) (rest : List Token) (fuel : Nat)
    (hfuel : 20 * (tokensOf (commas (args.map (·.1) ++ keys.map keyItem))).length + 20 ≤ fuel) :
    arguments fuel .positional met (tokensOf (commas (args.map (·.1) ++ keys.map keyItem)) ++ .op ")" :: rest) =
      some (met ++ args.map (·.2), (keys.map (·.1)).map some, keys.map (·.2.2), rest) := by
  induction args generalizing met fuel with
  | nil =>
    simpa using arguments_keys hwords hkeys met rest (show ArgumentStage.positional ≠ .spread by decide) fuel
      (by simpa using hfuel)
  | cons a args ih =>
    obtain ⟨fuel, rfl⟩ : ∃ n, fuel = n + 2 := ⟨fuel - 2, by omega⟩
    have harg := hargs a (by simp)
    have hread := hreads a (by simp)
    have ih := ih (fun b hb => hargs b (by simp [hb])) (fun b hb => hreads b (by simp [hb]))
    rw [List.map_cons, List.cons_append] at hfuel ⊢
    rcases hitems : args.map (·.1) ++ keys.map keyItem with _ | ⟨b, items⟩
    · -- the last argument
      obtain ⟨hargs, hkeys⟩ := List.append_eq_nil_iff.mp hitems
      rw [hitems] at hfuel
      have hvalue := hread fuel (.op ")" :: rest) (ends_cons (by decide) _) (by simp only [commas] at hfuel; omega)
      rw [commas, arguments_close (harg.beginsItem (ends_cons (by decide) _)) hvalue]
      simp [List.map_eq_nil_iff.mp hargs, List.map_eq_nil_iff.mp hkeys]
    · have htokens : tokensOf (commas (a.1 :: b :: items)) =
          tokensOf a.1 ++ .op "," :: tokensOf (commas (b :: items)) := by
        simp [commas]
      rw [hitems] at ih hfuel
      rw [htokens, List.length_append, List.length_cons] at hfuel
      have hvalue := hread fuel (.op "," :: (tokensOf (commas (b :: items)) ++ .op ")" :: rest))
        (ends_cons (by decide) _) (by omega)
      rw [htokens, List.append_assoc, List.cons_append,
        arguments_comma (harg.beginsItem (ends_cons (by decide) _)) hvalue, ih _ _ (by omega)]
      simp

/-! ## Phrases -/

theorem eraseDups_of_nodup {words : List String} (h : words.Nodup) : words.eraseDups = words := by
  induction words with
  | nil => rfl
  | cons w words ih =>
    obtain ⟨hw, hwords⟩ := List.nodup_cons.mp h
    have hfilter : words.filter (fun v => !v == w) = words :=
      List.filter_eq_self.mpr fun v hv => by simpa using fun heq : v = w => hw (heq ▸ hv)
    rw [List.eraseDups_cons, hfilter, ih hwords]

section Primaries
variable {fuel : Nat} {n : String} {ts rest : List Token}

theorem atom_name (hn : n ∉ keywords) : atom (fuel + 1) (.name n :: rest) = some (.name n, rest) := by
  have hne : ∀ w ∈ keywords, n = w → False := fun w hw h => hn (h ▸ hw)
  rw [atom]
  · simp [hn]
  · exact hne "True" (by decide)
  · exact hne "False" (by decide)
  · exact hne "None" (by decide)
  · exact hne "__debug__" (by decide)

theorem atom_text (s : String) (hrest : Ends Rank.primary.followers rest) :
    atom (fuel + 3) (.text s :: rest) = some (.text s, rest) := by
  have hstop : texts (fuel + 1) rest = some ([], false, rest) := by
    refine hrest.cases (P := fun rest => texts (fuel + 1) rest = some ([], false, rest)) ?_ fun o _ more => ?_
    · rw [texts] <;> simp
    · rw [texts] <;> simp
  rw [atom, texts, hstop]
  simp [atom.joined, String.join]

theorem atom_group (hts : BeginsItem ts) (ht : isStarred t = false)
    (h : expression fuel ts = some (t, .op ")" :: rest)) : atom (fuel + 3) (.op "(" :: ts) = some (t, rest) := by
  rw [atom]
  · simp [item_of_beginsItem hts, h, ht]
  · exact hts.mark ")" (by decide)
  · exact hts.given

theorem primary_of_atom {more : List Token} (h : atom fuel ts = some (t, more)) :
    primary (fuel + 1) ts = trailers fuel t more := by
  rw [primary]
  simp only [h]

theorem trailers_member (hn : n ∉ keywords) :
    trailers (fuel + 1) t (.op "." :: .name n :: rest) = trailers fuel (.attribute t n) rest := by
  rw [trailers]
  simp [hn]

theorem trailers_call {args values : List Tree} {words : List String} (hwords : words.Nodup)
    (h : arguments fuel .positional [] ts = some (args, words.map some, values, rest)) :
    trailers (fuel + 1) t (.op "(" :: ts) = trailers fuel (.call t args (words.map some) values) rest := by
  have hgiven : (words.map some).filterMap id = words := by simp
  rw [trailers]
  simp only [h, hgiven, eraseDups_of_nodup hwords, if_true]

end Primaries

/-! ## Phrases are read -/

section ReadAs
variable {ys : List Lexeme} {u : Tree}

theorem readAs_name {n : String} (hn : IsWord n) : ReadAs (tokensOf [word n]) (.name n) .primary := by
  intro fuel rest _ hfuel
  obtain ⟨fuel, rfl⟩ : ∃ k, fuel = k + 2 := ⟨fuel - 2, by simp at hfuel; omega⟩
  exact ⟨fuel + 1, by simp, primary_of_atom (atom_name hn.2)⟩

theorem readAs_text (s : String) : ReadAs (tokensOf [.token (.text s)]) (.text s) .primary := by
  intro fuel rest hrest hfuel
  obtain ⟨fuel, rfl⟩ : ∃ k, fuel = k + 4 := ⟨fuel - 4, by simp at hfuel; omega⟩
  exact ⟨fuel + 3, by simp, primary_of_atom (atom_text s hrest)⟩

theorem readAs_group (h : Phrase .expression xs t) (ih : ReadAs (tokensOf xs) t .expression) :
    ReadAs (tokensOf (mark "(" :: (xs ++ [mark ")"]))) t .primary := by
  intro fuel rest _ hfuel
  simp only [tokensOf_token, tokensOf_append, tokensOf_nil, List.length_cons, List.length_append,
    List.length_nil] at hfuel ⊢
  obtain ⟨fuel, rfl⟩ : ∃ k, fuel = k + 4 := ⟨fuel - 4, by omega⟩
  have hclose : Ends Rank.expression.followers (.op ")" :: rest) := ends_cons (by decide) _
  refine ⟨fuel + 3, by omega, primary_of_atom ?_⟩
  rw [List.cons_append, List.append_assoc]
  exact atom_group (h.beginsItem hclose) h.isStarred_eq (ih fuel _ hclose (by omega))

theorem readAs_member {n : String} (hn : IsWord n) (ih : ReadAs (tokensOf xs) t .primary) :
    ReadAs (tokensOf (xs ++ [mark ".", word n])) (.attribute t n) .primary := by
  intro fuel rest hrest hfuel
  simp only [tokensOf_token, tokensOf_append, tokensOf_nil, List.length_cons, List.length_append,
    List.length_nil] at hfuel ⊢
  obtain ⟨left, hleft, hp⟩ := ih fuel (.op "." :: .name n :: rest) (ends_cons (by decide) _) (by omega)
  obtain ⟨left, rfl⟩ : ∃ k, left = k + 1 := ⟨left - 1, by omega⟩
  refine ⟨left, by omega, ?_⟩
  rw [List.append_assoc]
  exact hp.trans (trailers_member hn.2)

theorem readAs_call {args : List (List Lexeme × Tree)} {keys : List (String × List Lexeme × Tree)}
    (ih : ReadAs (tokensOf xs) t .primary) (hargs : ∀ a ∈ args, Phrase .expression a.1 a.2)
    (ihargs : ∀ a ∈ args, ReadAs (tokensOf a.1) a.2 .expression) (hwords : ∀ k ∈ keys, IsWord k.1)
    (ihkeys : ∀ k ∈ keys, ReadAs (tokensOf k.2.1) k.2.2 .expression) (hnodup : (keys.map (·.1)).Nodup) :
    ReadAs (tokensOf (xs ++ mark "(" :: (commas (args.map (·.1) ++ keys.map keyItem) ++ [mark ")"])))
      (.call t (args.map (·.2)) ((keys.map (·.1)).map some) (keys.map (·.2.2))) .primary := by
  intro fuel rest hrest hfuel
  have hitems := arguments_items hargs ihargs hwords ihkeys [] rest
  simp only [tokensOf_token, tokensOf_append, tokensOf_nil, List.length_cons, List.length_append,
    List.length_nil] at hfuel ⊢
  obtain ⟨left, hleft, hp⟩ := ih fuel (.op "(" :: (tokensOf (commas (args.map (·.1) ++ keys.map keyItem)) ++
    .op ")" :: rest)) (ends_cons (by decide) _) (by omega)
  obtain ⟨left, rfl⟩ : ∃ k, left = k + 1 := ⟨left - 1, by omega⟩
  refine ⟨left, by omega, ?_⟩
  rw [List.append_assoc, List.cons_append, List.append_assoc]
  exact hp.trans (trailers_call hnodup (hitems left (by omega)))

theorem readAs_int (n : Nat) : ReadAs (tokensOf [.token (.int n)]) (.int n) .operand := by
  intro fuel rest hrest hfuel
  obtain ⟨fuel, rfl⟩ : ∃ k, fuel = k + 2 := ⟨fuel - 2, by simp at hfuel; omega⟩
  have hatom : atom (fuel + 1) (.int n :: rest) = some (.int n, rest) := by rw [atom]
  exact (primary_of_atom hatom).trans (trailers_stop hrest fuel _)

theorem readAs_decimal (d : Decimal) : ReadAs (tokensOf [.decimal d]) (.float d.value) .operand := by
  intro fuel rest hrest hfuel
  obtain ⟨fuel, rfl⟩ : ∃ k, fuel = k + 2 := ⟨fuel - 2, by simp at hfuel; omega⟩
  have hatom : atom (fuel + 1) (.float d.value :: rest) = some (.float d.value, rest) := by rw [atom]
  exact (primary_of_atom hatom).trans (trailers_stop hrest fuel _)

theorem readAs_operand (ih : ReadAs (tokensOf xs) t .primary) : ReadAs (tokensOf xs) t .operand := by
  intro fuel rest hrest hfuel
  obtain ⟨left, hleft, hp⟩ := ih fuel rest (hrest.mono (by decide)) (by omega)
  obtain ⟨left, rfl⟩ : ∃ k, left = k + 1 := ⟨left - 1, by omega⟩
  exact hp.trans (trailers_stop hrest left t)

theorem readAs_factor (h : Phrase .operand xs t) (ih : ReadAs (tokensOf xs) t .operand) :
    ReadAs (tokensOf xs) t .factor := by
  intro fuel rest hrest hfuel
  obtain ⟨fuel, rfl⟩ : ∃ k, fuel = k + 2 := ⟨fuel - 2, by omega⟩
  have hp := ih (fuel + 1) rest (hrest.mono (by decide)) (by omega)
  obtain ⟨tk, ts, hts, htk⟩ := h.tokens_opens
  rw [hts, List.cons_append] at hp ⊢
  exact (prefixed_eq htk hp).trans (powers_stop (expect_power hrest))

theorem readAs_power (h : Phrase .operand xs t) (ih : ReadAs (tokensOf xs) t .operand)
    (ih' : ReadAs (tokensOf ys) u .factor) :
    ReadAs (tokensOf (xs ++ mark "**" :: ys)) (.binary .pow t u) .factor := by
  intro fuel rest hrest hfuel
  simp only [tokensOf_token, tokensOf_append, List.length_cons, List.length_append] at hfuel ⊢
  obtain ⟨fuel, rfl⟩ : ∃ k, fuel = k + 2 := ⟨fuel - 2, by omega⟩
  have hb := ih (fuel + 1) (.op "**" :: (tokensOf ys ++ rest)) (ends_cons (by decide) _) (by omega)
  have hx := ih' fuel rest hrest (by omega)
  obtain ⟨tk, ts, hts, htk⟩ := h.tokens_opens
  rw [List.append_assoc, List.cons_append]
  rw [hts, List.cons_append] at hb ⊢
  exact (prefixed_eq htk hb).trans (powers_raised hx)

theorem readAs_minus (ih : ReadAs (tokensOf xs) t .factor) :
    ReadAs (tokensOf (mark "-" :: xs)) (.unary .minus t) .factor := by
  intro fuel rest hrest hfuel
  simp only [tokensOf_token, List.length_cons] at hfuel ⊢
  obtain ⟨fuel, rfl⟩ : ∃ k, fuel = k + 1 := ⟨fuel - 1, by omega⟩
  rw [List.cons_append, prefixed, ih fuel rest hrest (by omega)]
  rfl

theorem readAs_term (ih : ReadAs (tokensOf xs) t .factor) : ReadAs (tokensOf xs) t .term := by
  intro fuel rest hrest hfuel
  obtain ⟨fuel, rfl⟩ : ∃ k, fuel = k + 2 := ⟨fuel - 2, by omega⟩
  have hfactor := ih fuel rest hrest (by omega)
  exact ⟨fuel + 1, by omega, binary_cons (binary_nil.trans hfactor)⟩

/-- The chain of the term goes on with one more factor. -/
theorem readAs_times {o : String} {op : BinaryOp} (ho : (o, op) ∈ [("*", BinaryOp.mul), ("/", .div)])
    (ih : ReadAs (tokensOf xs) t .term) (ih' : ReadAs (tokensOf ys) u .factor) :
    ReadAs (tokensOf (xs ++ mark o :: ys)) (.binary op t u) .term := by
  intro fuel rest hrest hfuel
  simp only [tokensOf_token, tokensOf_append, List.length_cons, List.length_append] at hfuel ⊢
  have hop : o ∈ Rank.term.followers ∧ termLevel.lookup o = some op := by
    simp only [List.mem_cons, Prod.mk.injEq, List.not_mem_nil, or_false] at ho
    rcases ho with ⟨rfl, rfl⟩ | ⟨rfl, rfl⟩ <;> decide
  obtain ⟨left, hleft, hchain⟩ := ih fuel (.op o :: (tokensOf ys ++ rest)) (ends_cons hop.1 _) (by omega)
  obtain ⟨left, rfl⟩ : ∃ k, left = k + 2 := ⟨left - 2, by omega⟩
  have hfactor := ih' left rest hrest (by omega)
  refine ⟨left + 1, by omega, ?_⟩
  rw [List.append_assoc, List.cons_append, hchain]
  exact moreOperands_step hop.2 (binary_nil.trans hfactor)

theorem readAs_sum (ih : ReadAs (tokensOf xs) t .term) : ReadAs (tokensOf xs) t .sum := by
  intro fuel rest hrest hfuel
  obtain ⟨fuel, rfl⟩ : ∃ k, fuel = k + 1 := ⟨fuel - 1, by omega⟩
  obtain ⟨left, hleft, hchain⟩ := ih fuel rest (hrest.mono (by decide)) (by omega)
  obtain ⟨left, rfl⟩ : ∃ k, left = k + 1 := ⟨left - 1, by omega⟩
  refine ⟨fuel, by omega, binary_cons (hchain.trans (moreOperands_stop _ (levelToken_of_ends hrest (by decide))))⟩

/-- The chain of the sum goes on with one more term, whose own chain ends there. -/
theorem readAs_plus {o : String} {op : BinaryOp} (ho : (o, op) ∈ [("+", BinaryOp.add), ("-", .sub)])
    (ih : ReadAs (tokensOf xs) t .sum) (ih' : ReadAs (tokensOf ys) u .term) :
    ReadAs (tokensOf (xs ++ .blank :: mark o :: .blank :: ys)) (.binary op t u) .sum := by
  intro fuel rest hrest hfuel
  simp only [tokensOf_token, tokensOf_blank, tokensOf_append, List.length_cons, List.length_append] at hfuel ⊢
  have hop : o ∈ Rank.sum.followers ∧ sumLevel.lookup o = some op := by
    simp only [List.mem_cons, Prod.mk.injEq, List.not_mem_nil, or_false] at ho
    rcases ho with ⟨rfl, rfl⟩ | ⟨rfl, rfl⟩ <;> decide
  obtain ⟨left, hleft, hchain⟩ := ih fuel (.op o :: (tokensOf ys ++ rest)) (ends_cons hop.1 _) (by omega)
  obtain ⟨left, rfl⟩ : ∃ k, left = k + 1 := ⟨left - 1, by omega⟩
  obtain ⟨last, hlast, hterm⟩ := ih' left rest (hrest.mono (by decide)) (by omega)
  obtain ⟨last, rfl⟩ : ∃ k, last = k + 1 := ⟨last - 1, by omega⟩
  refine ⟨left, by omega, ?_⟩
  rw [List.append_assoc, List.cons_append, hchain]
  exact moreOperands_step hop.2 (hterm.trans (moreOperands_stop _ (levelToken_of_ends hrest (by decide))))

theorem readAs_expression (h : Phrase .sum xs t) (ih : ReadAs (tokensOf xs) t .sum) :
    ReadAs (tokensOf xs) t .expression := by
  intro fuel rest hrest hfuel
  obtain ⟨fuel, rfl⟩ : ∃ k, fuel = k + 9 := ⟨fuel - 9, by omega⟩
  obtain ⟨left, hleft, hchain⟩ := ih (fuel + 1) rest (hrest.mono (by decide)) (by omega)
  obtain ⟨left, rfl⟩ : ∃ k, left = k + 1 := ⟨left - 1, by omega⟩
  obtain ⟨tk, ts, hts, htk⟩ := h.tokens_opens
  have hsum := hchain.trans (moreOperands_stop _ (levelToken_of_ends hrest (by decide)))
  rw [hts, List.cons_append] at hsum ⊢
  -- none of the four looser levels of operators follows a sum
  have hlevels : binary (fuel + 5) binaryLevels (tk :: (ts ++ rest)) = some (t, rest) :=
    binary_through (binary_through (binary_through (binary_through hsum hrest (by decide)) hrest (by decide))
      hrest (by decide)) hrest (by decide)
  have hword : ∀ w ∈ keywords, tk ≠ .name w := by
    rintro w hw rfl
    rcases htk with htk | htk
    · simp at htk
    · exact htk hw
  exact expression_of_binary (hword "lambda" (by decide)) (hword "not" (by decide)) hlevels hrest

theorem readAs_lambda {n : String} (hn : IsWord n) (ih : ReadAs (tokensOf xs) t .expression) :
    ReadAs (tokensOf (word "lambda" :: .blank :: word n :: mark ":" :: .blank :: xs)) (.lambda (.plain [n]) [] t)
      .expression := by
  intro fuel rest hrest hfuel
  simp only [tokensOf_token, tokensOf_blank, List.length_cons] at hfuel ⊢
  obtain ⟨fuel, rfl⟩ : ∃ k, fuel = k + 3 := ⟨fuel - 3, by omega⟩
  have hbody := ih (fuel + 2) rest hrest (by omega)
  have hparameter : parameter (fuel + 1) (.name n :: .op ":" :: (tokensOf xs ++ rest)) =
      some (.plain n none, .op ":" :: (tokensOf xs ++ rest)) := by
    rw [parameter]
    · simp [hn.2]
    · simp
  have hparameters : parameters (fuel + 2) (.name n :: .op ":" :: (tokensOf xs ++ rest)) =
      some ([.plain n none], tokensOf xs ++ rest) := by
    rw [parameters]
    · simp only [hparameter]
    · simp
  have hplain : parametersOf .positional {} [] [] [.plain n none] = some (.plain [n], []) := rfl
  have hall : (Parameters.plain [n]).all = [n] := rfl
  simp only [List.cons_append]
  rw [Formula.expression]
  simp only [hparameters, hplain, hbody, hall, eraseDups_of_nodup (show [n].Nodup by simp), if_true]

end ReadAs

theorem Phrase.readAs (h : Phrase r xs t) : ReadAs (tokensOf xs) t r := by
  induction h with
  | name hn => exact readAs_name hn
  | @text s _ => exact readAs_text s
  | group h ih => exact readAs_group h ih
  | member _ hn ih => exact readAs_member hn ih
  | call _ hargs hwords _ hnodup ih ihargs ihkeys => exact readAs_call ih hargs ihargs hwords ihkeys hnodup
  | int n => exact readAs_int n
  | decimal d => exact readAs_decimal d
  | operand _ ih => exact readAs_operand ih
  | factor h ih => exact readAs_factor h ih
  | power h _ ih ih' => exact readAs_power h ih ih'
  | minus _ ih => exact readAs_minus ih
  | term _ ih => exact readAs_term ih
  | times ho _ _ ih ih' => exact readAs_times ho ih ih'
  | sum _ ih => exact readAs_sum ih
  | plus ho _ _ ih ih' => exact readAs_plus ho ih ih'
  | expression h ih => exact readAs_expression h ih
  | lambda hn _ ih => exact readAs_lambda hn ih

/-! ## Phrases are in place -/

namespace Tree

theorem placedList_eq (block : Block) (es : List Tree) : placedList block es = es.all (placed block) := by
  induction es with
  | nil => rfl
  | cons e es ih => rw [placedList, ih, List.all_cons]

theorem assignsWellList_eq (inSource : Bool) (ns : List String) (es : List Tree) :
    assignsWellList inSource ns es = es.all (assignsWell inSource ns) := by
  induction es with
  | nil => rfl
  | cons e es ih => rw [assignsWellList, ih, List.all_cons]

end Tree

theorem Phrase.placed (h : Phrase r xs t) (block : Tree.Block) : t.placed block = true := by
  induction h generalizing block with
  | group _ ih => exact ih block
  | member _ _ ih => rw [Tree.placed, ih]
  | call _ _ _ _ _ ih ihargs ihkeys =>
    rw [Tree.placed, Tree.placedList_eq, Tree.placedList_eq, ih]
    simpa using ⟨fun a b hab => ihargs (a, b) hab block, fun a b c hk => ihkeys (a, b, c) hk block⟩
  | operand _ ih => exact ih block
  | factor _ ih => exact ih block
  | power _ _ ih ih' => rw [Tree.placed, ih, ih', Bool.and_self]
  | minus _ ih => rw [Tree.placed, ih]
  | term _ ih => exact ih block
  | times _ _ _ ih ih' => rw [Tree.placed, ih, ih', Bool.and_self]
  | sum _ ih => exact ih block
  | plus _ _ _ ih ih' => rw [Tree.placed, ih, ih', Bool.and_self]
  | expression _ ih => exact ih block
  | lambda _ _ ih => rw [Tree.placed, Tree.placedList, ih, Bool.and_self]
  | _ => rfl

theorem Phrase.assignsWell (h : Phrase r xs t) (inSource : Bool) (ns : List String) :
    t.assignsWell inSource ns = true := by
  induction h generalizing ns with
  | group _ ih => exact ih ns
  | member _ _ ih => rw [Tree.assignsWell, ih]
  | call _ _ _ _ _ ih ihargs ihkeys =>
    rw [Tree.assignsWell, Tree.assignsWellList_eq, Tree.assignsWellList_eq, ih]
    simpa using ⟨fun a b hab => ihargs (a, b) hab ns, fun a b c hk => ihkeys (a, b, c) hk ns⟩
  | operand _ ih => exact ih ns
  | factor _ ih => exact ih ns
  | power _ _ ih ih' => rw [Tree.assignsWell, ih, ih', Bool.and_self]
  | minus _ ih => rw [Tree.assignsWell, ih]
  | term _ ih => exact ih ns
  | times _ _ _ ih ih' => rw [Tree.assignsWell, ih, ih', Bool.and_self]
  | sum _ ih => exact ih ns
  | plus _ _ _ ih ih' => rw [Tree.assignsWell, ih, ih', Bool.and_self]
  | expression _ ih => exact ih ns
  | lambda _ _ ih => rw [Tree.assignsWell, Tree.assignsWellList, ih, Bool.and_self]
  | _ => rfl

/-- Nothing in a phrase is out of place. -/
theorem Phrase.wellScoped (h : Phrase r xs t) : t.wellScoped = true := by
  rw [Tree.wellScoped, h.placed, h.assignsWell, Bool.and_self]

/-- A text with the tokens of a phrase has the tree of the phrase. -/
theorem parse_of_tokens {x : Lexeme} (hx : x ≠ .blank) (hs : Separated (x :: ys)) (h : Phrase .expression xs t)
    (htokens : tokensOf (x :: ys) = tokensOf xs) : parse (String.ofList (spell (x :: ys))) = .ok t := by
  obtain ⟨tk, ts, hts, htk⟩ := h.tokens_opens
  have hmark : tk ≠ .newline ∧ tk ≠ .indent := by
    constructor
    all_goals
      rintro rfl
      rcases htk with h | h | h <;> cases h
  have hdrop : (tokensOf xs).dropWhile (fun t => decide (t = .newline)) = tk :: ts := by
    rw [hts, List.dropWhile_cons, if_neg (by simpa using hmark.1)]
  have hread := h.readAs (32 * ((tokensOf xs).length + 1)) [] (ends_nil _) (by omega)
  rw [List.append_nil, hts] at hread
  simp only [parse, readTokens_spell hx hs, htokens, bind, Except.bind, hdrop]
  split
  · rename_i heq
    exact absurd (List.cons.inj heq).1 hmark.2
  · simp only [parseTokens, hread, List.dropWhile_nil, h.wellScoped, if_true]

theorem Phrase.head_ne_blank {x : Lexeme} (h : Phrase r (x :: xs) t) : x ≠ .blank := by
  rintro rfl
  rcases (h.head_opens .blank rfl).eq_or with h | h | h <;> cases h

/-- The text of a phrase has the tree of the phrase. -/
theorem parse_phrase (h : Phrase .expression xs t) : parse (String.ofList (spell xs)) = .ok t := by
  obtain ⟨x, ys, rfl, _⟩ := h.opens
  exact parse_of_tokens h.head_ne_blank h.separated h rfl

end Formula

end FactorPlan
