import FactorPlan.Text.Lines

/-!
The spelling of lexemes: quoted texts stand between double quotes where that needs
no more escapes, numbers are written in lower case with digits on both sides of the
point, and a comment has a blank after its mark.

Correspondence:
  `normalize_string_quotes`   ↔ `quotedSpelling`
  `normalize_numeric_literal` ↔ `numberSpelling`
  `make_comment`              ↔ `commentSpelling`
-/

namespace FactorPlan

namespace Tidy

/-! ## Quoted texts -/

/-- Removes the backslash before each escaped `q`. -/
def unescape (q : Char) : List Char → List Char
  | [] => []
  | '\\' :: c :: rest => if c = q then q :: unescape q rest else '\\' :: c :: unescape q rest
  | c :: rest => c :: unescape q rest

/-- Puts a backslash before each `q` that has none. -/
def escapeQuote (q : Char) : List Char → List Char
  | [] => []
  | '\\' :: c :: rest => '\\' :: c :: escapeQuote q rest
  | c :: rest => if c = q then '\\' :: q :: escapeQuote q rest else c :: escapeQuote q rest

/-- Whether `q` occurs without a backslash before it. -/
def hasBare (q : Char) : List Char → Bool
  | [] => false
  | '\\' :: _ :: rest => hasBare q rest
  | c :: rest => c == q || hasBare q rest

/-- The body of a quoted text and its quote, chosen between the quote `q` that it has
and the other one, `r`. Double quotes are taken unless they need more escapes. -/
def chooseQuote (q r : Char) (raw : Bool) (body : List Char) : Char × List Char :=
  if raw then
    if q = '"' ∨ hasBare r body then (q, body) else (r, body)
  else
    let body := unescape r body
    let other := escapeQuote r (unescape q body)
    let had := body.count '\\'
    let has := other.count '\\'
    if has > had ∨ (has = had ∧ q = '"') then (q, body) else (r, other)

/-- The spelling of a quoted text with its marks and quotes. -/
def quotedSpelling (s : String) : String :=
  let cs := s.toList
  let marks := cs.takeWhile (fun c => c ≠ '\'' ∧ c ≠ '"')
  match cs.dropWhile (fun c => c ≠ '\'' ∧ c ≠ '"') with
  | '"' :: '"' :: '"' :: _ => s
  | '\'' :: '\'' :: '\'' :: _ => s
  | q :: body =>
    let r := if q = '"' then '\'' else '"'
    let raw := marks.any (fun c => c.toLower = 'r')
    let (quote, body) := chooseQuote q r raw body.dropLast
    String.ofList (marks ++ quote :: body ++ [quote])
  | [] => s

/-! ## Numbers -/

/-- A number without exponent, with digits on both sides of the point. -/
def plainSpelling (cs : List Char) : List Char :=
  match cs.dropWhile Char.isDigit with
  | '.' :: part =>
    let whole := cs.takeWhile Char.isDigit
    (if whole.isEmpty then ['0'] else whole) ++ '.' :: (if part.isEmpty then ['0'] else part)
  | _ => cs

/-- The spelling of a number. An exponent has no plus sign. -/
def numberSpelling (s : String) : String :=
  let cs := s.toList.map Char.toLower
  match cs.dropWhile (· ≠ 'e') with
  | 'e' :: '+' :: exponent => String.ofList (plainSpelling (cs.takeWhile (· ≠ 'e')) ++ 'e' :: exponent)
  | 'e' :: exponent => String.ofList (plainSpelling (cs.takeWhile (· ≠ 'e')) ++ 'e' :: exponent)
  | _ => String.ofList (plainSpelling cs)

/-! ## Comments -/

/-- The spelling of a comment: one blank after the mark, unless a sign that makes the
mark a longer one follows it, and none at the end. -/
def commentSpelling (s : String) : String :=
  match (s.toList.reverse.dropWhile Text.isSpace).reverse with
  | '#' :: c :: rest =>
    if " !:#'".toList.contains c then String.ofList ('#' :: c :: rest)
    else String.ofList ('#' :: ' ' :: c :: rest)
  | _ => "#"

end Tidy

end FactorPlan
