/-!
Quoted text: a text between quotes with its unprintable characters escaped.
Single quotes are used unless the text holds single quotes and no double ones.

Correspondence:
  `repr` of a text          ↔ `quoted`
  `repr` of a list of texts ↔ `quotedList`
-/

namespace FactorPlan

namespace Text

/-- Characters that are written as escapes. -/
def isUnprintable (c : Char) : Bool :=
  let n := c.toNat
  let within (a b : Nat) : Bool := a ≤ n && n ≤ b
  n < 32 || within 0x7F 0xA0 || n == 0xAD || within 0x2000 0x200F || within 0x2028 0x202F ||
  within 0x205F 0x206F || n == 0x3000 || n == 0xFEFF || within 0xE000 0xF8FF || within 0xFFF0 0xFFFB ||
  n == 0x1680 || within 0xD800 0xDFFF

/-- A number in base sixteen with at least `width` digits. -/
def hex (width n : Nat) : String :=
  let d := Nat.toDigits 16 n
  String.ofList (List.replicate (width - d.length) '0' ++ d)

/-- One character between quotes. -/
def escape (quote c : Char) : String :=
  if c = '\\' then "\\\\"
  else if c = quote then "\\" ++ String.ofList [c]
  else if c = '\n' then "\\n"
  else if c = '\r' then "\\r"
  else if c = '\t' then "\\t"
  else if isUnprintable c then
    if c.toNat < 256 then "\\x" ++ hex 2 c.toNat
    else if c.toNat < 65536 then "\\u" ++ hex 4 c.toNat
    else "\\U" ++ hex 8 c.toNat
  else String.ofList [c]

/-- The text between quotes. -/
def quoted (s : String) : String :=
  let cs := s.toList
  let quote := if cs.contains '\'' && !cs.contains '"' then '"' else '\''
  String.ofList [quote] ++ String.join (cs.map (escape quote)) ++ String.ofList [quote]

/-- A list of quoted texts between square brackets. -/
def quotedList (ss : List String) : String := "[" ++ ", ".intercalate (ss.map quoted) ++ "]"

end Text

end FactorPlan
