import ProbeForge.Text.Printable
import ProbeForge.Numeric.Fixed

/-!
# Quoted text

Messages show a text between single quotes, or between double quotes if it has a single quote and no
double one. Characters that are not printable are escaped by number.
-/

namespace ProbeForge.Text

def hex (width n : Nat) : String :=
  Numeric.padLeft width '0' (String.ofList (Nat.toDigits 16 n))

def escapeByNumber (n : Nat) : String :=
  if n ≤ 0xFF then "\\x" ++ hex 2 n
  else if n ≤ 0xFFFF then "\\u" ++ hex 4 n
  else "\\U" ++ hex 8 n

def quoteMark (s : String) : Char :=
  if s.toList.contains '\'' && !s.toList.contains '"' then '"' else '\''

def quotedChar (mark c : Char) : String :=
  if c = mark || c = '\\' then String.ofList ['\\', c]
  else if c = '\n' then "\\n"
  else if c = '\r' then "\\r"
  else if c = '\t' then "\\t"
  else if isPrintable c then c.toString
  else escapeByNumber c.toNat

def quoted (s : String) : String :=
  let mark := quoteMark s
  mark.toString ++ String.join (s.toList.map (quotedChar mark)) ++ mark.toString

def quotedOption : Option String → String
  | none => "None"
  | some s => quoted s

/-- Quoted texts between square brackets. -/
def quotedList (xs : List String) : String := "[" ++ ", ".intercalate (xs.map quoted) ++ "]"

end ProbeForge.Text
