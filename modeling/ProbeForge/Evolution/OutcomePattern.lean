/-!
# Outcome patterns

A pattern is looked for anywhere in an outcome. `^` stands for the beginning of the outcome and `$`
for its end, where a line feed at the end does not count; every other character stands for itself.
-/

namespace ProbeForge.OutcomePattern

/-- Whether the pattern fits the text from its first character on. -/
def fitsAt (atStart : Bool) : List Char → List Char → Bool
  | [], _ => true
  | p :: pattern, text =>
    if p = '^' then atStart && fitsAt atStart pattern text
    else if p = '$' then (text == [] || text == ['\n']) && fitsAt atStart pattern text
    else
      match text with
      | c :: rest => p == c && fitsAt false pattern rest
      | [] => false

def fitsFrom (pattern : List Char) (atStart : Bool) : List Char → Bool
  | [] => fitsAt atStart pattern []
  | c :: rest => fitsAt atStart pattern (c :: rest) || fitsFrom pattern false rest

def isIn (pattern outcome : String) : Bool := fitsFrom pattern.toList true outcome.toList

end ProbeForge.OutcomePattern
