import ProbeForge.Json.Basic

/-!
# Writing JSON

One line without spaces. Only what must be escaped in a string is; `NaN` and the infinities are
written the way they are read.
-/

namespace ProbeForge.Json

def escaped (c : Char) : String :=
  if c = '"' then "\\\""
  else if c = '\\' then "\\\\"
  else if c.toNat < 0x20 then "\\u" ++ Text.hex 4 c.toNat
  else c.toString

def writeText (s : String) : String :=
  "\"" ++ String.join (s.toList.map escaped) ++ "\""

def writeReal (x : Float) : String :=
  if x.isNaN then "NaN"
  else if x.isInf then (if x < 0 then "-Infinity" else "Infinity")
  else Numeric.shortestText x

/-- The text of a value. -/
def write : Json → String
  | null => "null"
  | bool b => if b then "true" else "false"
  | int n => toString n
  | real x => writeReal x
  | text s => writeText s
  | list xs => "[" ++ ",".intercalate (writeList xs) ++ "]"
  | record fields => "\x7b" ++ ",".intercalate (writeFields fields) ++ "\x7d"
where
  writeList : List Json → List String
    | [] => []
    | x :: xs => x.write :: writeList xs
  writeFields : List (String × Json) → List String
    | [] => []
    | (key, x) :: fields => (writeText key ++ ":" ++ x.write) :: writeFields fields

end ProbeForge.Json
