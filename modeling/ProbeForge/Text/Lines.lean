/-!
# Lines

Two rules meet a text file. Reading one turns every carriage return, alone or before a line feed,
into a line feed. Cutting a text into lines then ends a line at each of the Unicode line ends.
-/

namespace ProbeForge.Text

def isLineEnd (c : Char) : Bool :=
  let n := c.toNat
  (0x0A ≤ n && n ≤ 0x0D) || (0x1C ≤ n && n ≤ 0x1E) || n == 0x85 || n == 0x2028 || n == 0x2029

/-- Line feeds only. -/
def unifyNewlines : List Char → List Char
  | [] => []
  | '\r' :: '\n' :: rest => '\n' :: unifyNewlines rest
  | c :: rest => (if c = '\r' then '\n' else c) :: unifyNewlines rest

/-- The pieces between line ends, with an empty last piece after a final line end. -/
def cutLines : List Char → List (List Char)
  | [] => [[]]
  | '\r' :: '\n' :: rest => [] :: cutLines rest
  | c :: rest =>
    if isLineEnd c then [] :: cutLines rest
    else
      match cutLines rest with
      | [] => [[c]]
      | piece :: pieces => (c :: piece) :: pieces

/-- A text that ends with a line end has no empty line after it. -/
def lines (s : String) : List String :=
  let pieces := cutLines s.toList
  let pieces := if pieces.getLast? = some [] then pieces.dropLast else pieces
  pieces.map String.ofList

end ProbeForge.Text
