/-!
# Blank characters

Words are cut and ends are stripped at the Unicode white space, which is wider than
`Char.isWhitespace`. The zero width space U+200B is not blank.
-/

namespace ProbeForge.Text

def isBlank (c : Char) : Bool :=
  let n := c.toNat
  (0x09 ≤ n && n ≤ 0x0D) || (0x1C ≤ n && n ≤ 0x20) || n == 0x85 || n == 0xA0 || n == 0x1680 ||
    (0x2000 ≤ n && n ≤ 0x200A) || n == 0x2028 || n == 0x2029 || n == 0x202F || n == 0x205F ||
    n == 0x3000

/-- Both ends without the characters of `p`. -/
def trimBy (p : Char → Bool) (cs : List Char) : List Char :=
  ((cs.dropWhile p).reverse.dropWhile p).reverse

def strip (s : String) : String := String.ofList (trimBy isBlank s.toList)

/-- The pieces between the characters of `p`; never the empty list. -/
def cutAt (p : Char → Bool) : List Char → List (List Char)
  | [] => [[]]
  | c :: rest =>
    if p c then [] :: cutAt p rest
    else
      match cutAt p rest with
      | [] => [[c]]
      | piece :: pieces => (c :: piece) :: pieces

/-- The maximal runs of characters that are not blank. -/
def words (s : String) : List String :=
  ((cutAt isBlank s.toList).filter (!·.isEmpty)).map String.ofList

/-- Words with one space between them. -/
def collapse (s : String) : String := " ".intercalate (words s)

def isBlankText (s : String) : Bool := s.toList.all isBlank

theorem cutAt_ne_nil (p : Char → Bool) (cs : List Char) : cutAt p cs ≠ [] := by
  cases cs with
  | nil => simp [cutAt]
  | cons c rest =>
    unfold cutAt
    split
    · simp
    · split <;> simp

end ProbeForge.Text
