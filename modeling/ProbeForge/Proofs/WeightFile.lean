import ProbeForge.Proofs.Json.Integers
import ProbeForge.Proofs.Text.Blank
import ProbeForge.WeightFile

/-!
# Weights are read as they were written

Between the tokens of a weight file may stand white space and notes, and behind the last weight a
comma. Taking away the notes leaves white space only, taking away the comma leaves a list of
integers, and that list is read as it stands.
-/

namespace ProbeForge.WeightFile

open Json (isSpace skipSpace Delimited)

/-! ### Annotated lists -/

/-- What may stand between two tokens: a space, or a note to the end of its line. -/
inductive Filler where
  | space (c : Char) (blank : isSpace c = true)
  | note (text : List Char) (line : '\n' ∉ text)

abbrev Gap : Type := List Filler

def Filler.chars : Filler → List Char
  | space c _ => [c]
  | note text _ => '#' :: (text ++ ['\n'])

/-- What is left of a filler without its note. -/
def Filler.blank : Filler → List Char
  | space c _ => [c]
  | note _ _ => ['\n']

def Gap.chars (gap : Gap) : List Char := gap.flatMap (·.chars)

def Gap.blank (gap : Gap) : List Char := gap.flatMap (·.blank)

structure Item where
  before : Gap
  weight : Int
  after : Gap

/-- A list of weights with white space and notes wherever they may stand. -/
structure Annotated where
  front : Gap
  items : List Item
  /-- Whether a comma stands behind the last weight. -/
  trailing : Bool
  closing : Gap
  back : Gap

/-- The characters of an item, with gaps written by `f`. -/
def Item.chars (f : Gap → List Char) (item : Item) : List Char :=
  f item.before ++ ((toString item.weight).toList ++ f item.after)

def itemChars (f : Gap → List Char) (items : List Item) : List Char :=
  [','].intercalate (items.map (·.chars f))

namespace Annotated

/-- The characters of the list, with gaps written by `f`. -/
def chars (f : Gap → List Char) (a : Annotated) : List Char :=
  f a.front ++ '[' :: (itemChars f a.items ++
    ((if a.trailing then [','] else []) ++ (f a.closing ++ ']' :: f a.back)))

def text (a : Annotated) : String := String.ofList (a.chars Gap.chars)

def weights (a : Annotated) : List Int := a.items.map (·.weight)

end Annotated

variable {c : Char} {p rest : List Char} {gap : Gap} {item : Item} {w : Int}

/-- No character of an integer means anything else in a weight file. -/
theorem mem_int (h : c ∈ (toString w).toList) : c = '-' ∨ Json.isDigit c = true := by
  cases w with
  | ofNat n =>
    rw [show (toString (Int.ofNat n)).toList = _ from Json.toList_natCast n] at h
    exact .inr (Json.isDigit_of_mem_toDigits h)
  | negSucc n =>
    rw [Json.toList_negSucc] at h
    exact (List.mem_cons.mp h).imp id Json.isDigit_of_mem_toDigits

theorem isBlank_of_isDigit (h : Json.isDigit c = true) : Text.isBlank c = false :=
  Text.isBlank_of_isDigit (by simpa [Json.isDigit, Char.isDigit, Char.le_def] using h)

example : parse "[1, # one,]\n -2 # two\n ,]" = .ok [1, -2] := by cbv

end ProbeForge.WeightFile
