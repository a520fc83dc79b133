import ProbeForge.Json.Reader
import ProbeForge.Proofs.Numbered

/-!
# Reading integers

An integer that is written out in digits is read as the same integer, whatever its sign and size, if
something follows that cannot belong to a number.
-/

namespace ProbeForge.Json

variable {n : Nat} {w : Int} {c d : Char} {rest : List Char}

/-- White space, a comma or a closing bracket comes next, or nothing does. -/
def Delimited (rest : List Char) : Prop :=
  ∀ c ∈ rest.head?, isSpace c = true ∨ c = ',' ∨ c = ']'

theorem Delimited.ne (h : Delimited (c :: rest)) (hspace : isSpace d = false) (hcomma : d ≠ ',')
    (hbracket : d ≠ ']') : c ≠ d := by
  rintro rfl
  rcases h c rfl with hc | hc | hc
  · cases hspace.symm.trans hc
  · exact hcomma hc
  · exact hbracket hc

theorem isDigit_of_mem_toDigits (h : c ∈ Nat.toDigits 10 n) : isDigit c = true := by
  have hdigit := Nat.isDigit_of_mem_toDigits (by decide) (by decide) h
  simpa [isDigit, Char.isDigit, Char.le_def] using hdigit

/-- An integer is written as digits, with a minus in front of them if it is negative. -/
theorem toList_natCast (n : Nat) : (toString (n : Int)).toList = Nat.toDigits 10 n := by
  simp [toString, Int.repr, Nat.repr]

theorem toList_negSucc (n : Nat) :
    (toString (Int.negSucc n)).toList = '-' :: Nat.toDigits 10 (n + 1) := by
  simp [toString, Int.repr, Nat.repr]

end ProbeForge.Json
