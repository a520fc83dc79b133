import Mathlib.Data.List.Basic

/-!
# Numbered names

A name that ends in a separator and a number tells what stands before and what the number is, as no
digit is a separator.
-/

namespace ProbeForge

variable {sep : Char}

/-- Where a text is split at two separators, one of the parts contains the other separator. -/
theorem append_separator_cases {a a' d d' : List Char} (h : a ++ sep :: d = a' ++ sep :: d') :
    a = a' ∧ d = d' ∨ (∃ m, a' = a ++ sep :: m ∧ d = m ++ sep :: d') ∨
      ∃ m, a = a' ++ sep :: m ∧ d' = m ++ sep :: d := by
  obtain ⟨k, hk', hk⟩ | ⟨k, hk', hk⟩ := List.append_eq_append_iff.mp h
  · cases k with
    | nil => exact .inl (by simp_all)
    | cons c m => exact .inr (.inl ⟨m, by simp_all⟩)
  · cases k with
    | nil => exact .inl (by simp_all)
    | cons c m => exact .inr (.inr ⟨m, by simp_all⟩)

/-- A text can be split in one way only at its last separator. -/
theorem eq_of_append_separator {a a' d d' : List Char} (hd : sep ∉ d) (hd' : sep ∉ d')
    (h : a ++ sep :: d = a' ++ sep :: d') : a = a' ∧ d = d' := by
  obtain heq | ⟨m, -, rfl⟩ | ⟨m, -, rfl⟩ := append_separator_cases h
  · exact heq
  · exact absurd (List.mem_append_right m List.mem_cons_self) hd
  · exact absurd (List.mem_append_right m List.mem_cons_self) hd'

theorem notMem_toDigits (hsep : sep.isDigit = false) (n : Nat) : sep ∉ Nat.toDigits 10 n :=
  fun h => by
    cases hsep.symm.trans (Nat.isDigit_of_mem_toDigits (by decide) (by decide) h)

theorem eq_of_append_digits (hsep : sep.isDigit = false) {a a' : List Char} {n n' : Nat}
    (h : a ++ sep :: Nat.toDigits 10 n = a' ++ sep :: Nat.toDigits 10 n') : a = a' ∧ n = n' := by
  obtain ⟨hstem, hdigits⟩ :=
    eq_of_append_separator (notMem_toDigits hsep n) (notMem_toDigits hsep n') h
  have hread := congrArg (Nat.ofDigitChars 10 · 0) hdigits
  exact ⟨hstem, by simpa [Nat.ofDigitChars_toDigits] using hread⟩

theorem toList_numbered (stem : String) (n : Nat) :
    s!"{stem}_{n}".toList = stem.toList ++ '_' :: Nat.toDigits 10 n := by
  simp [toString, String.toList_append]

/-- Names that are numbered differently are different. -/
theorem numbered_inj {stem other : String} {n k : Nat}
    (h : s!"{stem}_{n}" = s!"{other}_{k}") : stem = other ∧ n = k := by
  have hchars := congrArg String.toList h
  rw [toList_numbered, toList_numbered] at hchars
  obtain ⟨hstem, hn⟩ := eq_of_append_digits (by decide) hchars
  exact ⟨String.toList_inj.mp hstem, hn⟩

theorem numbered_ne_stem (stem : String) (n : Nat) : s!"{stem}_{n}" ≠ stem := by
  intro h
  have hlength := congrArg (fun name : String => name.toList.length) h
  rw [toList_numbered, List.length_append, List.length_cons] at hlength
  omega

theorem numbered_not_isEmpty (stem : String) (n : Nat) : s!"{stem}_{n}".isEmpty = false := by
  rw [Bool.eq_false_iff]
  intro h
  have hchars := congrArg String.toList (String.isEmpty_iff.mp h)
  rw [toList_numbered] at hchars
  simp at hchars

/-! ### Blocks -/

theorem toList_blockName (n : Nat) : s!"QB{n}".toList = 'Q' :: 'B' :: Nat.toDigits 10 n := by
  simp [toString, String.toList_append]

/-- Blocks that are numbered differently have different names. -/
theorem blockName_inj {n k : Nat} (h : s!"QB{n}" = s!"QB{k}") : n = k := by
  have hchars := congrArg String.toList h
  rw [toList_blockName, toList_blockName, List.cons_inj_right, List.cons_inj_right] at hchars
  have hread := congrArg (Nat.ofDigitChars 10 · 0) hchars
  simpa [Nat.ofDigitChars_toDigits] using hread

/-- A numbered name has a separator, which the name of a block has not. -/
theorem numbered_ne_blockName (stem : String) (n k : Nat) : s!"{stem}_{n}" ≠ s!"QB{k}" := by
  intro h
  have hmem : '_' ∈ s!"QB{k}".toList := by
    rw [← h, toList_numbered]
    exact List.mem_append_right _ List.mem_cons_self
  rw [toList_blockName, List.mem_cons, List.mem_cons] at hmem
  rcases hmem with hq | hb | hdigits
  · cases hq
  · cases hb
  · exact notMem_toDigits (by decide) k hdigits

end ProbeForge
