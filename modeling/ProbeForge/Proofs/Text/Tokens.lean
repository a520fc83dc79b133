import Mathlib.Data.List.Chain
import ProbeForge.Proofs.Text.Blank

/-!
# Tokens

A text is cut into numbers and marks: the maximal runs of digits, and every other character by
itself. What was put together from numbers and marks is cut into them again, as long as no two
numbers stand side by side.
-/

namespace ProbeForge.Text

/-- The maximal runs of digits and, one by one, the other characters. -/
def tokens : List Char → List String
  | [] => []
  | c :: rest =>
    if c.isDigit then
      String.ofList (c :: rest.takeWhile (·.isDigit)) :: tokens (rest.dropWhile (·.isDigit))
    else String.ofList [c] :: tokens rest
termination_by cs => cs.length
decreasing_by
  · exact Nat.lt_succ_of_le (List.dropWhile_suffix _).length_le
  · exact Nat.lt_succ_self _

def IsNumber (t : String) : Prop := t.toList ≠ [] ∧ ∀ c ∈ t.toList, c.isDigit = true

def IsMark (t : String) : Prop :=
  ∃ c : Char, t.toList = [c] ∧ c.isDigit = false ∧ isBlank c = false

def IsToken (t : String) : Prop := IsNumber t ∨ IsMark t

/-- Not both are numbers. -/
def Apart (a b : String) : Prop := ¬ (IsNumber a ∧ IsNumber b)

variable {t : String} {l l' : List String}

theorem IsMark.not_number (h : IsMark t) : ¬ IsNumber t := by
  obtain ⟨c, hchars, hdigit, -⟩ := h
  rintro ⟨-, hall⟩
  cases hdigit.symm.trans (hall c (by simp [hchars]))

theorem isNumber_toString (n : Nat) : IsNumber (toString n) := by
  have hchars : (toString n).toList = Nat.toDigits 10 n := by simp [toString]
  refine ⟨hchars ▸ Nat.toDigits_ne_nil, fun c hc => ?_⟩
  exact Nat.isDigit_of_mem_toDigits (by decide) (by decide) (hchars ▸ hc)

/-- Tokens have no blanks. -/
theorem IsToken.inked_eq (h : IsToken t) : inked t = t.toList := by
  refine List.filter_eq_self.mpr fun c hc => ?_
  rcases h with ⟨-, hdigits⟩ | ⟨d, hchars, -, hblank⟩
  · simp [isBlank_of_isDigit (hdigits c hc)]
  · rw [hchars, List.mem_singleton] at hc
    simp [hc, hblank]

theorem isChain_mark (ht : IsMark t) (hl : l.IsChain Apart) (hl' : l'.IsChain Apart) :
    (l ++ t :: l').IsChain Apart := by
  refine List.isChain_append.mpr ⟨hl, ?_, ?_⟩
  · refine List.isChain_cons.mpr ⟨fun a _ h => ht.not_number h.1, hl'⟩
  · intro a _ b hb h
    cases hb
    exact ht.not_number h.2

/-- A run of digits is maximal where no digit follows. -/
theorem span_digits {ds rest : List Char} (hds : ∀ c ∈ ds, c.isDigit = true)
    (hend : ∀ c ∈ rest.head?, c.isDigit = false) :
    (ds ++ rest).takeWhile (·.isDigit) = ds ∧ (ds ++ rest).dropWhile (·.isDigit) = rest := by
  rw [List.takeWhile_append_of_pos hds, List.dropWhile_append_of_pos hds]
  cases rest with
  | nil => simp
  | cons c rest =>
    have hc := hend c rfl
    simp [hc]

theorem tokens_flatMap (htokens : ∀ t ∈ l, IsToken t) (hapart : l.IsChain Apart) :
    tokens (l.flatMap (·.toList)) = l := by
  induction l with
  | nil => simp [tokens]
  | cons t l ih =>
    obtain ⟨ht, hl⟩ := List.forall_mem_cons.mp htokens
    obtain ⟨hhead, htail⟩ := List.isChain_cons.mp hapart
    have ih := ih hl htail
    rw [List.flatMap_cons]
    rcases ht with hnumber | ⟨c, hchars, hdigit, -⟩
    · -- what follows a number is a mark
      have hend : ∀ c ∈ (l.flatMap (·.toList)).head?, c.isDigit = false := by
        cases l with
        | nil => simp
        | cons u l =>
          obtain ⟨hu, -⟩ := List.forall_mem_cons.mp hl
          obtain ⟨c, hchars, hdigit, -⟩ := hu.resolve_left fun hu => hhead u rfl ⟨hnumber, hu⟩
          simp [hchars, hdigit]
      obtain ⟨hsome, hdigits⟩ := hnumber
      cases hchars : t.toList with
      | nil => exact absurd hchars hsome
      | cons c ds =>
        obtain ⟨hc, hds⟩ := List.forall_mem_cons.mp (hchars ▸ hdigits)
        obtain ⟨htake, hdrop⟩ := span_digits hds hend
        rw [List.cons_append, tokens, if_pos hc, htake, hdrop, ih, ← hchars, String.ofList_toList]
    · rw [hchars, List.cons_append, List.nil_append, tokens, if_neg (by simp [hdigit]), ih,
        ← hchars, String.ofList_toList]

end ProbeForge.Text
