import ProbeForge.Text.Blank

/-!
# What is left of a text without its blanks

Stripping, cutting at blanks and putting blanks between texts change the blanks of a text only. All
of them are followed by one function that deletes every blank.
-/

namespace ProbeForge.Text

variable {p : Char → Bool} {cs : List Char}

theorem trimBy_eq_self (hhead : ∀ c ∈ cs.head?, p c = false) (hlast : ∀ c ∈ cs.getLast?, p c = false) :
    trimBy p cs = cs := by
  have hkeep : ∀ l : List Char, (∀ c ∈ l.head?, p c = false) → l.dropWhile p = l := by
    intro l hl
    cases l with
    | nil => rfl
    | cons c l => exact List.dropWhile_cons_of_neg (by simp [hl c rfl])
  rw [trimBy, hkeep cs hhead, hkeep cs.reverse (by rwa [List.head?_reverse]), List.reverse_reverse]

theorem isBlank_of_isDigit {c : Char} (h : c.isDigit = true) : isBlank c = false := by
  have hbounds : 48 ≤ c.toNat ∧ c.toNat ≤ 57 := by
    simpa [Char.isDigit, UInt32.le_iff_toNat_le] using h
  simp only [isBlank, Bool.or_eq_false_iff, Bool.and_eq_false_iff, decide_eq_false_iff_not,
    beq_eq_false_iff_ne]
  omega

/-! ### Without blanks -/

/-- The characters of a text that are not blank. -/
def inked (s : String) : List Char := s.toList.filter (!isBlank ·)

@[simp] theorem inked_empty : inked "" = [] := rfl

@[simp] theorem inked_append (s t : String) : inked (s ++ t) = inked s ++ inked t := by
  rw [inked, String.toList_append, List.filter_append]
  rfl

theorem filter_dropWhile (l : List Char) : (l.dropWhile p).filter (!p ·) = l.filter (!p ·) := by
  induction l with
  | nil => rfl
  | cons c l ih =>
    by_cases hc : p c = true
    · rw [List.dropWhile_cons_of_pos hc, List.filter_cons_of_neg (by simp [hc]), ih]
    · rw [List.dropWhile_cons_of_neg hc]

theorem filter_trimBy (l : List Char) : (trimBy p l).filter (!p ·) = l.filter (!p ·) := by
  rw [trimBy, List.filter_reverse, filter_dropWhile, List.filter_reverse, List.reverse_reverse,
    filter_dropWhile]

@[simp] theorem inked_strip (s : String) : inked (strip s) = inked s := by
  rw [inked, strip, String.toList_ofList]
  exact filter_trimBy s.toList

theorem inked_join (texts : List String) : inked (String.join texts) = texts.flatMap inked := by
  rw [inked, String.toList_join, List.filter_flatMap]
  rfl

theorem inked_intercalate {between : String} (h : inked between = []) (texts : List String) :
    inked (between.intercalate texts) = texts.flatMap inked := by
  induction texts with
  | nil => rfl
  | cons text texts ih =>
    cases texts with
    | nil => simp
    | cons next texts =>
      rw [String.intercalate_cons_cons, inked_append, inked_append, h, List.append_nil, ih]
      exact List.flatMap_cons.symm

/-- Empty texts add nothing. -/
theorem flatMap_inked_filter (texts : List String) :
    (texts.filter (!·.isEmpty)).flatMap inked = texts.flatMap inked := by
  induction texts with
  | nil => rfl
  | cons text texts ih =>
    by_cases hempty : text.isEmpty = true
    · rw [List.filter_cons_of_neg (by simp [hempty]), ih, List.flatMap_cons,
        String.isEmpty_iff.mp hempty, inked_empty, List.nil_append]
    · rw [List.filter_cons_of_pos (by simp [hempty]), List.flatMap_cons, List.flatMap_cons, ih]

end ProbeForge.Text
