import ProbeForge.Evolution.Tournament

/-!
# Standings

Both rankings keep equal scores in the given order. So the standings begin with the first of the best
candidates, while the ranking that goes upwards ends with the last of them.
-/

namespace ProbeForge

/-- Of any two values with the property one is at most the other, and that is transitive. -/
structure Comparable {α : Type} [LE α] (P : α → Prop) : Prop where
  total {x y : α} (hx : P x) (hy : P y) : x ≤ y ∨ y ≤ x
  trans {x y z : α} (hx : P x) (hy : P y) (hz : P z) (hxy : x ≤ y) (hyz : y ≤ z) : x ≤ z

/-! ### Stable sorting -/

section Sorting

variable {γ : Type} {le : γ → γ → Bool} {l rest : List γ} {x : γ}

section Order

variable (trans : ∀ a b c, le a b → le b c → le a c) (total : ∀ a b, le a b || le b a)

include trans total

/-- A sorted list begins with the first of the least elements. -/
theorem mergeSort_head (h : l.mergeSort le = x :: rest) :
    (∀ y ∈ l, le x y = true) ∧
      ∃ before after, l = before ++ x :: after ∧ ∀ y ∈ before, le y x = false := by
  constructor
  · intro y hy
    have hsorted := List.pairwise_mergeSort trans total l
    have hmem := (List.mergeSort_perm l le).mem_iff.mpr hy
    rw [h] at hsorted hmem
    rcases List.mem_cons.mp hmem with rfl | hrest
    · simpa using total y y
    · exact List.rel_of_pairwise_cons hsorted hrest
  · -- the new element goes in front of its equals and behind all that is less
    induction l generalizing rest with
    | nil =>
      rw [List.mergeSort_nil] at h
      cases h
    | cons a l ih =>
      obtain ⟨smaller, others, hsorted, hl, hstrict⟩ := List.mergeSort_cons trans total a l
      rw [h] at hsorted
      cases smaller with
      | nil =>
        cases hsorted
        exact ⟨[], l, rfl, fun y hy => nomatch hy⟩
      | cons b smaller =>
        -- something is less than the element in front, and the others begin with it
        cases hsorted
        obtain ⟨before, after, rfl, hbefore⟩ := ih hl
        refine ⟨a :: before, after, rfl, List.forall_mem_cons.mpr ⟨?_, hbefore⟩⟩
        simpa using hstrict x List.mem_cons_self

/-- A sorted list ends with the last of the greatest elements. -/
theorem mergeSort_last (h : l.mergeSort le = rest ++ [x]) :
    (∀ y ∈ l, le y x = true) ∧
      ∃ before after, l = before ++ x :: after ∧ ∀ y ∈ after, le x y = false := by
  constructor
  · intro y hy
    have hsorted := List.pairwise_mergeSort trans total l
    have hmem := (List.mergeSort_perm l le).mem_iff.mpr hy
    rw [h] at hsorted hmem
    rcases List.mem_append.mp hmem with hrest | hlast
    · exact (List.pairwise_append.mp hsorted).2.2 y hrest x (List.mem_singleton_self x)
    · cases List.mem_singleton.mp hlast
      simpa using total x x
  · induction l generalizing rest with
    | nil =>
      rw [List.mergeSort_nil] at h
      exact absurd h (by simp)
    | cons a l ih =>
      obtain ⟨smaller, others, hsorted, hl, hstrict⟩ := List.mergeSort_cons trans total a l
      rw [h] at hsorted
      rcases List.eq_nil_or_concat others with rfl | ⟨others, b, rfl⟩
      · obtain ⟨rfl, hlast⟩ := List.append_inj' hsorted rfl
        cases hlast
        refine ⟨[], l, rfl, fun y hy => ?_⟩
        rw [List.append_nil] at hl
        simpa using hstrict y (hl ▸ (List.mergeSort_perm l le).mem_iff.mpr hy)
      · -- something stands behind the element in front, and the others end with it
        rw [List.concat_eq_append, ← List.cons_append, ← List.append_assoc] at hsorted
        obtain ⟨rfl, hlast⟩ := List.append_inj' hsorted rfl
        cases hlast
        rw [List.concat_eq_append, ← List.append_assoc] at hl
        obtain ⟨before, after, rfl, hafter⟩ := ih hl
        exact ⟨a :: before, after, rfl, hafter⟩

end Order

/-- Sorting a list is sorting its elements with a property that all of them have. So it is enough that
the order is one on such elements. -/
theorem exists_restricted {P : γ → Prop} (le : γ → γ → Bool) (hl : ∀ y ∈ l, P y) :
    ∃ l' : List { y // P y }, l = l'.map (·.1) ∧
      l.mergeSort le = (l'.mergeSort fun y z => le y.1 z.1).map (·.1) := by
  have hmap : (l.attachWith P hl).map (·.1) = l := List.attachWith_map_subtype_val hl
  refine ⟨l.attachWith P hl, hmap.symm, ?_⟩
  rw [List.map_mergeSort (s := le) fun _ _ _ _ => rfl, hmap]

end Sorting

/-! ### Best candidates -/

variable {α : Type} [Scalar α] {P : α → Prop} {candidates rest : List (Candidate α)}
  {best winner : Candidate α}

/-- The first of the candidates with the highest score. -/
structure FirstBest (best : Candidate α) (candidates : List (Candidate α)) : Prop where
  highest : ∀ c ∈ candidates, c.score ≤ best.score
  first : ∃ before after, candidates = before ++ best :: after ∧
    ∀ c ∈ before, ¬ best.score ≤ c.score

/-- The last of the candidates with the highest score. -/
structure LastBest (winner : Candidate α) (candidates : List (Candidate α)) : Prop where
  highest : ∀ c ∈ candidates, c.score ≤ winner.score
  last : ∃ before after, candidates = before ++ winner :: after ∧
    ∀ c ∈ after, ¬ winner.score ≤ c.score

theorem Comparable.trans_scores (h : Comparable P) (c d e : { c : Candidate α // P c.score }) :
    decide (c.1.score ≤ d.1.score) → decide (d.1.score ≤ e.1.score) →
      decide (c.1.score ≤ e.1.score) := by
  rw [decide_eq_true_eq, decide_eq_true_eq, decide_eq_true_eq]
  exact h.trans c.2 d.2 e.2

theorem Comparable.total_scores (h : Comparable P) (c d : { c : Candidate α // P c.score }) :
    decide (c.1.score ≤ d.1.score) || decide (d.1.score ≤ c.1.score) := by
  rw [Bool.or_eq_true, decide_eq_true_eq, decide_eq_true_eq]
  exact h.total c.2 d.2

/-- The standings go down. -/
theorem standings_pairwise (hP : Comparable P) (hscores : ∀ c ∈ candidates, P c.score) :
    (Tournament.standings candidates).Pairwise fun c d => d.score ≤ c.score := by
  obtain ⟨l, rfl, hsort⟩ := exists_restricted (P := fun c => P c.score)
    (fun a b : Candidate α => decide (b.score ≤ a.score)) hscores
  rw [Tournament.standings, hsort, List.pairwise_map]
  exact (List.pairwise_mergeSort (fun a b c hab hbc => hP.trans_scores c b a hbc hab)
    (fun a b => hP.total_scores b a) l).imp of_decide_eq_true

theorem firstBest_of_standings (hP : Comparable P) (hscores : ∀ c ∈ candidates, P c.score)
    (h : Tournament.standings candidates = best :: rest) : FirstBest best candidates := by
  obtain ⟨l, rfl, hsort⟩ := exists_restricted (P := fun c => P c.score)
    (fun a b : Candidate α => decide (b.score ≤ a.score)) hscores
  rw [Tournament.standings, hsort] at h
  obtain ⟨⟨first, hfirst⟩, others, hsorted, rfl, -⟩ := List.map_eq_cons_iff.mp h
  obtain ⟨hhighest, before, after, rfl, hbefore⟩ := mergeSort_head
    (fun a b c hab hbc => hP.trans_scores c b a hbc hab)
    (fun a b => hP.total_scores b a) hsorted
  exact ⟨List.forall_mem_map.mpr fun d hd => of_decide_eq_true (hhighest d hd),
    before.map (·.1), after.map (·.1), List.map_append,
    List.forall_mem_map.mpr fun d hd => of_decide_eq_false (hbefore d hd)⟩

theorem lastBest_of_rank (hP : Comparable P) (hscores : ∀ c ∈ candidates, P c.score)
    (h : Breeder.rank candidates = rest ++ [winner]) : LastBest winner candidates := by
  obtain ⟨l, rfl, hsort⟩ := exists_restricted (P := fun c => P c.score)
    (fun a b : Candidate α => decide (a.score ≤ b.score)) hscores
  rw [Breeder.rank, hsort] at h
  obtain ⟨others, single, hsorted, rfl, hlast⟩ := List.map_eq_append_iff.mp h
  obtain ⟨⟨last, hlast⟩, rfl, rfl⟩ := List.map_eq_singleton_iff.mp hlast
  obtain ⟨hhighest, before, after, rfl, hafter⟩ :=
    mergeSort_last hP.trans_scores hP.total_scores hsorted
  exact ⟨List.forall_mem_map.mpr fun d hd => of_decide_eq_true (hhighest d hd),
    before.map (·.1), after.map (·.1), List.map_append,
    List.forall_mem_map.mpr fun d hd => of_decide_eq_false (hafter d hd)⟩

/-- A ranking of candidates ends with the last of the best. -/
theorem exists_lastBest (hP : Comparable P) (hscores : ∀ c ∈ candidates, P c.score)
    (hne : candidates ≠ []) :
    ∃ winner, (Breeder.rank candidates).getLast? = some winner ∧ LastBest winner candidates := by
  have hranked : Breeder.rank candidates ≠ [] := fun hnil =>
    hne (List.eq_nil_of_length_eq_zero (by simpa [Breeder.rank] using congrArg List.length hnil))
  exact ⟨_, List.getLast?_eq_some_getLast hranked,
    lastBest_of_rank hP hscores (List.dropLast_concat_getLast hranked).symm⟩

/-- Standings are split at the last of the best: those in front of it tie with the first, and those
behind it do not. -/
theorem exists_tied (hP : Comparable P) (hscores : ∀ c ∈ candidates, P c.score)
    (hstandings : Tournament.standings candidates = best :: rest) :
    ∃ tied winner below, best :: rest = tied ++ winner :: below ∧
      (Breeder.rank (best :: rest)).getLast? = some winner ∧ best.score ≤ winner.score ∧
      (∀ c ∈ tied, best.score ≤ c.score) ∧ ∀ c ∈ below, ¬ best.score ≤ c.score := by
  have hperm : (best :: rest).Perm candidates := hstandings ▸ List.mergeSort_perm candidates _
  have hranked : ∀ c ∈ best :: rest, P c.score := fun c hc => hscores c (hperm.mem_iff.mp hc)
  have hsorted := hstandings ▸ standings_pairwise hP hscores
  obtain ⟨winner, hlast, hhighest, tied, below, hsplit, hbelow⟩ :=
    exists_lastBest hP hranked (List.cons_ne_nil best rest)
  have hfirst := (firstBest_of_standings hP hscores hstandings).highest
  have hbest := hranked best List.mem_cons_self
  have hle := hhighest best List.mem_cons_self
  have hmem : winner ∈ best :: rest := by simp [hsplit]
  refine ⟨tied, winner, below, hsplit, hlast, hle, fun c hc => ?_, fun c hc hge => ?_⟩
  · rw [hsplit] at hsorted
    have hdown := (List.pairwise_append.mp hsorted).2.2 c hc winner List.mem_cons_self
    exact hP.trans hbest (hranked winner hmem) (hranked c (by simp [hsplit, hc])) hle hdown
  · have hwinner := hfirst winner (hperm.mem_iff.mp hmem)
    exact hbelow c hc
      (hP.trans (hranked winner hmem) hbest (hranked c (by simp [hsplit, hc])) hwinner hge)

end ProbeForge
