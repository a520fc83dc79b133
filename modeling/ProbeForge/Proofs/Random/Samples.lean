import Mathlib.Data.List.Nodup
import Mathlib.Data.List.Perm.Basic
import ProbeForge.Random.Source

/-!
# Samples

A sample has as many elements as were asked for, from different positions of the list. This holds
for both ways in which samples are drawn and for every source of draws.
-/

namespace ProbeForge.RandomSource

open List

variable {α ρ : Type}

/-- A pool from which one element was taken, where the last one has its place now. -/
theorem cons_pop_perm {pool : Array α} {n j : Nat} (hsize : pool.size = n + 1)
    (hj : j < pool.size) :
    (pool[j] :: (pool.set j pool[n]).pop.toList).Perm pool.toList := by
  set filled := pool.set j pool[n] with hfilled
  -- the last element stands at the end of the filled pool, whichever was drawn
  have hsplit : filled.toList = filled.pop.toList ++ [pool[n]] := by
    have hne : filled.toList ≠ [] := by
      rw [← List.length_pos_iff, Array.length_toList, hfilled, Array.size_set]
      omega
    have hlast : filled.toList.getLast hne = pool[n] := by
      simp [hfilled, hsize, List.getLast_eq_getElem, List.getElem_set]
    rw [Array.toList_pop, ← hlast, List.dropLast_concat_getLast]
  have hset : (pool[j] :: filled.toList).Perm (pool[n] :: pool.toList) := by
    have h := getD_set_perm_cons pool.toList j pool[n]
    simpa [hfilled, hj] using h
  rw [hsplit] at hset
  have hswap : (pool[n] :: pool[j] :: filled.pop.toList).Perm
      (pool[j] :: (filled.pop.toList ++ [pool[n]])) :=
    (Perm.swap _ _ _).trans ((perm_append_singleton _ _).symm.cons _)
  exact (hswap.trans hset).cons_inv

variable [RandomSource ρ]

theorem samplePool_subperm {k : Nat} {pool : Array α} (hk : k ≤ pool.size) (source : ρ) :
    (samplePool k pool source).1.length = k ∧ (samplePool k pool source).1 <+~ pool.toList := by
  induction k generalizing pool source with
  | zero => exact ⟨rfl, nil_subperm⟩
  | succ k ih =>
    unfold samplePool
    split
    case h_1 hsize => omega
    case h_2 n hsize =>
      obtain ⟨j, rest⟩ := below n source
      have hj : j.val < pool.size := hsize ▸ j.isLt
      have hk : k ≤ (pool.set j.val pool[n]).pop.size := by
        rw [Array.size_pop, Array.size_set]
        omega
      obtain ⟨hlength, hsub⟩ := ih hk rest
      exact ⟨congrArg (· + 1) hlength,
        ((subperm_cons _).mpr hsub).trans (cons_pop_perm hsize hj).subperm⟩

/-- A position that is not taken is found, by draws or in the end without. -/
theorem freshIndex_spec {n : Nat} {taken : List Nat} (htaken : taken.length ≤ n) (fuel : Nat)
    (source : ρ) :
    (freshIndex n taken fuel source).1 ∉ taken ∧ (freshIndex n taken fuel source).1 ≤ n := by
  induction fuel generalizing source with
  | zero =>
    unfold freshIndex
    cases hfind : (List.range (n + 1)).find? (!taken.contains ·) with
    | some i =>
      have hi := List.mem_range.mp (List.mem_of_find?_eq_some hfind)
      exact ⟨by simpa using List.find?_some hfind, Nat.le_of_lt_succ hi⟩
    | none =>
      -- there are more positions than are taken
      have hall : List.range (n + 1) ⊆ taken := fun i hi => by
        simpa using List.find?_eq_none.mp hfind i hi
      have hle := (subperm_of_subset List.nodup_range hall).length_le
      rw [List.length_range] at hle
      omega
  | succ fuel ih =>
    unfold freshIndex
    dsimp only
    split
    · exact ih _
    case isFalse hfree => exact ⟨by simpa using hfree, Nat.le_of_lt_succ (below n source).1.isLt⟩

theorem sampleIndices_spec {n k : Nat} {taken : List Nat} (hk : taken.length + k ≤ n + 1)
    (hnodup : taken.Nodup) (hle : ∀ i ∈ taken, i ≤ n) (source : ρ) :
    (sampleIndices n k taken source).1.length = taken.length + k ∧
      (sampleIndices n k taken source).1.Nodup ∧
      ∀ i ∈ (sampleIndices n k taken source).1, i ≤ n := by
  induction k generalizing taken source with
  | zero => exact ⟨by simp [sampleIndices], by simpa [sampleIndices], by simpa [sampleIndices]⟩
  | succ k ih =>
    unfold sampleIndices
    have htaken : taken.length ≤ n := by omega
    obtain ⟨hfree, hj⟩ := freshIndex_spec htaken patience source
    have hmore : ((freshIndex n taken patience source).1 :: taken).length + k ≤ n + 1 := by
      rw [List.length_cons]
      omega
    obtain ⟨hlength, hrest⟩ := ih hmore (List.nodup_cons.mpr ⟨hfree, hnodup⟩)
      (List.forall_mem_cons.mpr ⟨hj, hle⟩) (freshIndex n taken patience source).2
    exact ⟨by rw [hlength, List.length_cons]; omega, hrest⟩

omit [RandomSource ρ] in
theorem filterMap_getElem?_range (xs : List α) :
    (List.range xs.length).filterMap (xs[·]?) = xs := by
  induction xs with
  | nil => rfl
  | cons x xs ih =>
    rw [List.length_cons, List.range_succ_eq_map, List.filterMap_cons, List.filterMap_map]
    exact congrArg (x :: ·) ih

omit [RandomSource ρ] in
/-- The elements at different positions of a list. -/
theorem filterMap_getElem?_subperm {xs : List α} {positions : List Nat} (hnodup : positions.Nodup)
    (hlt : ∀ i ∈ positions, i < xs.length) :
    (positions.filterMap (xs[·]?)).length = positions.length ∧
      positions.filterMap (xs[·]?) <+~ xs := by
  constructor
  · rw [List.length_filterMap_eq_countP, List.countP_eq_length]
    exact fun i hi => by simpa using hlt i hi
  · obtain ⟨sorted, hperm, hsub⟩ :=
      subperm_of_subset hnodup fun i hi => List.mem_range.mpr (hlt i hi)
    refine ⟨_, hperm.filterMap _, ?_⟩
    simpa only [filterMap_getElem?_range] using hsub.filterMap (xs[·]?)

/-- A sample is a part of the list, in the order drawn. -/
theorem sample_ok {xs drawn : List α} {k : Nat} {source : ρ}
    (h : (sample xs k source).1 = .ok drawn) : drawn.length = k ∧ drawn <+~ xs := by
  unfold sample at h
  split at h
  · cases h
  case isFalse hk =>
    split at h
    · cases h
      exact samplePool_subperm (by simpa using hk) source
    · cases h
      have hroom : ([] : List Nat).length + k ≤ xs.length - 1 + 1 := by
        rw [List.length_nil]
        omega
      obtain ⟨hlength, hnodup, hle⟩ :=
        sampleIndices_spec hroom List.nodup_nil (fun i hi => nomatch hi) source
      have hlt : ∀ i ∈ (sampleIndices (xs.length - 1) k [] source).1, i < xs.length :=
        fun i hi => by have hi := hle i hi; omega
      obtain ⟨hsame, hsub⟩ := filterMap_getElem?_subperm hnodup hlt
      exact ⟨by rw [hsame, hlength, List.length_nil, Nat.zero_add], hsub⟩

theorem nodup_sample {xs drawn : List α} {k : Nat} {source : ρ}
    (h : (sample xs k source).1 = .ok drawn) (hxs : xs.Nodup) : drawn.Nodup := by
  obtain ⟨sorted, hperm, hsub⟩ := (sample_ok h).2
  exact hperm.nodup_iff.mp (hxs.sublist hsub)

theorem exists_sample {xs : List α} {k : Nat} (hk : k ≤ xs.length) (source : ρ) :
    ∃ drawn, (sample xs k source).1 = .ok drawn := by
  unfold sample
  rw [if_neg (by omega)]
  split <;> exact ⟨_, rfl⟩

end ProbeForge.RandomSource
