import Mathlib
import ProbeForge.Proofs.Consistency.Cycles
import ProbeForge.Proofs.Consistency.Iteration

/-!
# Bounds of the reported radius

Each ratio that the power iteration computes is one more than a mean of the column sums, weighted
with the shares of the current vector. So whichever round the iteration stops at, the radius that it
reports is between the least and the greatest column sum, and on a grid with an edge it is not zero.
-/

namespace ProbeForge.Grid

open Matrix Supersolution Relation

variable {n : Nat} {a : Grid ℚ n n} {p : Precision ℚ} {c : ℚ} {i j : Fin n}

def columnSum (a : Grid ℚ n n) (j : Fin n) : ℚ := ∑ i, a.entry i j

/-! ### Growth by columns -/

/-- What the uniform load has become after `k` steps of the shifted grid. -/
def loadAfter (a : Grid ℚ n n) (k : Nat) : Fin n → ℚ := (a.toMatrix + 1) ^ k *ᵥ 1

theorem sum_loadAfter (a : Grid ℚ n n) (k : Nat) : ∑ j, loadAfter a k j = massAfter a k := rfl

theorem loadAfter_succ (a : Grid ℚ n n) (k : Nat) :
    loadAfter a (k + 1) = a.toMatrix *ᵥ loadAfter a k + loadAfter a k := by
  rw [loadAfter, pow_succ', ← mulVec_mulVec, add_mulVec, one_mulVec]
  rfl

/-- The shift keeps what is there, so no place ever has less than in the beginning. -/
theorem one_le_loadAfter (ha : a.Nonnegative) (k : Nat) (j : Fin n) : 1 ≤ loadAfter a k j := by
  induction k generalizing j with
  | zero => simp [loadAfter]
  | succ k ih =>
    have hstep : 0 ≤ (a.toMatrix *ᵥ loadAfter a k) j :=
      Finset.sum_nonneg fun l _ => mul_nonneg (ha j l) (zero_le_one.trans (ih l))
    rw [loadAfter_succ, Pi.add_apply]
    linarith [ih j]

theorem massAfter_succ_sub (a : Grid ℚ n n) (k : Nat) :
    massAfter a (k + 1) - massAfter a k = ∑ j, a.columnSum j * loadAfter a k j := by
  have hstep : ∑ i, (a.toMatrix *ᵥ loadAfter a k) i = ∑ j, a.columnSum j * loadAfter a k j := by
    simp only [mulVec, dotProduct, columnSum, Finset.sum_mul]
    exact Finset.sum_comm
  rw [← sum_loadAfter, ← sum_loadAfter, ← Finset.sum_sub_distrib, ← hstep]
  simp [loadAfter_succ]

theorem columnSum_nonneg (ha : a.Nonnegative) (j : Fin n) : 0 ≤ a.columnSum j :=
  Finset.sum_nonneg fun i _ => ha i j

theorem columnSum_pos (ha : a.Nonnegative) (h : a.Edge i j) : 0 < a.columnSum j :=
  Finset.sum_pos' (fun i _ => ha i j) ⟨i, Finset.mem_univ i, h⟩

theorem pace_sub_one (ha : a.Nonnegative) (hn : 0 < n) (k : Nat) :
    pace a k - 1 = (∑ j, a.columnSum j * loadAfter a k j) / massAfter a k := by
  rw [pace, ← massAfter_succ_sub, sub_div, div_self (massAfter_pos ha hn k).ne']

theorem le_pace_sub_one (ha : a.Nonnegative) (hn : 0 < n) (hc : ∀ j, c ≤ a.columnSum j) (k : Nat) :
    c ≤ pace a k - 1 := by
  rw [pace_sub_one ha hn, le_div_iff₀ (massAfter_pos ha hn k), ← sum_loadAfter, Finset.mul_sum]
  exact Finset.sum_le_sum fun j _ =>
    mul_le_mul_of_nonneg_right (hc j) (zero_le_one.trans (one_le_loadAfter ha k j))

theorem pace_sub_one_le (ha : a.Nonnegative) (hn : 0 < n) (hc : ∀ j, a.columnSum j ≤ c) (k : Nat) :
    pace a k - 1 ≤ c := by
  rw [pace_sub_one ha hn, div_le_iff₀ (massAfter_pos ha hn k), ← sum_loadAfter, Finset.mul_sum]
  exact Finset.sum_le_sum fun j _ =>
    mul_le_mul_of_nonneg_right (hc j) (zero_le_one.trans (one_le_loadAfter ha k j))

theorem pace_sub_one_pos (ha : a.Nonnegative) (h : a.Edge i j) (k : Nat) : 0 < pace a k - 1 := by
  have hn : 0 < n := i.pos
  have hload : ∀ l, 0 < loadAfter a k l := fun l => zero_lt_one.trans_le (one_le_loadAfter ha k l)
  have hsum : 0 < ∑ l, a.columnSum l * loadAfter a k l :=
    Finset.sum_pos' (fun l _ => mul_nonneg (columnSum_nonneg ha l) (hload l).le)
      ⟨j, Finset.mem_univ j, mul_pos (columnSum_pos ha h) (hload j)⟩
  rw [pace_sub_one ha hn]
  exact div_pos hsum (massAfter_pos ha hn k)

/-! ### The reported radius -/

/-- From any round on, and with any tolerance, the iteration ends with one of the ratios. -/
theorem growth?_some (tolerance : ℚ) (ha : a.Nonnegative) (hn : 0 < n) (left : Nat) {k : Nat}
    {x : Vector ℚ n} (hx : IsShare a k x) (estimate : ℚ) :
    ∃ l, growth? a.shift tolerance (left + 1) x estimate = some (pace a l) := by
  -- the total of an iterate is a ratio, and no ratio is below one
  have hpos : ∀ k, pace a k ≠ 0 := fun k => (zero_lt_one.trans_le (one_le_pace ha hn k)).ne'
  induction left generalizing k x estimate with
  | zero =>
    refine ⟨k, ?_⟩
    simp [growth?, hx.total, hpos]
  | succ left ih =>
    rw [growth?]
    simp only [hx.total, Scalar.isZero_rat, hpos, decide_false, Bool.false_eq_true, if_false]
    split
    · exact ⟨k, rfl⟩
    · exact ih (hx.next ha hn) (pace a k)

theorem exists_growth (ha : a.Nonnegative) (hn : 0 < n) (hp : 1 ≤ p.maxIterations) :
    ∃ k, growth? a.shift p.tolerance p.maxIterations (.replicate n (Scalar.ratio 1 n)) 0 =
      some (pace a k) := by
  obtain ⟨left, hleft⟩ := Nat.exists_eq_add_of_le' hp
  rw [hleft]
  exact growth?_some p.tolerance ha hn left (isShare_uniform a) 0

theorem spectralRadius_of_cycle (ha : a.Nonnegative) (hp : 1 ≤ p.maxIterations)
    (hcycle : TransGen a.Edge i i) : ∃ k, spectralRadius p a = pace a k - 1 := by
  have hn : 0 < n := i.pos
  obtain ⟨k, hgrowth⟩ := exists_growth ha hn hp
  refine ⟨k, ?_⟩
  have hpace : 0 ≤ pace a k - 1 := sub_nonneg.mpr (one_le_pace ha hn k)
  rw [spectralRadius, if_neg fun hnil => acyclic_of_isNilpotent hnil i hcycle, iteratedRadius,
    if_neg hn.ne', hgrowth]
  simp [hpace]

theorem spectralRadius_of_acyclic (h : ∀ i, ¬ TransGen a.Edge i i) : spectralRadius p a = 0 :=
  if_pos (isNilpotent_of_acyclic h)

/-- The reported radius is zero exactly if there is no cycle, and otherwise a positive number
between the least and the greatest column sum, whatever the tolerance and whichever round is the
last. The iteration never finds that everything has vanished. -/
theorem spectralRadius_bounded (ha : a.Nonnegative) (hp : 1 ≤ p.maxIterations) :
    (spectralRadius p a = 0 ↔ ∀ i, ¬ TransGen a.Edge i i) ∧
      (∀ i, TransGen a.Edge i i → 0 < spectralRadius p a ∧
        ∃ least greatest, IsLeast (Set.range a.columnSum) least ∧
          IsGreatest (Set.range a.columnSum) greatest ∧
          spectralRadius p a ∈ Set.Icc least greatest) ∧
      (n ≠ 0 → ∃ growth, growth? a.shift p.tolerance p.maxIterations
        (.replicate n (Scalar.ratio 1 n)) 0 = some growth) := by
  have hcyclic : ∀ i, TransGen a.Edge i i → 0 < spectralRadius p a := by
    intro i hcycle
    obtain ⟨k, hradius⟩ := spectralRadius_of_cycle ha hp hcycle
    obtain ⟨j, hedge, -⟩ := exists_step_of_cycle hcycle
    exact hradius ▸ pace_sub_one_pos ha hedge k
  refine ⟨⟨fun hzero i hcycle => (hcyclic i hcycle).ne' hzero, spectralRadius_of_acyclic⟩,
    fun i hcycle => ⟨hcyclic i hcycle, ?_⟩, fun hn => ?_⟩
  · have hsome : Nonempty (Fin n) := ⟨i⟩
    obtain ⟨k, hradius⟩ := spectralRadius_of_cycle ha hp hcycle
    obtain ⟨j, hleast⟩ := Finite.exists_min a.columnSum
    obtain ⟨l, hgreatest⟩ := Finite.exists_max a.columnSum
    refine ⟨_, _, ⟨⟨j, rfl⟩, Set.forall_mem_range.mpr hleast⟩,
      ⟨⟨l, rfl⟩, Set.forall_mem_range.mpr hgreatest⟩, ?_⟩
    rw [hradius]
    exact ⟨le_pace_sub_one ha i.pos hleast k, pace_sub_one_le ha i.pos hgreatest k⟩
  · obtain ⟨k, hgrowth⟩ := exists_growth ha (Nat.pos_of_ne_zero hn) hp
    exact ⟨_, hgrowth⟩

/-- Two places that lead to each other. -/
def swap : Grid ℚ 2 2 := ofFn ![![0, 2], ![1, 0]]

theorem spectralRadius_bounded_swap :
    swap.Nonnegative ∧ TransGen swap.Edge 0 0 ∧ 0 < spectralRadius ⟨0, 3⟩ swap ∧
      ∃ least greatest, IsLeast (Set.range swap.columnSum) least ∧
        IsGreatest (Set.range swap.columnSum) greatest ∧
        spectralRadius ⟨0, 3⟩ swap ∈ Set.Icc least greatest := by
  have hnonneg : swap.Nonnegative := by
    simp [Nonnegative, swap, Fin.forall_fin_two]
  have hcycle : TransGen swap.Edge 0 0 :=
    .tail (b := 1) (.single (by simp [Edge, swap])) (by simp [Edge, swap])
  obtain ⟨-, hcyclic, -⟩ := spectralRadius_bounded (p := ⟨0, 3⟩) hnonneg (by decide)
  exact ⟨hnonneg, hcycle, hcyclic 0 hcycle⟩

end ProbeForge.Grid
