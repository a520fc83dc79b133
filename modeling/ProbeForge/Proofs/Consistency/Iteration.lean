import Mathlib
import ProbeForge.Consistency.Radius
import ProbeForge.Proofs.Consistency.Supersolution
import ProbeForge.Proofs.Numeric.Rational

/-!
# The power iteration in closed form

Over the rationals the iteration only scales: after `k` rounds its vector is the uniform load after
`k` steps of the shifted grid, divided by its mass. So the ratios that it compares are quotients of
consecutive masses, and the ratio that it reports is the first one that agrees with the one before
it, however far from the radius that is.
-/

namespace ProbeForge.Grid

open Matrix Supersolution

variable {m n : Nat}

def toMatrix (a : Grid ℚ m n) : Matrix (Fin m) (Fin n) ℚ := fun i j => a.entry i j

def Nonnegative (a : Grid ℚ m n) : Prop := ∀ i j, 0 ≤ a.entry i j

theorem total_eq_sum (f : Fin n → ℚ) : total f = ∑ k, f k := by
  unfold total
  induction n with
  | zero => simp
  | succ n ih => rw [Fin.foldl_succ_last, Fin.sum_univ_castSucc, ih]

theorem dot_rat (x y : Vector ℚ n) : dot x y = ∑ k, x.get k * y.get k := total_eq_sum _

theorem get_apply (a : Grid ℚ m n) (x : Vector ℚ n) (i : Fin m) :
    (a.apply x).get i = (a.toMatrix *ᵥ x.get) i := by
  simp only [apply, Vector.get_ofFn, dot_rat]
  rfl

theorem toMatrix_shift (a : Grid ℚ n n) : a.shift.toMatrix = a.toMatrix + 1 := by
  ext i j
  by_cases h : i = j <;> simp [toMatrix, shift, h]

/-! ### Masses and paces -/

variable {a : Grid ℚ n n}

/-- The mass of the uniform load after `k` steps of the shifted grid. -/
def massAfter (a : Grid ℚ n n) (k : Nat) : ℚ := mass (a.toMatrix + 1) k

/-- How much the mass grows in the step after `k`. -/
def pace (a : Grid ℚ n n) (k : Nat) : ℚ := massAfter a (k + 1) / massAfter a k

theorem shifted_nonneg (ha : a.Nonnegative) (i j : Fin n) : 0 ≤ (a.toMatrix + 1) i j := by
  have : 0 ≤ (1 : Matrix (Fin n) (Fin n) ℚ) i j := by rw [one_apply]; split <;> simp
  exact add_nonneg (ha i j) this

theorem massAfter_zero (a : Grid ℚ n n) : massAfter a 0 = n := by simp [massAfter, mass]

theorem massAfter_le_succ (ha : a.Nonnegative) (k : Nat) :
    massAfter a k ≤ massAfter a (k + 1) := by
  have hload : 0 ≤ (a.toMatrix + 1) ^ k *ᵥ 1 := by
    simpa using pow_mulVec_mono (shifted_nonneg ha) (v := 0) (w := 1) (fun _ => zero_le_one) k
  unfold massAfter mass
  refine Finset.sum_le_sum fun i _ => ?_
  have hstep : 0 ≤ (a.toMatrix *ᵥ ((a.toMatrix + 1) ^ k *ᵥ 1)) i :=
    dotProduct_nonneg_of_nonneg (fun j => ha i j) hload
  rw [pow_succ', ← mulVec_mulVec, add_mulVec, one_mulVec, Pi.add_apply]
  exact le_add_of_nonneg_left hstep

theorem massAfter_pos (ha : a.Nonnegative) (hn : 0 < n) (k : Nat) : 0 < massAfter a k := by
  induction k with
  | zero => simpa [massAfter_zero] using hn
  | succ k ih => exact ih.trans_le (massAfter_le_succ ha k)

theorem one_le_pace (ha : a.Nonnegative) (hn : 0 < n) (k : Nat) : 1 ≤ pace a k :=
  (one_le_div (massAfter_pos ha hn k)).mpr (massAfter_le_succ ha k)

/-! ### The iteration -/

/-- The vector of the round after `k`: the uniform load after `k` steps, scaled to a sum of one. -/
def IsShare (a : Grid ℚ n n) (k : Nat) (x : Vector ℚ n) : Prop :=
  ∀ i, x.get i = ((a.toMatrix + 1) ^ k *ᵥ 1) i / massAfter a k

theorem isShare_uniform (a : Grid ℚ n n) :
    IsShare a 0 (.replicate n (Scalar.ratio 1 n)) := by
  intro i
  simp [massAfter_zero]

theorem IsShare.apply {x : Vector ℚ n} {k : Nat} (hx : IsShare a k x) (i : Fin n) :
    (a.shift.apply x).get i = ((a.toMatrix + 1) ^ (k + 1) *ᵥ 1) i / massAfter a k := by
  have hfun : x.get = (massAfter a k)⁻¹ • ((a.toMatrix + 1) ^ k *ᵥ 1) := by
    funext j
    rw [hx j, Pi.smul_apply, smul_eq_mul, div_eq_inv_mul]
  rw [get_apply, toMatrix_shift, hfun, mulVec_smul, mulVec_mulVec, ← pow_succ',
    Pi.smul_apply, smul_eq_mul, div_eq_inv_mul]

theorem IsShare.total {x : Vector ℚ n} {k : Nat} (hx : IsShare a k x) :
    Grid.total (a.shift.apply x).get = pace a k := by
  rw [total_eq_sum, pace, massAfter, mass, Finset.sum_div]
  exact Finset.sum_congr rfl fun i _ => hx.apply i

theorem IsShare.next {x : Vector ℚ n} {k : Nat} (ha : a.Nonnegative) (hn : 0 < n)
    (hx : IsShare a k x) : IsShare a (k + 1) ((a.shift.apply x).map (· / pace a k)) := by
  intro i
  have hk := (massAfter_pos ha hn k).ne'
  rw [Vector.get_map]
  rw [hx.apply i, pace, div_div_div_cancel_right₀ hk]

/-- Two consecutive ratios are as close as the iteration asks for. -/
def Agree (precision : Precision ℚ) (a : Grid ℚ n n) (k : Nat) : Prop :=
  |pace a (k + 1) - pace a k| ≤ precision.tolerance * max 1 (pace a (k + 1))

/-- The ratio of round `k` is the one reported: it is the first that agrees with the one before it,
or the last one that is computed. -/
structure Reports (precision : Precision ℚ) (a : Grid ℚ n n) (k : Nat) : Prop where
  inTime : k + 1 ≤ precision.maxIterations
  first : ∀ j, j + 1 < k → ¬ Agree precision a j
  settled : k + 1 < precision.maxIterations → ∃ j, k = j + 1 ∧ Agree precision a j

theorem Reports.unique {precision : Precision ℚ} {k l : Nat} (hk : Reports precision a k)
    (hl : Reports precision a l) : k = l := by
  have hlt : ∀ {k l}, Reports precision a k → Reports precision a l → ¬ k < l := by
    intro k l hk hl hlt
    obtain ⟨j, rfl, hj⟩ := hk.settled (by have := hl.inTime; omega)
    exact hl.first j hlt hj
  exact le_antisymm (not_lt.mp (hlt hl hk)) (not_lt.mp (hlt hk hl))

/-- From a round whose ratio did not end the iteration, `left` more rounds are granted. -/
theorem growth?_eq (precision : Precision ℚ) (ha : a.Nonnegative) (hn : 0 < n) :
    ∀ (left k : Nat) (x : Vector ℚ n), IsShare a (k + 1) x →
      k + 1 + left = precision.maxIterations → (∀ j, j < k → ¬ Agree precision a j) →
      ∃ l, Reports precision a l ∧
        growth? a.shift precision.tolerance left x (pace a k) = some (pace a l)
  | 0, k, x, _, hbudget, hbefore =>
    ⟨k, ⟨by omega, fun j hj => hbefore j (by omega), fun h => by omega⟩, rfl⟩
  | left + 1, k, x, hx, hbudget, hbefore => by
    have hpos : pace a (k + 1) ≠ 0 := (zero_lt_one.trans_le (one_le_pace ha hn (k + 1))).ne'
    unfold growth?
    simp only [hx.total, Scalar.isZero_rat, hpos, decide_false, Bool.false_eq_true, if_false,
      Scalar.gap_rat, Scalar.larger_rat]
    split
    case isTrue hagree =>
      exact ⟨k + 1, ⟨by omega, fun j hj => hbefore j (by omega), fun _ => ⟨k, rfl, hagree⟩⟩, rfl⟩
    case isFalse hagree =>
      refine growth?_eq precision ha hn left (k + 1) _ (hx.next ha hn) (by omega) fun j hj => ?_
      rcases Nat.lt_succ_iff_lt_or_eq.mp hj with hj | rfl
      · exact hbefore j hj
      · exact hagree

/-- The first ratio has no ratio before it to agree with, so at least two rounds are run. -/
theorem iteratedRadius_eq (precision : Precision ℚ) (ha : a.Nonnegative) (hn : 0 < n)
    (htol : precision.tolerance < 1) (hmax : 0 < precision.maxIterations) :
    ∃ k, Reports precision a k ∧ iteratedRadius precision a = max (pace a k - 1) 0 := by
  obtain ⟨left, hleft⟩ := Nat.exists_eq_succ_of_ne_zero hmax.ne'
  have hone := one_le_pace ha hn 0
  have hx := isShare_uniform a
  have hapart : ¬ |pace a 0 - 0| ≤ precision.tolerance * max 1 (pace a 0) := by
    rw [sub_zero, abs_of_pos (zero_lt_one.trans_le hone), max_eq_right hone]
    nlinarith
  have hpos : pace a 0 ≠ 0 := (zero_lt_one.trans_le hone).ne'
  obtain ⟨k, hk, hgrowth⟩ := growth?_eq precision ha hn left 0 _ (hx.next ha hn)
    (by omega) fun j hj => absurd hj (Nat.not_lt_zero j)
  refine ⟨k, hk, ?_⟩
  simp only [iteratedRadius, hn.ne', if_false, hleft]
  unfold growth?
  simp only [hx.total, Scalar.isZero_rat, hpos, decide_false, Bool.false_eq_true, if_false,
    Scalar.gap_rat, Scalar.larger_rat, hapart, hgrowth]

end ProbeForge.Grid
