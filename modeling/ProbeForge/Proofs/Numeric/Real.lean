import Mathlib.Algebra.Order.Round
import Mathlib.Analysis.Real.Sqrt
import ProbeForge.Proofs.Numeric.Rational

/-!
# Real scalars

The reals as scalars, with their square roots. Statements about distances and scores read the
algorithms over these.
-/

namespace ProbeForge

noncomputable instance : Scalar ℝ where
  decidableLT := inferInstance
  decidableLE := inferInstance
  ofInt n := .ok n
  ratio n d := n / d
  ofFloat x := (((Numeric.Dyadic.ofFloat? x).map (·.toRat)).getD 0 : ℚ)
  truncate x := .ok (if x < 0 then ⌈x⌉ else ⌊x⌋)
  ceil x := .ok ⌈x⌉
  -- a half is rounded up, unless what is below it is even
  round x := .ok (if 2 * Int.fract x = 1 ∧ Even ⌊x⌋ then ⌊x⌋ else round x)
  isFinite _ := true

noncomputable instance : Rooted ℝ where
  sqrt := Real.sqrt

namespace Scalar

@[simp] theorem ratio_real (n d : Nat) : (Scalar.ratio n d : ℝ) = n / d := rfl

theorem isZero_real {x : ℝ} : isZero x = true ↔ x = 0 := by
  unfold isZero
  rcases lt_trichotomy x 0 with h | rfl | h
  · simp [h, h.ne]
  · simp
  · simp [h, h.ne', h.le.not_gt]

@[simp] theorem larger_real (x y : ℝ) : larger x y = max x y := (max_def_lt x y).symm

@[simp] theorem smaller_real (x y : ℝ) : smaller x y = min x y :=
  (min_def_lt y x).symm.trans (min_comm y x)

theorem divide_real {y : ℝ} (x : ℝ) (h : y ≠ 0) : divide x y = .ok (x / y) :=
  if_neg (mt isZero_real.mp h)

end Scalar

namespace Quantity

/-- The number that a quantity is. -/
noncomputable def value : Quantity ℝ → ℝ
  | whole n => n
  | real x => x

theorem toScalar_real (q : Quantity ℝ) : q.toScalar = .ok q.value := by cases q <;> rfl

theorem isZero_iff {q : Quantity ℝ} : q.isZero = true ↔ q.value = 0 := by
  cases q with
  | whole n => simp [isZero, value]
  | real x => exact Scalar.isZero_real

theorem exists_add (p q : Quantity ℝ) : ∃ r, p.add q = .ok r ∧ r.value = p.value + q.value := by
  unfold add
  split
  case h_1 m n => exact ⟨_, rfl, Int.cast_add m n⟩
  case h_2 =>
    rw [toScalar_real, toScalar_real]
    exact ⟨_, rfl, rfl⟩

theorem real_square (x : ℝ) : (real x).square = .ok (real (x * x)) := rfl

/-- Quantities added up one after the other. -/
theorem exists_foldlM_add {ι : Type} (step : Quantity ℝ → ι → Except Fault (Quantity ℝ))
    (f : ι → ℝ) {l : List ι}
    (h : ∀ i ∈ l, ∀ sum, ∃ q, step sum i = .ok q ∧ q.value = sum.value + f i)
    (sum : Quantity ℝ) :
    ∃ q, l.foldlM step sum = .ok q ∧ q.value = sum.value + (l.map f).sum := by
  induction l generalizing sum with
  | nil => exact ⟨sum, rfl, by simp⟩
  | cons i l ih =>
    obtain ⟨next, hnext, hvalue⟩ := h i List.mem_cons_self sum
    obtain ⟨q, hq, hsum⟩ := ih (fun j hj => h j (List.mem_cons_of_mem i hj)) next
    refine ⟨q, ?_, ?_⟩
    · rw [List.foldlM_cons, hnext]
      exact hq
    · rw [hsum, hvalue, List.map_cons, List.sum_cons, add_assoc]

end Quantity

end ProbeForge
