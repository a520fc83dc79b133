import Mathlib.Data.Rat.Floor
import ProbeForge.Numeric.Scalar

/-!
# Rational scalars

The rationals as scalars: every conversion is exact and no integer is too large. Statements about
radii and normal weights read the algorithms over these.
-/

namespace ProbeForge

/-- The value of a finite float; a float that is not finite has none and counts as zero. -/
def Numeric.Dyadic.toRat (d : Dyadic) : ℚ :=
  (if d.negative then -1 else 1) * d.mantissa * 2 ^ d.exponent

/-- To the nearest integer, a half to the even one. -/
def Numeric.roundRat (x : ℚ) : ℤ :=
  let below := ⌊x⌋
  if 2 * (x - below) < 1 then below
  else if 1 < 2 * (x - below) then below + 1
  else if below % 2 = 0 then below else below + 1

instance : Scalar ℚ where
  decidableLT := inferInstance
  decidableLE := inferInstance
  ofInt n := .ok n
  ratio n d := n / d
  ofFloat x := ((Numeric.Dyadic.ofFloat? x).map (·.toRat)).getD 0
  truncate x := .ok (if x < 0 then ⌈x⌉ else ⌊x⌋)
  ceil x := .ok ⌈x⌉
  round x := .ok (Numeric.roundRat x)
  isFinite _ := true

namespace Scalar

@[simp] theorem ofInt_rat (n : Int) : (Scalar.ofInt n : Except Fault ℚ) = .ok n := rfl

@[simp] theorem ratio_rat (n d : Nat) : (Scalar.ratio n d : ℚ) = n / d := rfl

@[simp] theorem isZero_rat (x : ℚ) : isZero x = decide (x = 0) := by
  unfold isZero
  rcases lt_trichotomy x 0 with h | rfl | h
  · simp [h, h.ne]
  · simp
  · simp [h, h.ne', h.le.not_gt]

@[simp] theorem larger_rat (x y : ℚ) : larger x y = max x y := (max_def_lt x y).symm

@[simp] theorem smaller_rat (x y : ℚ) : smaller x y = min x y :=
  (min_def_lt y x).symm.trans (min_comm y x)

@[simp] theorem gap_rat (x y : ℚ) : gap x y = |x - y| := by
  unfold gap
  split
  case isTrue h => rw [abs_sub_comm, abs_of_pos (sub_pos.mpr h)]
  case isFalse h => rw [abs_of_nonneg (sub_nonneg.mpr (not_lt.mp h))]

theorem divide_rat {y : ℚ} (x : ℚ) (h : y ≠ 0) : divide x y = .ok (x / y) := by
  simp [divide, h]

end Scalar

end ProbeForge
