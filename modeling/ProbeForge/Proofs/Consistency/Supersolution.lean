import Mathlib

/-!
# Loads that grow and prices that shrink

For a nonnegative matrix and a factor, either some load of the nodes is multiplied by at least the
factor in one step, or there are positive prices of the nodes under which every load loses value
against the factor. The proof removes one node at a time: what passes through it is a geometric
series, which is finite unless the node alone sustains the factor.
-/

namespace ProbeForge.Supersolution

open Matrix

variable {n : ℕ} {K : Type} [Field K] [LinearOrder K] [IsStrictOrderedRing K]

/-- A load other than zero that one step multiplies by at least `c`. -/
def Sustains (M : Matrix (Fin n) (Fin n) K) (c : K) : Prop :=
  ∃ v : Fin n → K, v ≠ 0 ∧ 0 ≤ v ∧ ∀ i, c * v i ≤ (M *ᵥ v) i

/-- Prices under which one step multiplies the value of a load by less than `c`. -/
def Devalues (M : Matrix (Fin n) (Fin n) K) (c : K) : Prop :=
  ∃ u : Fin n → K, (∀ j, 0 < u j) ∧ ∀ j, (u ᵥ* M) j < c * u j

/-- One positive factor that keeps finitely many amounts below their bounds. -/
theorem exists_pos_mul_lt {m s : Fin n → K} (hm : ∀ j, 0 ≤ m j) (hs : ∀ j, 0 < s j) :
    ∃ ε > 0, ∀ j, ε * m j < s j := by
  have hterm : ∀ j, 0 ≤ m j / s j := fun j => div_nonneg (hm j) (hs j).le
  have hpos : 0 < 1 + ∑ j, m j / s j :=
    add_pos_of_pos_of_nonneg one_pos (Finset.sum_nonneg fun j _ => hterm j)
  refine ⟨(1 + ∑ j, m j / s j)⁻¹, inv_pos.mpr hpos, fun j => ?_⟩
  have hle : m j / s j ≤ ∑ j, m j / s j :=
    Finset.single_le_sum (f := fun j => m j / s j) (fun i _ => hterm i) (Finset.mem_univ j)
  have hlt : m j / s j < 1 + ∑ j, m j / s j := hle.trans_lt (by linarith)
  rw [inv_mul_lt_iff₀ hpos]
  exact (div_lt_iff₀ (hs j)).mp hlt

/-- A node that multiplies its own load needs no other. -/
theorem sustains_of_loop {M : Matrix (Fin n) (Fin n) K} (hM : ∀ i j, 0 ≤ M i j) {c : K} {k : Fin n}
    (hc : c ≤ M k k) : Sustains M c := by
  refine ⟨Pi.single k 1, ?_, ?_, fun i => ?_⟩
  · intro h
    simpa using congrFun h k
  · exact Pi.single_nonneg.mpr zero_le_one
  · rw [mulVec_single_one]
    by_cases hi : i = k
    · subst hi
      simpa using hc
    · simpa [hi] using hM i k

/-! ### Removing the first node -/

section Removal

variable {M : Matrix (Fin (n + 1)) (Fin (n + 1)) K} {c : K}

/-- The other nodes, with what passes through the first one added to what passes directly. -/
def bypass (M : Matrix (Fin (n + 1)) (Fin (n + 1)) K) (c : K) : Matrix (Fin n) (Fin n) K :=
  fun i j => M i.succ j.succ + M i.succ 0 * M 0 j.succ / (c - M 0 0)

theorem bypass_nonneg (hM : ∀ i j, 0 ≤ M i j) (hc : M 0 0 < c) (i j : Fin n) :
    0 ≤ bypass M c i j :=
  add_nonneg (hM _ _) (div_nonneg (mul_nonneg (hM _ _) (hM _ _)) (sub_pos.mpr hc).le)

theorem sustains_of_bypass (hM : ∀ i j, 0 ≤ M i j) (hc : M 0 0 < c)
    (h : Sustains (bypass M c) c) : Sustains M c := by
  obtain ⟨v, hne, hv, hgrow⟩ := h
  have hd : 0 < c - M 0 0 := sub_pos.mpr hc
  -- the first node holds all that the others send it
  let inflow := ∑ j, M 0 j.succ * v j
  have hin : 0 ≤ inflow := Finset.sum_nonneg fun j _ => mul_nonneg (hM _ _) (hv j)
  refine ⟨Fin.cons (inflow / (c - M 0 0)) v, ?_, ?_, ?_⟩
  · intro h0
    refine hne (funext fun j => ?_)
    simpa using congrFun h0 j.succ
  · intro i
    refine Fin.cases ?_ (fun j => ?_) i
    · simpa using div_nonneg hin hd.le
    · simpa using hv j
  · intro i
    refine Fin.cases ?_ (fun i => ?_) i
    · have hself : c * (inflow / (c - M 0 0)) = M 0 0 * (inflow / (c - M 0 0)) + inflow := by
        field_simp
        ring
      simp only [mulVec, dotProduct, Fin.sum_univ_succ, Fin.cons_zero, Fin.cons_succ]
      exact hself.le
    · have hthrough : ∑ j, bypass M c i j * v j =
          M i.succ 0 * (inflow / (c - M 0 0)) + ∑ j, M i.succ j.succ * v j := by
        simp only [bypass, add_mul, Finset.sum_add_distrib, inflow, Finset.sum_div, Finset.mul_sum]
        rw [add_comm]
        congr 1
        exact Finset.sum_congr rfl fun j _ => by ring
      have hi := hgrow i
      simp only [mulVec, dotProduct, Fin.sum_univ_succ, Fin.cons_zero, Fin.cons_succ] at hi ⊢
      rwa [hthrough] at hi

theorem devalues_of_bypass (hM : ∀ i j, 0 ≤ M i j) (hc : M 0 0 < c)
    (h : Devalues (bypass M c) c) : Devalues M c := by
  obtain ⟨u, hu, hfall⟩ := h
  have hd : 0 < c - M 0 0 := sub_pos.mpr hc
  obtain ⟨ε, hε, hsmall⟩ := exists_pos_mul_lt (m := fun j : Fin n => M 0 j.succ)
    (s := fun j => c * u j - (u ᵥ* bypass M c) j) (fun j => hM _ _) fun j => sub_pos.mpr (hfall j)
  -- the first state gets its share of what the others pass to it, and a little more
  let outflow := ∑ i, u i * M i.succ 0
  have hout : 0 ≤ outflow := Finset.sum_nonneg fun i _ => mul_nonneg (hu i).le (hM _ _)
  refine ⟨Fin.cons (outflow / (c - M 0 0) + ε) u, ?_, ?_⟩
  · intro j
    refine Fin.cases ?_ (fun j => ?_) j
    · simpa using add_pos_of_nonneg_of_pos (div_nonneg hout hd.le) hε
    · simpa using hu j
  · intro j
    refine Fin.cases ?_ (fun j => ?_) j
    · have hself : (outflow / (c - M 0 0) + ε) * M 0 0 + outflow =
          c * (outflow / (c - M 0 0) + ε) - ε * (c - M 0 0) := by
        field_simp
        ring
      have : 0 < ε * (c - M 0 0) := mul_pos hε hd
      simp only [vecMul, dotProduct, Fin.sum_univ_succ, Fin.cons_zero, Fin.cons_succ]
      change (outflow / (c - M 0 0) + ε) * M 0 0 + outflow < _
      rw [hself]
      linarith
    · have hthrough : ∑ i, u i * bypass M c i j =
          outflow / (c - M 0 0) * M 0 j.succ + ∑ i, u i * M i.succ j.succ := by
        simp only [bypass, mul_add, Finset.sum_add_distrib, outflow, Finset.sum_div, Finset.sum_mul]
        rw [add_comm]
        congr 1
        exact Finset.sum_congr rfl fun i _ => by ring
      have hj := hsmall j
      simp only [vecMul, dotProduct, Fin.sum_univ_succ, Fin.cons_zero, Fin.cons_succ] at hj ⊢
      rw [hthrough] at hj
      linarith

end Removal

theorem sustains_or_devalues {M : Matrix (Fin n) (Fin n) K} (hM : ∀ i j, 0 ≤ M i j) (c : K) :
    Sustains M c ∨ Devalues M c := by
  induction n with
  | zero => exact .inr ⟨0, fun j => j.elim0, fun j => j.elim0⟩
  | succ n ih =>
    rcases le_or_gt c (M 0 0) with hc | hc
    · exact .inl (sustains_of_loop hM hc)
    · rcases ih (bypass_nonneg hM hc) with h | h
      · exact .inl (sustains_of_bypass hM hc h)
      · exact .inr (devalues_of_bypass hM hc h)

/-! ### The mass of a uniform load -/

/-- What one unit on each node has grown to after `k` steps. -/
def mass (M : Matrix (Fin n) (Fin n) K) (k : ℕ) : K := ∑ i, (M ^ k *ᵥ 1) i

variable {M : Matrix (Fin n) (Fin n) K} {c : K}

theorem mulVec_mono (hM : ∀ i j, 0 ≤ M i j) {v w : Fin n → K} (h : v ≤ w) : M *ᵥ v ≤ M *ᵥ w :=
  fun i => dotProduct_le_dotProduct_of_nonneg_left h fun j => hM i j

theorem pow_mulVec_mono (hM : ∀ i j, 0 ≤ M i j) {v w : Fin n → K} (h : v ≤ w) (k : ℕ) :
    M ^ k *ᵥ v ≤ M ^ k *ᵥ w := by
  induction k with
  | zero => simpa using h
  | succ k ih =>
    rw [pow_succ', ← mulVec_mulVec, ← mulVec_mulVec]
    exact mulVec_mono hM ih

theorem pow_smul_le (hM : ∀ i j, 0 ≤ M i j) (hc : 0 ≤ c) {v : Fin n → K} (h : c • v ≤ M *ᵥ v)
    (k : ℕ) : c ^ k • v ≤ M ^ k *ᵥ v := by
  induction k with
  | zero => simp
  | succ k ih =>
    calc c ^ (k + 1) • v = c ^ k • c • v := by rw [pow_succ, mul_smul]
      _ ≤ c ^ k • (M *ᵥ v) := smul_le_smul_of_nonneg_left h (pow_nonneg hc k)
      _ = M *ᵥ (c ^ k • v) := (mulVec_smul M _ v).symm
      _ ≤ M *ᵥ (M ^ k *ᵥ v) := mulVec_mono hM ih
      _ = M ^ (k + 1) *ᵥ v := by rw [mulVec_mulVec, pow_succ']

/-- A load that sustains a factor fits under the uniform one, once it is scaled to a largest entry
of one. -/
theorem pow_le_mass (hM : ∀ i j, 0 ≤ M i j) (hc : 0 ≤ c) (h : Sustains M c) (k : ℕ) :
    c ^ k ≤ mass M k := by
  obtain ⟨v, hne, hv, hgrow⟩ := h
  obtain ⟨i, hi⟩ := Function.ne_iff.mp hne
  have : Nonempty (Fin n) := ⟨i⟩
  obtain ⟨top, htop⟩ := Finite.exists_max v
  have hpos : 0 < v top := ((hv i).lt_of_ne' hi).trans_le (htop i)
  let w : Fin n → K := (v top)⁻¹ • v
  have hw : ∀ i, 0 ≤ w i := fun i => mul_nonneg (inv_pos.mpr hpos).le (hv i)
  have hle : w ≤ 1 := fun i => by
    change (v top)⁻¹ * v i ≤ 1
    rw [inv_mul_le_iff₀ hpos, mul_one]
    exact htop i
  have hgrow : c • w ≤ M *ᵥ w := by
    rw [mulVec_smul, smul_comm]
    exact smul_le_smul_of_nonneg_left hgrow (inv_pos.mpr hpos).le
  have htotal : 1 ≤ ∑ i, w i := by
    have : w top = 1 := inv_mul_cancel₀ hpos.ne'
    exact this ▸ Finset.single_le_sum (fun i _ => hw i) (Finset.mem_univ top)
  calc c ^ k ≤ c ^ k * ∑ i, w i := le_mul_of_one_le_right (pow_nonneg hc k) htotal
    _ = ∑ i, (c ^ k • w) i := by simp [Finset.mul_sum]
    _ ≤ ∑ i, (M ^ k *ᵥ w) i := Finset.sum_le_sum fun i _ => pow_smul_le hM hc hgrow k i
    _ ≤ mass M k := Finset.sum_le_sum fun i _ => pow_mulVec_mono hM hle k i

theorem vecMul_pow_dotProduct_le (hM : ∀ i j, 0 ≤ M i j) {u : Fin n → K} {q : K} (hq : 0 ≤ q)
    (h : ∀ j, (u ᵥ* M) j ≤ q * u j) (k : ℕ) : u ⬝ᵥ (M ^ k *ᵥ 1) ≤ q ^ k * ∑ j, u j := by
  have hnonneg : ∀ k, 0 ≤ M ^ k *ᵥ (1 : Fin n → K) := fun k => by
    simpa using pow_mulVec_mono hM (v := 0) (w := 1) (fun _ => zero_le_one) k
  induction k with
  | zero => simp [dotProduct_one]
  | succ k ih =>
    calc u ⬝ᵥ (M ^ (k + 1) *ᵥ 1) = (u ᵥ* M) ⬝ᵥ (M ^ k *ᵥ 1) := by
          rw [pow_succ', ← mulVec_mulVec, dotProduct_mulVec]
      _ ≤ (q • u) ⬝ᵥ (M ^ k *ᵥ 1) :=
          Finset.sum_le_sum fun j _ => mul_le_mul_of_nonneg_right (h j) (hnonneg k j)
      _ = q * (u ⬝ᵥ (M ^ k *ᵥ 1)) := by rw [smul_dotProduct, smul_eq_mul]
      _ ≤ q * (q ^ k * ∑ j, u j) := mul_le_mul_of_nonneg_left ih hq
      _ = q ^ (k + 1) * ∑ j, u j := by rw [pow_succ']; ring

theorem exists_mass_lt [Archimedean K] (hM : ∀ i j, 0 ≤ M i j) (h : Devalues M c) :
    ∃ k, mass M k < c ^ k := by
  rcases isEmpty_or_nonempty (Fin n) with hempty | hn
  · exact ⟨0, by simp [mass]⟩
  obtain ⟨u, hu, hfall⟩ := h
  obtain ⟨ε, hε, hslack⟩ := exists_pos_mul_lt (m := u) (s := fun j => c * u j - (u ᵥ* M) j)
    (fun j => (hu j).le) fun j => sub_pos.mpr (hfall j)
  obtain ⟨δ, hδ, hfloor⟩ := exists_pos_mul_lt (m := fun _ : Fin n => (1 : K)) (s := u)
    (fun _ => zero_le_one) hu
  -- every price falls by the factor `c - ε`, which still is positive
  have hq : ∀ j, (u ᵥ* M) j ≤ (c - ε) * u j := fun j => by
    have := hslack j
    rw [sub_mul]
    linarith
  have hq0 : 0 ≤ c - ε := by
    obtain ⟨j⟩ := hn
    have hin : 0 ≤ (u ᵥ* M) j := dotProduct_nonneg_of_nonneg (fun i => (hu i).le) fun i => hM i j
    exact nonneg_of_mul_nonneg_left (hin.trans (hq j)) (hu j)
  have hc : 0 < c := by linarith
  have hU : 0 < ∑ j, u j := Finset.sum_pos (fun j _ => hu j) Finset.univ_nonempty
  obtain ⟨k, hk⟩ := exists_pow_lt_of_lt_one (div_pos hδ hU)
    ((div_lt_one hc).mpr (by linarith : c - ε < c))
  refine ⟨k, ?_⟩
  have hvalue : δ * mass M k ≤ (c - ε) ^ k * ∑ j, u j := by
    refine le_trans ?_ (vecMul_pow_dotProduct_le hM hq0 hq k)
    rw [mass, Finset.mul_sum]
    refine Finset.sum_le_sum fun j _ => mul_le_mul_of_nonneg_right ?_ ?_
    · simpa using (hfloor j).le
    · simpa using pow_mulVec_mono hM (v := 0) (w := 1) (fun _ => zero_le_one) k j
  rw [div_pow, div_lt_div_iff₀ (pow_pos hc k) hU] at hk
  exact lt_of_mul_lt_mul_left (hvalue.trans_lt hk) hδ.le

theorem not_sustains_iff [Archimedean K] (hM : ∀ i j, 0 ≤ M i j) (hc : 0 ≤ c) :
    ¬ Sustains M c ↔ ∃ k, mass M k < c ^ k := by
  constructor
  · intro h
    exact exists_mass_lt hM ((sustains_or_devalues hM c).resolve_left h)
  · rintro ⟨k, hk⟩ h
    exact (pow_le_mass hM hc h k).not_gt hk

end ProbeForge.Supersolution
