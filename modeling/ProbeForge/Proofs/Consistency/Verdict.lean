import Mathlib.Algebra.Order.Archimedean.Real.Basic
import ProbeForge.Proofs.Consistency.Production

/-!
# What the consistency verdict says

A grammar counts as consistent if the reported radius is below one. When the reported ratio is far
from the radius the verdict can be wrong: two ratios may agree by chance while one nonterminal goes
on producing more copies of itself than it uses up. The verdict is sound exactly if the masses show
the grammar to be subcritical or the reported ratio is at least two.
-/

namespace ProbeForge

open Matrix Supersolution

namespace Supersolution

variable {n : ℕ} {K : Type} [Field K] [LinearOrder K] [IsStrictOrderedRing K]
variable {M : Matrix (Fin n) (Fin n) K} {c : K}

theorem sustains_add_one_iff : Sustains (M + 1) (c + 1) ↔ Sustains M c := by
  unfold Sustains
  simp only [add_mulVec, one_mulVec, Pi.add_apply, add_mul, one_mul, add_le_add_iff_right]

theorem not_sustains_of_pow_eq_zero (hM : ∀ i j, 0 ≤ M i j) (hc : 0 < c) {k : ℕ}
    (h : M ^ k = 0) : ¬ Sustains M c := by
  rintro ⟨v, hne, hv, hgrow⟩
  obtain ⟨i, hi⟩ := Function.ne_iff.mp hne
  have hpow : (c ^ k • v) i ≤ (M ^ k *ᵥ v) i := pow_smul_le hM hc.le hgrow k i
  rw [h, zero_mulVec] at hpow
  exact (mul_pos (pow_pos hc k) ((hv i).lt_of_ne' hi)).not_ge hpow

theorem mass_map (M : Matrix (Fin n) (Fin n) ℚ) (k : ℕ) :
    mass (M.map fun x => (x : ℝ)) k = mass M k := by
  let f := Rat.castHom ℝ
  have hpow : (M.map f) ^ k = (M ^ k).map f := (map_pow f.mapMatrix M k).symm
  have hone : (1 : Fin n → ℝ) = f ∘ (1 : Fin n → ℚ) := by
    funext i
    simp
  refine Eq.trans ?_ (map_sum f _ _).symm
  refine Finset.sum_congr rfl fun i _ => ?_
  change ((M.map f) ^ k *ᵥ 1) i = f ((M ^ k *ᵥ 1) i)
  rw [hpow, hone, RingHom.map_mulVec]

end Supersolution

namespace Grid

variable {n : Nat} {a : Grid ℚ n n}

/-! ### Acyclic patterns -/

/-- A pattern that has at least the edges of a matrix. -/
def Covers (p : Grid Bool n n) (M : Matrix (Fin n) (Fin n) ℚ) : Prop :=
  ∀ i j, 0 < M i j → p.entry i j = true

theorem covers_pattern (a : Grid ℚ n n) : Covers a.pattern a.toMatrix := fun i j h => by
  simpa [pattern, toMatrix] using h

variable {p : Grid Bool n n} {M : Matrix (Fin n) (Fin n) ℚ}

theorem Covers.twoSteps (hM : ∀ i j, 0 ≤ M i j) (h : Covers p M) : Covers p.twoSteps (M * M) := by
  intro i j hpos
  rw [mul_apply] at hpos
  obtain ⟨k, -, hk⟩ := Finset.exists_lt_of_sum_lt (f := fun _ => (0 : ℚ))
    (s := Finset.univ) (by simpa using hpos)
  have hik : 0 < M i k := pos_of_mul_pos_left hk (hM k j)
  have hkj : 0 < M k j := pos_of_mul_pos_right hk (hM i k)
  simp only [Grid.twoSteps, entry_ofFn, List.any_eq_true, Bool.and_eq_true]
  exact ⟨k, List.mem_finRange k, h i k hik, h k j hkj⟩

theorem pow_nonneg_entry (hM : ∀ i j, 0 ≤ M i j) (k : Nat) (i j : Fin n) : 0 ≤ (M ^ k) i j := by
  induction k generalizing i j with
  | zero =>
    rw [pow_zero, one_apply]
    split <;> simp
  | succ k ih =>
    rw [pow_succ, mul_apply]
    exact Finset.sum_nonneg fun l _ => mul_nonneg (ih i l) (hM l j)

theorem Covers.doubled (hM : ∀ i j, 0 ≤ M i j) (h : Covers p M) (k : Nat) :
    Covers (doubled k p) (M ^ 2 ^ k) := by
  induction k generalizing p M with
  | zero => simpa [Grid.doubled] using h
  | succ k ih =>
    have hsquare : ∀ i j, 0 ≤ (M * M) i j := fun i j => by
      rw [← pow_two]
      exact pow_nonneg_entry hM 2 i j
    rw [pow_succ', pow_mul, pow_two]
    exact ih hsquare (h.twoSteps hM)

theorem pow_eq_zero_of_isNilpotent (ha : a.Nonnegative) (h : a.isNilpotent = true) :
    ∃ k, a.toMatrix ^ k = 0 := by
  refine ⟨2 ^ doublings n, Matrix.ext fun i j => ?_⟩
  have hcover := (covers_pattern a).doubled (M := a.toMatrix) ha (doublings n)
  have hstep : ¬ (Grid.doubled (doublings n) a.pattern).entry i j = true := fun hij => by
    rw [isNilpotent, Bool.not_eq_true', anyStep, List.any_eq_false] at h
    refine h i (List.mem_finRange i) (List.any_eq_true.mpr ⟨j, List.mem_finRange j, hij⟩)
  exact le_antisymm (not_lt.mp fun hpos => hstep (hcover i j hpos))
    (pow_nonneg_entry (M := a.toMatrix) ha _ i j)

/-! ### Subcritical grids -/

/-- No load of the nodes is multiplied by `c` in one step. -/
def Subcritical (a : Grid ℚ n n) (c : ℝ) : Prop :=
  ¬ Sustains (a.toMatrix.map fun x => (x : ℝ)) c

theorem subcritical_of_isNilpotent (ha : a.Nonnegative) (h : a.isNilpotent = true) {c : ℝ}
    (hc : 0 < c) : a.Subcritical c := by
  obtain ⟨k, hk⟩ := pow_eq_zero_of_isNilpotent ha h
  refine not_sustains_of_pow_eq_zero (k := k) (fun i j => Rat.cast_nonneg.mpr (ha i j)) hc ?_
  have : (a.toMatrix.map (Rat.castHom ℝ)) ^ k = (a.toMatrix ^ k).map (Rat.castHom ℝ) :=
    (map_pow (Rat.castHom ℝ).mapMatrix a.toMatrix k).symm
  rw [hk] at this
  simpa using this

theorem subcritical_iff (ha : a.Nonnegative) {c : ℚ} (hc : 0 ≤ c) :
    a.Subcritical c ↔ ∃ k, massAfter a k < (c + 1) ^ k := by
  have hmap : (a.toMatrix + 1).map (fun x => (x : ℝ)) = a.toMatrix.map (fun x => (x : ℝ)) + 1 := by
    ext i j
    by_cases h : i = j <;> simp [h, one_apply]
  have hnonneg : ∀ i j, (0 : ℝ) ≤ (a.toMatrix + 1).map (fun x => (x : ℝ)) i j := fun i j =>
    Rat.cast_nonneg.mpr (shifted_nonneg ha i j)
  have hc' : (0 : ℝ) ≤ c + 1 := add_nonneg (Rat.cast_nonneg.mpr hc) zero_le_one
  unfold Subcritical
  rw [← sustains_add_one_iff, ← hmap, not_sustains_iff hnonneg hc']
  refine exists_congr fun k => ?_
  rw [mass_map]
  exact_mod_cast Iff.rfl

end Grid

namespace Grammar

open Grid

variable {g : Grammar}

theorem isConsistent_rat {m : ProductionMatrices ℚ g.nonterminalCount g.ruleCount}
    (hm : g.matrices ℚ = .ok m) :
    g.isConsistent ℚ (.ok 1) = .ok (decide (Grid.spectralRadius .standard m.expected < 1)) := by
  unfold isConsistent spectralRadius
  rw [hm]
  rfl

theorem spectralRadius_rat {n : Nat} {a : Grid ℚ n n} (ha : a.Nonnegative)
    (hnil : a.isNilpotent = false) :
    ∃ k, Reports .standard a k ∧ (Grid.spectralRadius .standard a < 1 ↔ pace a k < 2) := by
  have hn : 0 < n := by
    rcases n.eq_zero_or_pos with rfl | hn
    · simp [isNilpotent, anyStep] at hnil
    · exact hn
  obtain ⟨k, hk, hradius⟩ := iteratedRadius_eq .standard ha hn
    (by norm_num [Precision.standard]) (by norm_num [Precision.standard])
  refine ⟨k, hk, ?_⟩
  rw [Grid.spectralRadius, hnil, if_neg Bool.false_ne_true, hradius, max_lt_iff]
  constructor
  · rintro ⟨h, -⟩
    linarith
  · intro h
    exact ⟨by linarith, zero_lt_one⟩

theorem isConsistent_sound_iff (hg : g.Coherent) (hw : ∀ entry ∈ g.table, 1 ≤ entry.weight) :
    ∃ m b, g.matrices ℚ = .ok m ∧ g.isConsistent ℚ (.ok 1) = .ok b ∧
      ((b = true → m.expected.Subcritical 1.01) ↔
        (∃ k, massAfter m.expected k < 2.01 ^ k) ∨
          ∀ k, Reports .standard m.expected k → 2 ≤ pace m.expected k) := by
  obtain ⟨m, hm, hnonneg⟩ := matrices_rat hg hw
  refine ⟨m, _, hm, isConsistent_rat hm, ?_⟩
  have hmass : m.expected.Subcritical 1.01 ↔ ∃ k, massAfter m.expected k < 2.01 ^ k := by
    have := subcritical_iff hnonneg (c := 1.01) (by norm_num)
    norm_num at this ⊢
    exact this
  rw [← hmass, decide_eq_true_iff]
  cases hnil : m.expected.isNilpotent with
  | true =>
    have hsub : m.expected.Subcritical 1.01 :=
      subcritical_of_isNilpotent hnonneg hnil (by norm_num)
    exact ⟨fun _ => .inl hsub, fun _ _ => hsub⟩
  | false =>
    obtain ⟨k, hk, hradius⟩ := spectralRadius_rat hnonneg hnil
    rw [hradius]
    constructor
    · intro hsound
      refine or_iff_not_imp_right.mpr fun hslow => ?_
      refine hsound (not_le.mp fun hfast => hslow fun l hl => ?_)
      rwa [hl.unique hk]
    · rintro (hsub | hfast) hpace
      · exact hsub
      · exact absurd hpace (not_lt.mpr (hfast k hk))

/-- One nonterminal makes one and a half copies of itself. Beside it are one that makes as many of
another and two that end at once: of four units seven are left after one step and of these twelve
and a quarter after the next, so the first two ratios are the same. -/
def swelling : List (Rule × Int) :=
  let rule (left : String) (right : List String) : Rule := ⟨⟨left⟩, right.map (⟨·⟩)⟩
  [(rule "S" ["S", "S"], 3), (rule "S" ["a"], 1), (rule "T" ["U", "U"], 1), (rule "T" ["U"], 1),
    (rule "U" ["a"], 1), (rule "V" ["a"], 1)]

theorem swelling_accepted :
    ((ofRules .null swelling).bind fun g => (g.matrices ℚ).bind fun m =>
      (g.isConsistent ℚ (.ok 1)).map fun b => (b, decide (∃ i, 1.01 ≤ m.expected.entry i i))) =
    .ok (true, true) := by
  decide +kernel

theorem isConsistent_not_sound :
    ∃ g m, ofRules .null swelling = .ok g ∧ g.Coherent ∧ (∀ entry ∈ g.table, 1 ≤ entry.weight) ∧
      g.matrices ℚ = .ok m ∧ g.isConsistent ℚ (.ok 1) = .ok true ∧
      ¬ m.expected.Subcritical 1.01 := by
  obtain ⟨g, hbuild, h⟩ := bind_ok.mp swelling_accepted
  obtain ⟨m, hm, h⟩ := bind_ok.mp h
  obtain ⟨b, hb, h⟩ := map_ok.mp h
  obtain ⟨rfl, hloop⟩ := Prod.mk.inj h
  obtain ⟨i, hi⟩ := of_decide_eq_true hloop
  obtain ⟨hg, hw⟩ := coherent_ofRules hbuild
  obtain ⟨m', hm', hnonneg⟩ := matrices_rat hg hw
  cases hm.symm.trans hm'
  refine ⟨g, m, hbuild, hg, hw, hm, hb, not_not.mpr (sustains_of_loop (k := i) ?_ ?_)⟩
  · exact fun j k => Rat.cast_nonneg.mpr (hnonneg j k)
  · have hi' : ((1.01 : ℚ) : ℝ) ≤ (m.expected.entry i i : ℝ) := Rat.cast_le.mpr hi
    norm_num at hi' ⊢
    exact hi'

theorem isConsistent_sound_swelling :
    ∃ g, ofRules .null swelling = .ok g ∧ g.Coherent ∧ (∀ entry ∈ g.table, 1 ≤ entry.weight) ∧
      ∃ m b, g.matrices ℚ = .ok m ∧ g.isConsistent ℚ (.ok 1) = .ok b ∧
        ((b = true → m.expected.Subcritical 1.01) ↔
          (∃ k, massAfter m.expected k < 2.01 ^ k) ∨
            ∀ k, Reports .standard m.expected k → 2 ≤ pace m.expected k) := by
  obtain ⟨g, hbuild, -⟩ := bind_ok.mp swelling_accepted
  obtain ⟨hg, hw⟩ := coherent_ofRules hbuild
  exact ⟨g, hbuild, hg, hw, isConsistent_sound_iff hg hw⟩

end Grammar

end ProbeForge
