import Mathlib
import ProbeForge.Consistency.Repair
import ProbeForge.Proofs.Consistency.Production
import ProbeForge.Proofs.Grammar.Reweighing

/-!
# Matrices of grammars with other weights

Other weights change the probabilities of rules and nothing else in the matrices, and a group's
weights change the row of its nonterminal only. So refreshing that row gives the matrices of the
changed grammar, and with positive weights the same entries stay nonzero.
-/

namespace ProbeForge

namespace Grid

variable {m n : Nat} {α : Type} {a b : Grid α m n}

theorem ext_row (h : ∀ i, a.row i = b.row i) : a = b := by
  obtain ⟨rows⟩ := a
  obtain ⟨rows'⟩ := b
  congr 1
  exact Vector.ext fun i hi => h ⟨i, hi⟩

theorem setRow_eq {i : Fin m} (hothers : ∀ j, i ≠ j → a.row j = b.row j) :
    a.setRow i (b.row i) = b := by
  refine ext_row fun j => ?_
  by_cases hij : i = j
  · rw [← hij, row_setRow_self]
  · rw [row_setRow_of_ne a _ hij, hothers j hij]

theorem row_mul [Scalar α] {k : Nat} (a : Grid α m k) (b : Grid α k n) (i : Fin m) :
    (a.mul b).row i = combine (a.row i) b := by
  simp [mul, row]

theorem entry_mul {k : Nat} (a : Grid ℚ m k) (b : Grid ℚ k n) (i : Fin m) (j : Fin n) :
    (a.mul b).entry i j = ∑ l, a.entry i l * b.entry l j := by
  simp only [mul, entry, combine, Fin.getElem_fin, Vector.getElem_map, Vector.getElem_ofFn,
    total_eq_sum]

end Grid

namespace Grammar

variable {g g' : Grammar} {n r : Nat} {weights : List Int}

/-! ### Exact matrices -/

/-- The matrices over the rationals. -/
def exactMatrices (g : Grammar) (n r : Nat) : ProductionMatrices ℚ n r :=
  let choice : Grid ℚ n r :=
    ⟨.ofFn fun i => (g.groups.toList.map (g.chances r)).getD i (.replicate r 0)⟩
  { choice, yield := g.yieldMatrix n r, expected := choice.mul (g.yieldMatrix n r) }

theorem matricesOf_rat (h : ∀ group ∈ g.groups, group.total ≠ 0) (n r : Nat) :
    g.matricesOf n r = .ok (g.exactMatrices n r) := by
  have hrows : g.groups.toList.mapM (g.choiceRow (α := ℚ) r) =
      .ok (g.groups.toList.map (g.chances r)) :=
    mapM_eq_map fun group hgroup => choiceRow_rat r (h group (Array.mem_toList_iff.mp hgroup))
  exact bind_ok.mpr ⟨_, bind_ok.mpr ⟨_, hrows, rfl⟩, rfl⟩

theorem row_choice {group : RuleGroup} {i : Fin n} (h : g.groups[i.val]? = some group) :
    (g.exactMatrices n r).choice.row i = g.chances r group := by
  simp [exactMatrices, Grid.row, List.getD_eq_getElem?_getD, h]

theorem row_choice_none {i : Fin n} (h : g.groups[i.val]? = none) :
    (g.exactMatrices n r).choice.row i = .replicate r 0 := by
  simp [exactMatrices, Grid.row, List.getD_eq_getElem?_getD, h]

theorem lookup_rules (rules : List Nat) (share : Nat → ℚ) (k : Nat) :
    ((rules.map fun i => (i, share i)).lookup k).getD 0 = if k ∈ rules then share k else 0 := by
  induction rules with
  | nil => rfl
  | cons i rules ih =>
    rw [List.map_cons, List.lookup_cons]
    by_cases hik : k = i
    · simp [hik]
    · have hne : (k == i) = false := by simpa using hik
      simp only [hne, ih, List.mem_cons, hik, false_or]

theorem get_chances (g : Grammar) (group : RuleGroup) (k : Fin r) :
    (g.chances r group).get k =
      if k.val ∈ group.rules then (g.weightAt k : ℚ) / group.total else 0 := by
  simp only [chances, Vector.get_ofFn, lookup_rules]

/-! ### Contributions -/

/-- Rule `k` rewrites nonterminal `i` and has nonterminal `j` on its right side. -/
structure Contributes (g : Grammar) (i j k : Nat) : Prop where
  rewrites : ∃ group, g.groups[i]? = some group ∧ k ∈ group.rules
  occurs : g.occurrences k j ≠ 0

/-- With positive weights a rule has a share in an expected production if it contributes to it. -/
theorem share_ne_zero_iff (hg : g.Coherent) (hw : ∀ entry ∈ g.table, 1 ≤ entry.weight)
    {i j : Fin n} {k : Fin r} :
    (g.exactMatrices n r).choice.entry i k * (g.exactMatrices n r).yield.entry k j ≠ 0 ↔
      g.Contributes i j k := by
  have hyield : (g.exactMatrices n r).yield.entry k j = (g.occurrences k j : ℚ) := by
    simp [exactMatrices, yieldMatrix]
  have hentry : (g.exactMatrices n r).choice.entry i k =
      ((g.exactMatrices n r).choice.row i).get k := rfl
  rw [mul_ne_zero_iff, hyield, Nat.cast_ne_zero, hentry]
  -- the choice has a row of chances for each nonterminal, and zeros below them
  cases hgroup : g.groups[i.val]? with
  | none =>
    rw [row_choice_none hgroup]
    simp only [Vector.get_replicate, ne_eq, not_true_eq_false, false_and, false_iff]
    rintro ⟨⟨group, hsome, -⟩, -⟩
    simp [hgroup] at hsome
  | some group =>
    have hmem := Array.mem_of_getElem? hgroup
    have htotal : (group.total : ℚ) ≠ 0 := by
      have := hg.one_le_total hw hmem
      exact_mod_cast (by omega : group.total ≠ 0)
    rw [row_choice hgroup, get_chances]
    constructor
    · rintro ⟨hchance, hoccurs⟩
      have hk : k.val ∈ group.rules := by
        by_contra hk
        simp [hk] at hchance
      exact ⟨⟨group, hgroup, hk⟩, hoccurs⟩
    · rintro ⟨⟨group', hsome, hk⟩, hoccurs⟩
      cases hgroup.symm.trans hsome
      have hweight : (g.weightAt k : ℚ) ≠ 0 := by
        have := one_le_weightAt hw hg hmem hk
        exact_mod_cast (by omega : g.weightAt k ≠ 0)
      rw [if_pos hk]
      exact ⟨div_ne_zero hweight htotal, hoccurs⟩

theorem exists_contributes (hg : g.Coherent) (hw : ∀ entry ∈ g.table, 1 ≤ entry.weight)
    {i j : Fin n} (h : (g.exactMatrices n r).expected.entry i j ≠ 0) :
    ∃ k : Fin r, g.Contributes i j k := by
  have hsum : (g.exactMatrices n r).expected.entry i j =
      ∑ k, (g.exactMatrices n r).choice.entry i k * (g.exactMatrices n r).yield.entry k j :=
    Grid.entry_mul _ _ i j
  obtain ⟨k, -, hk⟩ := Finset.exists_ne_zero_of_sum_ne_zero (hsum ▸ h)
  exact ⟨k, (share_ne_zero_iff hg hw).mp hk⟩

/-! ### Other weights -/

theorem occurrences_replaceWeights (h : weights.length = g.ruleCount) (k j : Nat) :
    (g.replaceWeights weights).occurrences k j = g.occurrences k j := by
  unfold occurrences
  rw [table_replaceWeights, getElem?_reweighed, groups_replaceWeights, Array.getElem?_map]
  cases hk : g.table[k]? with
  | none => rfl
  | some entry =>
    have hlt : k < weights.length := h ▸ (Array.getElem?_eq_some_iff.mp hk).1
    rw [List.getElem?_eq_getElem hlt]
    cases g.groups[j]? <;> rfl

theorem contributes_replaceWeights (h : weights.length = g.ruleCount) {i j k : Nat} :
    (g.replaceWeights weights).Contributes i j k ↔ g.Contributes i j k := by
  have hrewrites : (∃ group, (g.replaceWeights weights).groups[i]? = some group ∧ k ∈ group.rules) ↔
      ∃ group, g.groups[i]? = some group ∧ k ∈ group.rules := by
    rw [groups_replaceWeights, Array.getElem?_map]
    cases g.groups[i]? <;> simp
  constructor
  · rintro ⟨hrules, hoccurs⟩
    exact ⟨hrewrites.mp hrules, occurrences_replaceWeights h k j ▸ hoccurs⟩
  · rintro ⟨hrules, hoccurs⟩
    exact ⟨hrewrites.mpr hrules, (occurrences_replaceWeights h k j).symm ▸ hoccurs⟩

/-- Which rules contribute is a matter of the rules. -/
theorem Fits.contributes_iff {base : Grammar} (hg : base.Fits g) {i j k : Nat} :
    g.Contributes i j k ↔ base.Contributes i j k := by
  have hsame := contributes_replaceWeights hg.length (i := i) (j := j) (k := k)
  rwa [hg.same] at hsame

theorem yieldMatrix_replaceWeights (h : weights.length = g.ruleCount) :
    (g.replaceWeights weights).yieldMatrix (α := ℚ) n r = g.yieldMatrix n r := by
  unfold yieldMatrix
  congr 1
  funext k j
  rw [occurrences_replaceWeights h]

theorem Grouped.not_mem_rules (hg : g.Grouped) {i j k : Nat} (hij : i ≠ j) {group other : RuleGroup}
    (hgroup : g.groups[i]? = some group) (hother : g.groups[j]? = some other)
    (hk : k ∈ group.rules) : k ∉ other.rules := by
  intro hk'
  have hsame : group = other := hg.eq_of_mem_rules (Array.mem_of_getElem? hgroup) hk
    (Array.mem_of_getElem? hother) hk'
  have hdistinct := List.pairwise_iff_getElem.mp hg.distinct
  obtain ⟨hi, rfl⟩ := Array.getElem?_eq_some_iff.mp hgroup
  obtain ⟨hj, rfl⟩ := Array.getElem?_eq_some_iff.mp hother
  rcases Nat.lt_or_gt_of_ne hij with hlt | hlt
  · exact hdistinct i j hi hj hlt (congrArg RuleGroup.symbol hsame)
  · exact hdistinct j i hj hi hlt (congrArg RuleGroup.symbol hsame.symm)

theorem chances_replaceWeights (hg : g.Coherent) (h : weights.length = g.ruleCount)
    {group : RuleGroup} (hgroup : group ∈ g.groups)
    (hsame : ∀ k ∈ group.rules, weights.getD k 0 = g.weightAt k) :
    (g.replaceWeights weights).chances r
        { group with total := (g.replaceWeights weights).weightSum group.rules } =
      g.chances r group := by
  have hweight : ∀ k ∈ group.rules, (g.replaceWeights weights).weightAt k = g.weightAt k := by
    intro k hk
    rw [weightAt_eq, weights_replaceWeights h, hsame k hk]
  have htotal : (g.replaceWeights weights).weightSum group.rules = group.total :=
    (weightSum_congr hweight).trans (hg.total group hgroup).symm
  refine Vector.ext fun k hk => ?_
  have hget := get_chances (r := r) (g.replaceWeights weights)
    { group with total := (g.replaceWeights weights).weightSum group.rules } ⟨k, hk⟩
  have hget' := get_chances (r := r) g group ⟨k, hk⟩
  refine hget.trans (Eq.trans ?_ hget'.symm)
  dsimp only
  split
  case isTrue hmem => rw [hweight k hmem, htotal]
  case isFalse => rfl

/-- The weight of a rule is in the row of its own nonterminal only. -/
theorem row_choice_set (hg : g.Coherent) {i j : Fin n} {group : RuleGroup} {k : Nat} {weight : Int}
    (hgroup : g.groups[i.val]? = some group) (hk : k ∈ group.rules) (hij : i ≠ j) :
    ((g.replaceWeights (g.weights.set k weight)).exactMatrices n r).choice.row j =
      (g.exactMatrices n r).choice.row j := by
  have hlength := g.length_set_weights k weight
  have hgroups : (g.replaceWeights (g.weights.set k weight)).groups[j.val]? =
      g.groups[j.val]?.map fun group =>
        { group with
          total := (g.replaceWeights (g.weights.set k weight)).weightSum group.rules } := by
    rw [groups_replaceWeights, Array.getElem?_map]
  cases hother : g.groups[j.val]? with
  | none =>
    rw [hother] at hgroups
    rw [row_choice_none hother, row_choice_none hgroups]
  | some other =>
    rw [hother] at hgroups
    rw [row_choice hother, row_choice hgroups]
    refine chances_replaceWeights hg hlength (Array.mem_of_getElem? hother) fun l hl => ?_
    have hne : k ≠ l := by
      rintro rfl
      exact hg.grouped.not_mem_rules (fun h => hij (Fin.ext h)) hgroup hother hk hl
    rw [weightAt_eq, List.getD_eq_getElem?_getD, List.getElem?_set_ne hne,
      List.getD_eq_getElem?_getD]

/-- When a rule of a nonterminal gets another weight, refreshing that nonterminal's row gives the
matrices of the changed grammar. -/
theorem refresh_rat (hg : g.Coherent) {i : Fin n} {group : RuleGroup} {k : Nat} {weight : Int}
    (hgroup : g.groups[i.val]? = some group) (hk : k ∈ group.rules)
    (htotal : ∀ group ∈ (g.replaceWeights (g.weights.set k weight)).groups, group.total ≠ 0) :
    Repair.refresh (g.replaceWeights (g.weights.set k weight)) (g.exactMatrices n r) i =
      .ok ((g.replaceWeights (g.weights.set k weight)).exactMatrices n r) := by
  have hothers : ∀ j, i ≠ j → (g.exactMatrices n r).choice.row j =
      ((g.replaceWeights (g.weights.set k weight)).exactMatrices n r).choice.row j :=
    fun j hij => (row_choice_set hg hgroup hk hij).symm
  have hyield : (g.exactMatrices n r).yield =
      ((g.replaceWeights (g.weights.set k weight)).exactMatrices n r).yield :=
    (yieldMatrix_replaceWeights (g.length_set_weights k weight)).symm
  obtain ⟨changed, hchanged⟩ :
      ∃ changed, (g.replaceWeights (g.weights.set k weight)).groups[i.val]? = some changed := by
    rw [groups_replaceWeights, Array.getElem?_map, hgroup]
    exact ⟨_, rfl⟩
  -- from here on only the row of the nonterminal tells the two grammars apart
  generalize g.replaceWeights (g.weights.set k weight) = g' at *
  have hchoice : (g.exactMatrices n r).choice.setRow i (g'.chances r changed) =
      (g'.exactMatrices n r).choice := by
    rw [← row_choice hchanged, Grid.setRow_eq hothers]
  have hexpected : ∀ j, (g'.exactMatrices n r).expected.row j =
      Grid.combine ((g'.exactMatrices n r).choice.row j) (g.exactMatrices n r).yield := by
    intro j
    rw [hyield]
    exact Grid.row_mul _ _ j
  have hproduct : (g.exactMatrices n r).expected.setRow i
      (Grid.combine (g'.chances r changed) (g.exactMatrices n r).yield) =
      (g'.exactMatrices n r).expected := by
    rw [← row_choice hchanged, ← hexpected i]
    refine Grid.setRow_eq fun j hij => ?_
    rw [hexpected j, ← hothers j hij]
    exact Grid.row_mul _ _ j
  unfold Repair.refresh
  rw [hchanged]
  refine bind_ok.mpr ⟨_, choiceRow_rat r (htotal changed (Array.mem_of_getElem? hchanged)), ?_⟩
  rw [hchoice, hproduct, hyield]
  rfl

end Grammar

end ProbeForge
