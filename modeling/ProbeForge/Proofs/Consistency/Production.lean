import ProbeForge.Proofs.Consistency.Iteration
import ProbeForge.Proofs.Grammar.Coherence
import ProbeForge.Consistency.Matrices

/-!
# Expected productions over the rationals

With positive weights no total is zero, so the matrices of a coherent grammar exist and none of
their entries is negative.
-/

namespace ProbeForge.Grammar

variable {g : Grammar} {group : RuleGroup}

theorem shares_rat (htotal : group.total ≠ 0) :
    g.shares (α := ℚ) group =
      .ok (group.rules.map fun i => (i, (g.weightAt i : ℚ) / group.total)) := by
  unfold shares
  refine bind_ok.mpr ⟨_, Scalar.ofInt_rat _, mapM_eq_map fun i _ => ?_⟩
  refine bind_ok.mpr ⟨_, Scalar.ofInt_rat _, bind_ok.mpr ⟨_, ?_, rfl⟩⟩
  exact Scalar.divide_rat _ (Int.cast_ne_zero.mpr htotal)

theorem share_nonneg (hg : g.Coherent) (hw : ∀ entry ∈ g.table, 1 ≤ entry.weight)
    (hgroup : group ∈ g.groups) (r : Nat) :
    0 ≤ ((group.rules.map fun i => (i, (g.weightAt i : ℚ) / group.total)).lookup r).getD 0 := by
  cases h : (group.rules.map fun i => (i, (g.weightAt i : ℚ) / group.total)).lookup r with
  | none => exact le_rfl
  | some share =>
    obtain ⟨before, after, hsplit, -⟩ := List.lookup_eq_some_iff.mp h
    have hmem : (r, share) ∈ group.rules.map fun i => (i, (g.weightAt i : ℚ) / group.total) :=
      hsplit ▸ List.mem_append_right _ List.mem_cons_self
    obtain ⟨i, hi, hshare⟩ := List.mem_map.mp hmem
    cases hshare
    have hweight : (0 : ℚ) ≤ g.weightAt r := by
      exact_mod_cast zero_le_one.trans (one_le_weightAt hw hg hgroup hi)
    have htotal : (0 : ℚ) ≤ group.total := by
      exact_mod_cast zero_le_one.trans (hg.one_le_total hw hgroup)
    exact div_nonneg hweight htotal

/-- The probabilities of a nonterminal's rules, as a row of the choice matrix. -/
def chances (g : Grammar) (rules : Nat) (group : RuleGroup) : Vector ℚ rules :=
  .ofFn fun r =>
    ((group.rules.map fun i => (i, (g.weightAt i : ℚ) / group.total)).lookup r.val).getD 0

theorem choiceRow_rat (rules : Nat) (htotal : group.total ≠ 0) :
    g.choiceRow (α := ℚ) rules group = .ok (g.chances rules group) := by
  unfold choiceRow
  exact bind_ok.mpr ⟨_, shares_rat htotal, rfl⟩

theorem getD_nonneg {n : Nat} {rows : List (Vector ℚ n)}
    (h : ∀ row ∈ rows, ∀ r, 0 ≤ row.get r) (i : Nat) (r : Fin n) :
    0 ≤ (rows.getD i (.replicate n 0)).get r := by
  rw [List.getD_eq_getElem?_getD]
  cases hi : rows[i]? with
  | none => simp
  | some row => exact h row (List.mem_of_getElem? hi) r

theorem choiceMatrix_rat (hg : g.Coherent) (hw : ∀ entry ∈ g.table, 1 ≤ entry.weight)
    (nonterminals rules : Nat) :
    ∃ choice : Grid ℚ nonterminals rules,
      g.choiceMatrix nonterminals rules = .ok choice ∧ ∀ i r, 0 ≤ choice.entry i r := by
  have hrows : g.groups.toList.mapM (g.choiceRow (α := ℚ) rules) =
      .ok (g.groups.toList.map (g.chances rules)) := mapM_eq_map fun group hgroup => by
    have := hg.one_le_total hw (Array.mem_toList_iff.mp hgroup)
    exact choiceRow_rat rules (by omega)
  refine ⟨_, bind_ok.mpr ⟨_, hrows, rfl⟩, fun i r => ?_⟩
  simp only [Grid.entry, Fin.getElem_fin, Vector.getElem_ofFn]
  refine getD_nonneg (fun row hrow => ?_) i r
  obtain ⟨group, hgroup, rfl⟩ := List.mem_map.mp hrow
  simpa [chances] using fun r : Fin rules =>
    share_nonneg hg hw (Array.mem_toList_iff.mp hgroup) r

end ProbeForge.Grammar

namespace ProbeForge.Grid

theorem entry_mul_nonneg {l m n : Nat} {a : Grid ℚ l m} {b : Grid ℚ m n}
    (ha : ∀ i j, 0 ≤ a.entry i j) (hb : ∀ i j, 0 ≤ b.entry i j) (i : Fin l) (j : Fin n) :
    0 ≤ (a.mul b).entry i j := by
  simp only [mul, entry, combine, Fin.getElem_fin, Vector.getElem_map, Vector.getElem_ofFn,
    total_eq_sum]
  exact Finset.sum_nonneg fun k _ => mul_nonneg (ha i k) (hb k j)

end ProbeForge.Grid

namespace ProbeForge.Grammar

variable {g : Grammar}

theorem matrices_rat (hg : g.Coherent) (hw : ∀ entry ∈ g.table, 1 ≤ entry.weight) :
    ∃ m, g.matrices ℚ = .ok m ∧ m.expected.Nonnegative := by
  obtain ⟨choice, hchoice, hnonneg⟩ := choiceMatrix_rat hg hw g.nonterminalCount g.ruleCount
  refine ⟨_, bind_ok.mpr ⟨choice, hchoice, rfl⟩, Grid.entry_mul_nonneg hnonneg fun r j => ?_⟩
  simp [yieldMatrix]

end ProbeForge.Grammar
