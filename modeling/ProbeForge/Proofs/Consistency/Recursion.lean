import Mathlib
import ProbeForge.Consistency.Matrices
import ProbeForge.Proofs.Consistency.Reweighing

/-!
# Recursive symbols

A symbol is recursive if expansions can lead from it to a nonterminal that comes back to itself. The
nonterminals that can be reached from a symbol count its rank; where nothing is recursive, ranks
fall with every expansion. Squaring a pattern of expected productions doubles the walks along
productions, so the test for nilpotency asks for a walk that is long enough to repeat a symbol.
-/

namespace ProbeForge

open Relation

/-! ### Walks -/

/-- A number of steps of a relation. -/
inductive Walk {α : Type} (r : α → α → Prop) : Nat → α → α → Prop where
  | here (a : α) : Walk r 0 a a
  | step {d : Nat} {a b c : α} (first : r a b) (rest : Walk r d b c) : Walk r (d + 1) a c

section Walks

variable {α : Type} {r : α → α → Prop} {a b c : α} {d e : Nat}

theorem walk_zero : Walk r 0 a b ↔ a = b := by
  constructor
  · rintro ⟨⟩
    rfl
  · rintro rfl
    exact .here a

theorem walk_succ : Walk r (d + 1) a c ↔ ∃ b, r a b ∧ Walk r d b c := by
  constructor
  · rintro ⟨⟩
    exact ⟨_, by assumption, by assumption⟩
  · rintro ⟨b, hfirst, hrest⟩
    exact .step hfirst hrest

theorem walk_one : Walk r 1 a b ↔ r a b := by
  simp [walk_succ, walk_zero]

/-- Steps that are two steps each make walks of twice the length. -/
theorem walk_double {q : α → α → Prop} (hq : ∀ a b, q a b ↔ ∃ c, r a c ∧ r c b) :
    Walk q d a b ↔ Walk r (2 * d) a b := by
  induction d generalizing a with
  | zero => simp [walk_zero]
  | succ d ih =>
    rw [walk_succ, Nat.mul_succ, walk_succ]
    simp only [hq, ih, walk_succ]
    constructor
    · rintro ⟨c, ⟨e, hae, hec⟩, hrest⟩
      exact ⟨e, hae, c, hec, hrest⟩
    · rintro ⟨e, hae, c, hec, hrest⟩
      exact ⟨c, ⟨e, hae, hec⟩, hrest⟩

end Walks

namespace Grid

variable {n : Nat} {p : Grid Bool n n}

theorem entry_twoSteps (p : Grid Bool n n) (i j : Fin n) :
    p.twoSteps.entry i j = true ↔ ∃ k, p.entry i k = true ∧ p.entry k j = true := by
  simp [twoSteps]

theorem entry_doubled (k : Nat) (i j : Fin n) :
    (doubled k p).entry i j = true ↔ Walk (fun i j => p.entry i j = true) (2 ^ k) i j := by
  induction k generalizing p with
  | zero => simp [doubled, walk_one]
  | succ k ih =>
    rw [doubled, ih, walk_double (entry_twoSteps p), pow_succ, Nat.mul_comm]

theorem le_two_pow_doublings (n : Nat) : n ≤ 2 ^ doublings n := by
  unfold doublings
  split
  · simpa using by omega
  · have := Nat.lt_log2_self (n := n - 1)
    omega

theorem isNilpotent_iff {α : Type} [Scalar α] (a : Grid α n n) :
    a.isNilpotent = true ↔
      ∀ i j, ¬ Walk (fun i j => a.pattern.entry i j = true) (2 ^ doublings n) i j := by
  simp only [isNilpotent, Bool.not_eq_true', anyStep, List.any_eq_false, List.mem_finRange,
    forall_const, Bool.not_eq_true, ← entry_doubled]

end Grid

/-! ### Productions -/

namespace Grammar

variable {g : Grammar} {a b : Symbol}

/-- A rule of `a` has `b` on its right side. -/
def Produces (g : Grammar) (a b : Symbol) : Prop :=
  ∃ entry ∈ g.table, entry.rule.left = a ∧ b ∈ entry.rule.right

/-- Expansions lead from the symbol to one that comes back to itself. -/
def Recursive (g : Grammar) (s : Symbol) : Prop :=
  ∃ t, ReflTransGen g.Produces s t ∧ TransGen g.Produces t t

theorem Produces.isNonterminal (hg : g.Grouped) (h : g.Produces a b) :
    g.isNonterminal a = true := by
  obtain ⟨entry, hentry, rfl, -⟩ := h
  exact isNonterminal_iff.mpr (hg.owned entry hentry)

/-- What is recursive produces something recursive. -/
theorem Recursive.exists_produces (h : g.Recursive a) : ∃ b, g.Produces a b ∧ g.Recursive b := by
  obtain ⟨t, hreach, hcycle⟩ := h
  rcases hreach.cases_head with rfl | ⟨b, hab, hbt⟩
  · obtain ⟨b, hab, hba⟩ := TransGen.head'_iff.mp hcycle
    exact ⟨b, hab, a, hba, hcycle⟩
  · exact ⟨b, hab, t, hbt, hcycle⟩

theorem Recursive.isNonterminal (hg : g.Grouped) (h : g.Recursive a) :
    g.isNonterminal a = true := by
  obtain ⟨b, hab, -⟩ := h.exists_produces
  exact hab.isNonterminal hg

theorem Recursive.of_produces (hab : g.Produces a b) (h : g.Recursive b) : g.Recursive a := by
  obtain ⟨t, hreach, hcycle⟩ := h
  exact ⟨t, hreach.head hab, hcycle⟩

/-- The nonterminals to which expansions can lead. -/
def reachable (g : Grammar) (s : Symbol) : Set Symbol :=
  {t | g.isNonterminal t = true ∧ ReflTransGen g.Produces s t}

noncomputable def rank (g : Grammar) (s : Symbol) : Nat := (g.reachable s).ncard

theorem reachable_subset (g : Grammar) (s : Symbol) :
    g.reachable s ⊆ g.nonterminals.toFinset := by
  intro t ht
  simpa [mem_nonterminals] using ht.1

theorem finite_reachable (g : Grammar) (s : Symbol) : (g.reachable s).Finite :=
  (Finset.finite_toSet _).subset (g.reachable_subset s)

theorem rank_le (g : Grammar) (s : Symbol) : g.rank s ≤ g.nonterminalCount := by
  calc g.rank s ≤ (g.nonterminals.toFinset : Set Symbol).ncard :=
        Set.ncard_le_ncard (g.reachable_subset s) (Finset.finite_toSet _)
    _ = g.nonterminals.toFinset.card := Set.ncard_coe_finset _
    _ ≤ g.nonterminals.length := List.toFinset_card_le _
    _ = g.nonterminalCount := by simp [nonterminals, nonterminalCount]

theorem one_le_rank (h : g.isNonterminal a = true) : 1 ≤ g.rank a :=
  (Set.ncard_pos (g.finite_reachable a)).mpr ⟨a, h, .refl⟩

/-- An expansion of a symbol that does not come back to itself leads to lower ranks. -/
theorem rank_lt (hg : g.Grouped) (hab : g.Produces a b) (ha : ¬ g.Recursive a) :
    g.rank b < g.rank a := by
  have hsubset : g.reachable b ⊆ g.reachable a := fun t ht => ⟨ht.1, ht.2.head hab⟩
  refine Set.ncard_lt_ncard ?_ (g.finite_reachable a)
  refine (Set.ssubset_iff_of_subset hsubset).mpr ⟨a, ⟨hab.isNonterminal hg, .refl⟩, fun hback => ?_⟩
  exact ha ⟨a, .refl, TransGen.head' hab hback.2⟩

/-! ### The test -/

theorem choice_nonneg (hg : g.Coherent) (hw : ∀ entry ∈ g.table, 1 ≤ entry.weight) {n r : Nat}
    (i : Fin n) (k : Fin r) : 0 ≤ (g.exactMatrices n r).choice.entry i k := by
  have hentry : (g.exactMatrices n r).choice.entry i k =
      ((g.exactMatrices n r).choice.row i).get k := rfl
  rw [hentry]
  cases hgroup : g.groups[i.val]? with
  | none => simp [row_choice_none hgroup]
  | some group =>
    rw [row_choice hgroup]
    simpa [chances] using share_nonneg hg hw (Array.mem_of_getElem? hgroup) k

/-- With positive weights, an expected production is positive if some rule contributes to it. -/
theorem expected_pos_iff (hg : g.Coherent) (hw : ∀ entry ∈ g.table, 1 ≤ entry.weight) {n r : Nat}
    {i j : Fin n} :
    0 < (g.exactMatrices n r).expected.entry i j ↔ ∃ k : Fin r, g.Contributes i j k := by
  refine ⟨fun h => exists_contributes hg hw h.ne', ?_⟩
  rintro ⟨k, hk⟩
  have hyield : ∀ l, 0 ≤ (g.exactMatrices n r).yield.entry l j := by
    simp [exactMatrices, yieldMatrix]
  have hterm : ∀ l, 0 ≤ (g.exactMatrices n r).choice.entry i l *
      (g.exactMatrices n r).yield.entry l j := fun l =>
    mul_nonneg (choice_nonneg hg hw i l) (hyield l)
  have hsum : (g.exactMatrices n r).expected.entry i j =
      ∑ l, (g.exactMatrices n r).choice.entry i l * (g.exactMatrices n r).yield.entry l j :=
    Grid.entry_mul _ _ i j
  rw [hsum]
  refine Finset.sum_pos' (fun l _ => hterm l) ⟨k, Finset.mem_univ k, ?_⟩
  exact (hterm k).lt_of_ne ((share_ne_zero_iff hg hw).mpr hk).symm

theorem exists_contributes_iff (hg : g.Grouped) {i j : Nat} {group group' : RuleGroup}
    (hi : g.groups[i]? = some group) (hj : g.groups[j]? = some group') :
    (∃ k : Fin g.ruleCount, g.Contributes i j k) ↔ g.Produces group.symbol group'.symbol := by
  have hoccurs : ∀ {k : Nat} {entry : RuleEntry}, g.table[k]? = some entry →
      (g.occurrences k j ≠ 0 ↔ group'.symbol ∈ entry.rule.right) := by
    intro k entry hentry
    rw [occurrences, hentry, hj]
    exact Nat.pos_iff_ne_zero.symm.trans List.count_pos_iff
  have hgroup := Array.mem_of_getElem? hi
  constructor
  · rintro ⟨k, ⟨group'', hgroup'', hk⟩, hcount⟩
    cases hi.symm.trans hgroup''
    obtain ⟨entry, hentry, hleft⟩ := hg.entry_of_mem hgroup hk
    exact ⟨entry, Array.mem_of_getElem? hentry, hleft, (hoccurs hentry).mp hcount⟩
  · rintro ⟨entry, hentry, hleft, hright⟩
    obtain ⟨k, hk⟩ := Array.getElem?_of_mem hentry
    have hmem : k ∈ group.rules := (hg.mem_rules_iff hgroup).mpr ⟨entry, hk, hleft⟩
    exact ⟨⟨k, (Array.getElem?_eq_some_iff.mp hk).1⟩, ⟨group, hi, hmem⟩, (hoccurs hk).mpr hright⟩

/-- The nonterminal of an index. -/
def symbolOfIndex (g : Grammar) (i : Fin g.nonterminalCount) : Symbol := g.groups[i].symbol

theorem exists_symbolOfIndex (h : g.isNonterminal a = true) : ∃ i, g.symbolOfIndex i = a := by
  obtain ⟨group, hgroup, rfl⟩ := isNonterminal_iff.mp h
  obtain ⟨i, hi, rfl⟩ := Array.mem_iff_getElem.mp hgroup
  exact ⟨⟨i, hi⟩, rfl⟩

section Pattern

variable {p : Grid Bool g.nonterminalCount g.nonterminalCount}
  (hp : ∀ i j, p.entry i j = true ↔ g.Produces (g.symbolOfIndex i) (g.symbolOfIndex j))

include hp

theorem exists_walk_of_recursive (hg : g.Grouped) {i : Fin g.nonterminalCount}
    (h : g.Recursive (g.symbolOfIndex i)) (d : Nat) :
    ∃ j, Walk (fun i j => p.entry i j = true) d i j := by
  induction d generalizing i with
  | zero => exact ⟨i, .here i⟩
  | succ d ih =>
    obtain ⟨b, hab, hb⟩ := h.exists_produces
    obtain ⟨k, rfl⟩ := exists_symbolOfIndex (hb.isNonterminal hg)
    obtain ⟨j, hwalk⟩ := ih hb
    exact ⟨j, .step ((hp i k).mpr hab) hwalk⟩

theorem rank_add_le_of_walk (hg : g.Grouped) (hnone : ∀ s, ¬ g.Recursive s) {d : Nat}
    {i j : Fin g.nonterminalCount} (h : Walk (fun i j => p.entry i j = true) d i j) :
    g.rank (g.symbolOfIndex j) + d ≤ g.rank (g.symbolOfIndex i) := by
  induction h with
  | here => exact Nat.le_refl _
  | @step d i k j hfirst _ ih =>
    have := rank_lt hg ((hp i k).mp hfirst) (hnone _)
    omega

end Pattern

/-- The test finds out whether some symbol is recursive. -/
theorem isNilpotent_iff (hg : g.Coherent) (hw : ∀ entry ∈ g.table, 1 ≤ entry.weight) :
    ∃ m, g.matrices ℚ = .ok m ∧ (m.expected.isNilpotent = true ↔ ∀ s, ¬ g.Recursive s) := by
  refine ⟨_, matricesOf_rat (fun _ hgroup => by
    have := hg.one_le_total hw hgroup
    omega) _ _, ?_⟩
  have hp : ∀ i j : Fin g.nonterminalCount,
      (g.exactMatrices g.nonterminalCount g.ruleCount).expected.pattern.entry i j = true ↔
        g.Produces (g.symbolOfIndex i) (g.symbolOfIndex j) := by
    intro i j
    rw [Grid.pattern, Grid.entry_ofFn, decide_eq_true_iff, expected_pos_iff hg hw]
    exact exists_contributes_iff hg.grouped (Array.getElem?_eq_getElem i.isLt)
      (Array.getElem?_eq_getElem j.isLt)
  rw [Grid.isNilpotent_iff]
  constructor
  · intro hnil s hs
    obtain ⟨i, rfl⟩ := exists_symbolOfIndex (hs.isNonterminal hg.grouped)
    obtain ⟨j, hwalk⟩ := exists_walk_of_recursive hp hg.grouped hs (2 ^ Grid.doublings _)
    exact hnil i j hwalk
  · intro hnone i j hwalk
    have hdrop := rank_add_le_of_walk hp hg.grouped hnone hwalk
    have hlow : 1 ≤ g.rank (g.symbolOfIndex j) :=
      one_le_rank (isNonterminal_iff.mpr ⟨_, Array.getElem_mem j.isLt, rfl⟩)
    have hhigh := g.rank_le (g.symbolOfIndex i)
    have hlong := Grid.le_two_pow_doublings g.nonterminalCount
    omega

end Grammar

end ProbeForge
