import Mathlib
import ProbeForge.Proofs.Consistency.Recursion

/-!
# Cycles

From a place on a cycle there are walks of every length. Without a cycle each step of a walk leaves
a place that the rest of the walk does not come back to, so no walk has as many steps as there are
places. The test for nilpotency asks for a walk that is at least that long.
-/

namespace ProbeForge

open Relation

section Cycles

variable {n d : Nat} {r : Fin n → Fin n → Prop} {i j : Fin n}

/-- What comes after a place on a cycle is on a cycle too. -/
theorem exists_step_of_cycle (h : TransGen r i i) : ∃ k, r i k ∧ TransGen r k k := by
  obtain ⟨k, hstep, hback⟩ := TransGen.head'_iff.mp h
  exact ⟨k, hstep, TransGen.tail' hback hstep⟩

theorem exists_walk_of_cycle (h : TransGen r i i) (d : Nat) : ∃ j, Walk r d i j := by
  induction d generalizing i with
  | zero => exact ⟨i, .here i⟩
  | succ d ih =>
    obtain ⟨k, hstep, hcycle⟩ := exists_step_of_cycle h
    obtain ⟨j, hwalk⟩ := ih hcycle
    exact ⟨j, .step hstep hwalk⟩

/-- The places that one step or more lead to. -/
def ahead (r : Fin n → Fin n → Prop) (i : Fin n) : Set (Fin n) := {k | TransGen r i k}

variable (hacyclic : ∀ i, ¬ TransGen r i i)

include hacyclic

theorem ncard_ahead_lt_of_step (h : r i j) : (ahead r j).ncard < (ahead r i).ncard := by
  have hsubset : ahead r j ⊆ ahead r i := fun k hk => TransGen.head h hk
  refine Set.ncard_lt_ncard ?_ (Set.toFinite _)
  exact (Set.ssubset_iff_of_subset hsubset).mpr ⟨j, .single h, hacyclic j⟩

theorem ncard_ahead_lt (i : Fin n) : (ahead r i).ncard < n := by
  have hproper : ahead r i ⊂ Set.univ :=
    (Set.ssubset_iff_of_subset (Set.subset_univ _)).mpr ⟨i, Set.mem_univ i, hacyclic i⟩
  calc (ahead r i).ncard < (Set.univ : Set (Fin n)).ncard :=
        Set.ncard_lt_ncard hproper (Set.toFinite _)
    _ = n := by rw [Set.ncard_univ, Nat.card_fin]

theorem ncard_ahead_add_le_of_walk (h : Walk r d i j) :
    (ahead r j).ncard + d ≤ (ahead r i).ncard := by
  induction h with
  | here => exact Nat.le_refl _
  | step hfirst _ ih =>
    have := ncard_ahead_lt_of_step hacyclic hfirst
    omega

theorem lt_of_walk (h : Walk r d i j) : d < n := by
  have hdrop := ncard_ahead_add_le_of_walk hacyclic h
  have hfew := ncard_ahead_lt hacyclic i
  omega

end Cycles

namespace Grid

variable {n : Nat} {α : Type} [Scalar α] {a : Grid α n n}

/-- There is an edge where an entry is above zero. -/
def Edge (a : Grid α n n) (i j : Fin n) : Prop := 0 < a.entry i j

theorem entry_pattern (a : Grid α n n) :
    (fun i j => a.pattern.entry i j = true) = a.Edge := by
  funext i j
  rw [pattern, entry_ofFn, decide_eq_true_iff, Edge]

theorem isNilpotent_of_acyclic (h : ∀ i, ¬ TransGen a.Edge i i) : a.isNilpotent = true := by
  rw [isNilpotent_iff, entry_pattern]
  intro i j hwalk
  have hshort := lt_of_walk h hwalk
  have hlong := le_two_pow_doublings n
  omega

theorem acyclic_of_isNilpotent (h : a.isNilpotent = true) (i : Fin n) : ¬ TransGen a.Edge i i := by
  rw [isNilpotent_iff, entry_pattern] at h
  intro hcycle
  obtain ⟨j, hwalk⟩ := exists_walk_of_cycle hcycle (2 ^ doublings n)
  exact h i j hwalk

/-- The test finds out whether the graph of the entries above zero has no cycle. -/
theorem isNilpotent_iff_acyclic (a : Grid α n n) :
    a.isNilpotent = true ↔ ∀ i, ¬ TransGen (fun i j => 0 < a.entry i j) i i :=
  ⟨acyclic_of_isNilpotent, isNilpotent_of_acyclic⟩

end Grid

end ProbeForge
