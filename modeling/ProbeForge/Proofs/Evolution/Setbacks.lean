import ProbeForge.Proofs.Endings
import ProbeForge.Proofs.Evolution.Operators
import ProbeForge.Proofs.Random.Samples

/-!
# Setbacks

A change of weights comes to an end, unless a number that it needs cannot be computed or the
acceptance of some weights cannot be decided. Nothing else ends it early.
-/

namespace ProbeForge

namespace Grammar

variable {prototype g : Grammar}

/-! ### What weights do not change -/

theorem nonterminals_skeleton (g : Grammar) : g.skeleton.nonterminals = g.nonterminals := by
  simp [skeleton, nonterminals, Function.comp_def]

/-- The same nonterminals have rules under all weights. -/
theorem Fits.nonterminals_eq (h : prototype.Fits g) : g.nonterminals = prototype.nonterminals := by
  rw [← nonterminals_skeleton g, h.skeleton, nonterminals_skeleton]

/-- A rule has the same place under all weights. -/
theorem Fits.exists_entry (h : prototype.Fits g) {i : Nat} {entry : RuleEntry}
    (hentry : prototype.table[i]? = some entry) :
    ∃ weight, g.table[i]? = some { entry with weight } := by
  have hlt : i < g.weights.length := h.length ▸ (Array.getElem?_eq_some_iff.mp hentry).1
  have htable : g.table = reweighed prototype.table g.weights := (congrArg table h.same).symm
  refine ⟨g.weights[i], ?_⟩
  rw [htable, getElem?_reweighed, hentry, List.getElem?_eq_getElem hlt]
  rfl

end Grammar

namespace Breeder

open Tuning Grammar

variable {α ρ : Type} {prototype g : Grammar} {accepts : Grammar → Except Fault Bool}

/-- What can end breeding early: a rule is needed and there is none, the number of attempts is not
whole, whether some weights of a prototype are acceptable cannot be decided, or a number that is
needed cannot be computed. -/
inductive Setback [Scalar α] (b : Breeder α) (ρ : Type) [RandomSource ρ] (prototype : Grammar) :
    Fault → Prop where
  | ruleless {fault : Fault} (empty : prototype.ruleCount = 0)
    (needed : b.crossover = .rule ∨ b.mutation = .rule) : Setback b ρ prototype fault
  | attempts {fault : Fault} (h : b.population.toWhole = .error fault) : Setback b ρ prototype fault
  | undecided {g : Grammar} {fault : Fault} (fits : prototype.Fits g)
    (h : b.accepts g = .error fault) : Setback b ρ prototype fault
  | noise {weight : Int} {source : ρ} {fault : Fault} (positive : 1 ≤ weight)
    (h : (perturb α weight source).1 = .error fault) : Setback b ρ prototype fault
  | length {source : ρ} {fault : Fault}
    (h : (swapLength α prototype.ruleCount source).1 = .error fault) : Setback b ρ prototype fault
  | share {places : Int} {fault : Fault} (h : b.copies (.whole places) = .error fault) :
    Setback b ρ prototype fault

/-! ### Steps -/

section Steps

variable {β γ : Type} {P : Fault → Tuning ρ → Prop} {Q : γ → Tuning ρ → Prop} {source : ρ}

theorem ends_current_bind {k : Grammar → Attempt (Tuning ρ) γ} (h : Ends P Q (k g) ⟨g, source⟩) :
    Ends P Q (current >>= k) ⟨g, source⟩ := h

theorem ends_draw_bind {f : ρ → β × ρ} {k : β → Attempt (Tuning ρ) γ}
    (hk : ∀ x rest, Ends P Q (k x) ⟨g, rest⟩) : Ends P Q (Tuning.draw f >>= k) ⟨g, source⟩ :=
  hk _ _

/-- What follows a draw may rely on what was drawn, whatever is drawn later. -/
theorem ends_drawOrFail_bind {f : ρ → Except Fault β × ρ} {k : β → Attempt (Tuning ρ) γ}
    (hP : ∀ fault rest, (f source).1 = .error fault → P fault ⟨g, rest⟩)
    (hk : ∀ x rest, (f source).1 = .ok x → Ends P Q (k x) ⟨g, rest⟩) :
    Ends P Q (drawOrFail f >>= k) ⟨g, source⟩ := by
  refine Ends.bind (Q := fun x s => (f source).1 = .ok x ∧ g = s.grammar) ?_ ?_
  · unfold Ends drawOrFail
    rcases hdrawn : f source with ⟨fault | x, rest⟩
    · simpa only [hdrawn] using hP fault rest (congrArg Prod.fst hdrawn)
    · exact ⟨rfl, rfl⟩
  · rintro x ⟨_, rest⟩ ⟨hx, rfl⟩
    exact hk x rest hx

/-- A sample that is not larger than the list is always drawn. -/
theorem ends_sample_bind {xs : List β} {n : Nat} {k : List β → Attempt (Tuning ρ) γ}
    [RandomSource ρ] (hn : n ≤ xs.length)
    (hk : ∀ drawn rest, (RandomSource.sample xs n source).1 = .ok drawn →
      Ends P Q (k drawn) ⟨g, rest⟩) :
    Ends P Q (drawOrFail (RandomSource.sample xs n) >>= k) ⟨g, source⟩ := by
  refine ends_drawOrFail_bind (fun fault rest hfault => ?_) hk
  obtain ⟨drawn, hdrawn⟩ := RandomSource.exists_sample hn source
  rw [hdrawn] at hfault
  cases hfault

theorem ends_setWeights {weights : List Int} {Q : Unit → Tuning ρ → Prop}
    (hlength : weights.length = g.ruleCount) (hpositive : ∀ w ∈ weights, 1 ≤ w)
    (h : Q () ⟨g.replaceWeights weights, source⟩) :
    Ends P Q (change (·.setWeights weights true)) ⟨g, source⟩ := by
  have hchange : change (·.setWeights weights true) ⟨g, source⟩ =
      .ok () ⟨g.replaceWeights weights, source⟩ := by
    simp [change, setWeights_of_pos hlength hpositive]
  exact ends_of_ok hchange h

end Steps

/-! ### Attempts -/

variable {operator : Attempt (Tuning ρ) Unit} {P : Fault → Tuning ρ → Prop}

/-- If attempts end early, then because of the operator or because of the check of what it left. -/
theorem tryFrom_ends (hback : Revocable operator g)
    (hoperator : ∀ source, Ends P (fun _ s => ∀ fault, accepts s.grammar = .error fault → P fault s)
      operator ⟨g, source⟩) (left done : Nat) (source : ρ) :
    Ends P (fun _ _ => True) (tryFrom accepts operator g.weights left done) ⟨g, source⟩ := by
  induction left generalizing done source with
  | zero => exact trivial
  | succ left ih =>
    rw [tryFrom]
    refine ((hoperator source).also fun _ s hran h => And.intro hran h).bind fun _ s hoperated => ?_
    obtain ⟨hran, hfails⟩ := hoperated
    refine ends_current_bind (ends_lift_bind hfails fun yes _ => ?_)
    cases yes with
    | true => exact trivial
    | false =>
      -- the next attempt starts from the weights before this one
      have hchange : change (·.setWeights g.weights true) s = .ok () ⟨g, s.source⟩ := by
        simp [change, hback source s hran]
      exact ends_bind_of_ok hchange (ih (done + 1) s.source)

/-- A change that was tried came out in one of two ways. -/
structure TriedOn (b : Breeder α) (operator : Attempt (Tuning ρ) Unit) (g : Grammar) (source : ρ)
    (outcome : Outcome) (s : Tuning ρ) : Prop where
  /-- One attempt was accepted, and those before it were rejected. -/
  changed : ∀ k, outcome.accepted = some k → ∃ before rest, k = before + 1 ∧
    Rejected b.accepts operator g before source rest ∧ operator ⟨g, rest⟩ = .ok () s ∧
    b.accepts s.grammar = .ok true
  unchanged : outcome.accepted = none → s.grammar = g

theorem retry_ends {b : Breeder α} (hback : Revocable operator g) (label : String) (source : ρ)
    (hpopulation : ∀ fault, b.population.toWhole = .error fault → P fault ⟨g, source⟩)
    (hoperator : ∀ source, Ends P
      (fun _ s => ∀ fault, b.accepts s.grammar = .error fault → P fault s) operator ⟨g, source⟩) :
    Ends P (b.TriedOn operator g source) (b.retry label operator) ⟨g, source⟩ := by
  unfold retry
  refine ends_current_bind (ends_lift_bind hpopulation fun n _ => ?_)
  refine ((tryFrom_ends hback hoperator _ 0 source).also fun accepted s htried _ => htried).bind
    fun accepted s htried => ?_
  rcases (tryFrom_ok_iff hback).mp htried with
    ⟨k, rest, -, hbefore, hlast, haccepted, rfl⟩ | ⟨rest, -, rfl, rfl⟩
  · refine ends_pure ⟨fun attempt hattempt => ?_, fun h => nomatch h⟩
    obtain rfl : k + 1 = attempt := by simpa using hattempt
    exact ⟨k, rest, rfl, hbefore, hlast, haccepted⟩
  · exact ends_pure ⟨fun k hk => (nomatch hk), fun _ => rfl⟩

end Breeder

end ProbeForge
