import Mathlib
import ProbeForge.Proofs.Consistency.IncrementalRepair

/-!
# Repair only lowers weights

An attempt shrinks the weight of one rule, or takes that back. It shrinks by nine tenths or more and
stops at one, so weights that begin as the normal ones stay between one and these, in whatever order
attempts succeed and fail. Rules that are alone in their group are never drawn.
-/

namespace ProbeForge

open Grammar

namespace Repair

/-! ### Weight vectors -/

/-- No weight is below one or above the highest that its place may have. -/
def Between (weights highest : List Int) : Prop :=
  List.Forall₂ (fun weight top => 1 ≤ weight ∧ weight ≤ top) weights highest

variable {weights highest : List Int} {weight lower : Int}

theorem between_self (h : ∀ w ∈ weights, 1 ≤ w) : Between weights weights :=
  List.forall₂_same.mpr fun w hw => ⟨h w hw, le_rfl⟩

theorem Between.set (h : Between weights highest) {i : Nat} (hone : 1 ≤ lower)
    (hle : lower ≤ weights.getD i 0) : Between (weights.set i lower) highest := by
  induction h generalizing i with
  | nil => exact .nil
  | cons hhead htail ih =>
    cases i with
    | zero => exact .cons ⟨hone, hle.trans hhead.2⟩ htail
    | succ i => exact .cons hhead (ih hle)

/-! ### Shrinking -/

variable {shrink : ℚ}

theorem one_le_of_shrunk (h : shrunk weight shrink = .ok lower) : 1 ≤ lower := by
  obtain ⟨lower', hlower, hone⟩ := shrunk_rat weight shrink
  cases h.symm.trans hlower
  exact hone

theorem shrunk_le (hshrink : shrink ≤ weakest) (hweight : 1 ≤ weight)
    (h : shrunk weight shrink = .ok lower) : lower ≤ weight := by
  have hlower : max ⌈(weight : ℚ) * shrink⌉ 1 = lower := by
    injection h
  have hone : shrink ≤ 1 := by
    simp only [weakest, Scalar.ratio_rat] at hshrink
    linarith
  have hnonneg : (0 : ℚ) ≤ weight := mod_cast zero_le_one.trans hweight
  rw [← hlower]
  exact max_le (Int.ceil_le.mpr (mul_le_of_le_one_right hnonneg hone)) hweight

theorem strengthen_le (h : shrink ≤ weakest) : strengthen shrink ≤ weakest := by
  simp only [strengthen, strongest, weakest, Scalar.larger_rat, Scalar.ratio_rat] at h ⊢
  refine max_le ?_ ?_ <;> linarith

theorem relax_le (shrink : ℚ) : relax shrink ≤ weakest := by
  simp only [relax, Scalar.smaller_rat]
  exact min_le_left _ _

/-! ### Single attempts -/

variable {n r : Nat} {ρ : Type} {normal : Grammar} {bound : ℚ} {st next : Standing n r}
  {s s' : Tuning ρ}

theorem current_ok {g : Grammar} : Tuning.current s = .ok g s' ↔ s.grammar = g ∧ s = s' := by
  simp [Tuning.current]

theorem draw_ok {β : Type} {f : ρ → β × ρ} {b : β} :
    Tuning.draw f s = .ok b s' ↔
      (f s.source).1 = b ∧ { s with source := (f s.source).2 } = s' := by
  simp [Tuning.draw]

theorem change_ok {change : Grammar → Except Fault Grammar} {u : Unit} :
    Tuning.change change s = .ok u s' ↔
      ∃ g, change s.grammar = .ok g ∧ { s with grammar := g } = s' := by
  unfold Tuning.change
  cases change s.grammar <;> simp

/-- After an attempt that does not end the repair the lowered weight is kept, or the old one is
written again. -/
theorem conclude_again {rule : Fin r} {lowered : Standing n r}
    (h : conclude bound st rule weight lowered s = .ok (.again next) s') :
    (s' = s ∧ next = { lowered with shrink := relax st.shrink }) ∨
    (∃ g, s.grammar.setRuleWeight rule (.int weight) = .ok g ∧ s' = { s with grammar := g } ∧
      next = { st with shrink := strengthen st.shrink }) := by
  unfold conclude at h
  split at h
  · cases h
  · split at h
    case isTrue =>
      simp only [attempt_bind_ok, change_ok] at h
      obtain ⟨_, _, ⟨g, hback, rfl⟩, h⟩ := h
      cases h
      exact .inr ⟨g, hback, rfl, rfl⟩
    case isFalse =>
      cases h
      exact .inl ⟨rfl, rfl⟩

theorem finish_not_exhausted {gauge : Gauge ℚ n} {goal : RepairGoal ℚ} {radius : ℚ} {done : Int}
    {truth : RepairReport ℚ} (h : finish gauge r goal radius done s = .ok truth s') :
    truth.exhausted = false := by
  simp only [finish, attempt_bind_ok] at h
  obtain ⟨_, _, -, _, _, -, normal, _, -, h⟩ := h
  split at h
  · cases h
    rfl
  · obtain ⟨_, _, -, h⟩ := attempt_bind_ok.mp h
    cases h
    rfl

variable [RandomSource ρ] {upkeep : Upkeep n r} {first : Fin n × Fin n}
  {rest : List (Fin n × Fin n)}

/-- All that an attempt can do to the weights and to the factor of the next one. -/
theorem attempt_again (hnormal : normal.Grouped) (hs : normal.Fits s.grammar)
    (h : attempt upkeep bound first rest st s = .ok (.again next) s') :
    ∃ pair ∈ first :: rest, ∃ group, s.grammar.groups[pair.1.val]? = some group ∧
      ∃ rule ∈ group.rules, ∃ lower, shrunk (s.grammar.weightAt rule) st.shrink = .ok lower ∧
        (s'.grammar = s.grammar.replaceWeights (s.grammar.weights.set rule lower) ∧
            next.shrink = relax st.shrink ∨
          s'.grammar = s.grammar ∧ next.shrink = strengthen st.shrink) := by
  simp only [attempt, attempt_bind_ok, draw_ok, current_ok, attempt_lift_ok] at h
  obtain ⟨pair, _, ⟨hpair, rfl⟩, _, _, ⟨rfl, rfl⟩, m, _, ⟨-, rfl⟩, h⟩ := h
  cases hworst : worst? s.grammar m pair.1 pair.2 with
  | none =>
    rw [hworst] at h
    cases h
  | some rule =>
    rw [hworst] at h
    simp only [attempt_bind_ok, current_ok, attempt_lift_ok, change_ok] at h
    obtain ⟨_, _, ⟨rfl, rfl⟩, lower, _, ⟨hlower, rfl⟩, _, _, ⟨lowered, hset, rfl⟩, _, _,
      ⟨rfl, rfl⟩, m', _, ⟨-, rfl⟩, h⟩ := h
    -- whatever matrices were handed on, the rule is one of the drawn nonterminal
    obtain ⟨⟨group, hgroup, hrule⟩, -⟩ := mem_contributing.mp (worst?_mem hworst)
    refine ⟨pair, hpair ▸ RandomSource.choose_mem first rest s.source, group, hgroup, rule, hrule,
      lower, hlower, ?_⟩
    have hcoherent := hs.coherent hnormal
    have hlt := hcoherent.grouped.lt_of_mem_rules (Array.mem_of_getElem? hgroup) hrule
    rcases conclude_again h with ⟨rfl, rfl⟩ | ⟨g, hg, rfl, rfl⟩
    · -- the lowered weight stays
      cases hset.symm.trans (hcoherent.setRuleWeight_eq hlt lower)
      exact .inl ⟨rfl, rfl⟩
    · -- the old weight is written over it
      obtain ⟨lowered', hset', -, -, hback⟩ := set_and_back (n := n) (r := r) hnormal hs
        ⟨group, hgroup, hrule⟩ (one_le_of_shrunk hlower)
      cases hset.symm.trans hset'
      cases hg.symm.trans hback
      exact .inr ⟨rfl, rfl⟩

/-! ### Weights between one and the normal ones -/

/-- How the weights stand to the normal ones when an attempt begins. -/
structure Lowered (normal g : Grammar) : Prop where
  between : Between g.weights normal.weights
  single : ∀ group ∈ normal.groups, group.rules.length = 1 →
    ∀ i ∈ group.rules, g.weightAt i = normal.weightAt i

theorem lowered_self (h : ∀ w ∈ normal.weights, 1 ≤ w) : Lowered normal normal :=
  ⟨between_self h, fun _ _ _ _ _ => rfl⟩

theorem Lowered.set {g : Grammar} (h : Lowered normal g) (hnormal : normal.Grouped)
    {group : RuleGroup} (hgroup : group ∈ normal.groups) (hmany : group.rules.length ≠ 1) {k : Nat}
    (hk : k ∈ group.rules) (hone : 1 ≤ lower) (hle : lower ≤ g.weightAt k) :
    Lowered normal (g.replaceWeights (g.weights.set k lower)) where
  between := by
    rw [weights_replaceWeights (g.length_set_weights k lower)]
    exact h.between.set hone (g.weightAt_eq k ▸ hle)
  single other hother hsingle i hi := by
    -- a place has one group, so this rule would be alone in it
    have hne : k ≠ i := by
      rintro rfl
      exact hmany (hnormal.eq_of_mem_rules hgroup hk hother hi ▸ hsingle)
    rw [weightAt_set_of_ne hne]
    exact h.single other hother hsingle i hi

/-- What attempts keep: no weight above the normal one, and a factor that lowers weights. -/
structure Kept (normal : Grammar) (st : Standing n r) (s : Tuning ρ) : Prop where
  fits : normal.Fits s.grammar
  lowered : Lowered normal s.grammar
  shrink : st.shrink ≤ weakest

section Attempts

variable (hnormal : normal.Grouped)
  (hpairs : ∀ pair ∈ first :: rest, ∀ group, normal.groups[pair.1.val]? = some group →
    group.rules.length ≠ 1)

include hnormal hpairs

theorem Kept.attempt (h : Kept normal st s)
    (hagain : attempt upkeep bound first rest st s = .ok (.again next) s') :
    Kept normal next s' ∧ ∃ i w, s'.grammar.weights = s.grammar.weights.set i w := by
  obtain ⟨pair, hpair, group, hgroup, k, hk, lower, hlower, hstep⟩ :=
    attempt_again hnormal h.fits hagain
  rcases hstep with ⟨hgrammar, hshrink⟩ | ⟨hgrammar, hshrink⟩
  · -- an old weight of one or more, times a factor that is not above nine tenths
    have hcoherent := h.fits.coherent hnormal
    have hone := one_le_of_shrunk hlower
    have hweight := one_le_weightAt h.fits.one_le_weight hcoherent (Array.mem_of_getElem? hgroup) hk
    obtain ⟨old, hold, hrules⟩ := h.fits.exists_rules_eq hgroup
    have hlowered := h.lowered.set hnormal (Array.mem_of_getElem? hold)
      (hpairs pair hpair old hold) (hrules ▸ hk) hone (shrunk_le h.shrink hweight hlower)
    refine ⟨⟨hgrammar ▸ h.fits.set k hone, hgrammar ▸ hlowered, hshrink ▸ relax_le _⟩, k, lower, ?_⟩
    rw [hgrammar, weights_replaceWeights (s.grammar.length_set_weights k lower)]
  · -- nothing has changed but the factor
    refine ⟨⟨hgrammar ▸ h.fits, hgrammar ▸ h.lowered, hshrink ▸ strengthen_le h.shrink⟩,
      s.grammar.weights.length, 0, ?_⟩
    rw [hgrammar, List.set_eq_of_length_le le_rfl]

theorem Begins.kept {p : Grid.Precision ℚ} {entry : Standing n r} {s₀ : Tuning ρ}
    (hentry : Kept normal entry s₀) {k : Nat} (h : Begins p bound first rest entry s₀ k st s) :
    Kept normal st s := by
  induction h with
  | first => exact hentry
  | next _ hagain ih => exact (ih.attempt hnormal hpairs hagain).1

/-- Where the budget runs out, the weights are as the next attempt would have found them. -/
theorem Kept.loop {gauge : Gauge ℚ n} {goal : RepairGoal ℚ} {budget : Int} {left : Nat}
    {done : Int} {truth : RepairReport ℚ} (h : Kept normal st s)
    (hrun : loop upkeep gauge goal budget first rest left done st s = .ok truth s')
    (hexhausted : truth.exhausted = true) : Between truth.weights normal.weights := by
  induction left generalizing done st s with
  | zero =>
    cases hrun
    exact h.lowered.between
  | succ left ih =>
    unfold Repair.loop at hrun
    obtain ⟨ending, s₁, hattempt, hrun⟩ := attempt_bind_ok.mp hrun
    cases ending with
    | met radius => simp [finish_not_exhausted hrun] at hexhausted
    | again next => exact ih (h.attempt hnormal hpairs hattempt).1 hrun

end Attempts

end Repair

namespace Grammar

open Repair

variable {ρ : Type}

theorem answer_ok {α : Type} {result : EStateM.Result Fault (Tuning ρ) α} {a : α} {s : Tuning ρ} :
    answer result = (.ok a, s) ↔ result = .ok a s := by
  cases result <;> simp [answer]

variable [RandomSource ρ]

/-- Repair only lowers weights. Whenever an attempt begins, they are between one and the normal
ones, and a nonterminal's only rule has its normal weight; an attempt that does not end the repair
writes one weight at most; and where the budget runs out, the weights that are reported are between
one and the normal ones. -/
theorem repairBy_lowers {g imported normal : Grammar} (hg : g.Grouped) {weights : Json}
    (himport : (if weights.isNull then .ok g else g.importValue weights false) = .ok imported)
    {target : Quantity ℚ} (hnormal : imported.normalize target = .ok normal)
    (p : Grid.Precision ℚ) (bound : ℚ) (budget : Int) (source : ρ) :
    ∃ m, normal.matricesOf imported.nonterminalCount imported.ruleCount = .ok m ∧
      (¬ Grid.spectralRadius p m.expected < bound →
        ∀ first rest, adjustable normal m.expected = first :: rest →
          let gauge (n : Nat) : Gauge ℚ n := ⟨Grid.spectralRadius p, Grid.iteratedRadius p⟩
          let entry : Standing _ _ := ⟨m, Grid.spectralRadius p m.expected, weakest⟩
          let repaired := g.repairBy gauge weights ⟨.ok target, .ok bound, .ok budget, true⟩ source
          repaired = answer (loop (.incremental p) (gauge _) ⟨target, bound⟩ budget first rest
              budget.toNat 0 entry ⟨normal, source⟩) ∧
            (∀ k st s, Begins p bound first rest entry ⟨normal, source⟩ k st s →
              Lowered normal s.grammar ∧
                ∀ next s', attempt (.incremental p) bound first rest st s = .ok (.again next) s' →
                  ∃ i w, s'.grammar.weights = s.grammar.weights.set i w) ∧
            ∀ truth s, repaired = (.ok truth, s) → truth.exhausted = true →
              Between truth.weights normal.weights) := by
  have hbase := grouped_of_import hg himport
  have hfits := fits_of_normalize hnormal
  have hgrouped := (hfits.coherent hbase).grouped
  have hm := matricesOf_fits hbase hfits imported.nonterminalCount imported.ruleCount
  refine ⟨_, hm, fun hover first rest hadjustable => ?_⟩
  -- nonterminals with a single rule are passed over when the pairs are collected
  have hpairs : ∀ pair ∈ first :: rest, ∀ group, normal.groups[pair.1.val]? = some group →
      group.rules.length ≠ 1 := by
    intro pair hpair group hgroup
    have hmany := (mem_adjustable.mp (hadjustable ▸ hpair)).1
    simpa [hgroup] using hmany
  intro gauge entry repaired
  have hentry : Kept normal entry (⟨normal, source⟩ : Tuning ρ) :=
    ⟨Fits.self (hfits.coherent hbase) hfits.positive, lowered_self hfits.positive, le_rfl⟩
  have hrepaired : repaired = answer (loop (.incremental p) (gauge _) ⟨target, bound⟩ budget first
      rest budget.toNat 0 entry ⟨normal, source⟩) := by
    simp only [repaired]
    rw [repairBy_eq_answer himport, run_eq_attempts (gauge _) hnormal hm hover hadjustable,
      attempts_eq_loop]
  refine ⟨hrepaired, fun k st s hbegins => ?_, fun truth s hresult hexhausted => ?_⟩
  · have hkept := hbegins.kept hgrouped hpairs hentry
    exact ⟨hkept.lowered, fun next s' hagain => (hkept.attempt hgrouped hpairs hagain).2⟩
  · exact hentry.loop hgrouped hpairs (answer_ok.mp (hrepaired.symm.trans hresult)) hexhausted

theorem repairBy_lowers_branching :
    ∃ (normal : Grammar) (m : ProductionMatrices ℚ 1 2) (first : Fin 1 × Fin 1)
        (rest : List (Fin 1 × Fin 1)),
      branching.normalize (.whole 3 : Quantity ℚ) = .ok normal ∧
      normal.matricesOf 1 2 = .ok m ∧ ¬ Grid.spectralRadius .standard m.expected < 1 ∧
      adjustable normal m.expected = first :: rest ∧
      (∀ k st s, Begins .standard 1 first rest
          ⟨m, Grid.spectralRadius .standard m.expected, weakest⟩
          (⟨normal, RandomSource.seeded 1⟩ : Tuning MersenneTwister) k st s →
        Lowered normal s.grammar ∧
          ∀ next s', attempt (.incremental .standard) 1 first rest st s = .ok (.again next) s' →
            ∃ i w, s'.grammar.weights = s.grammar.weights.set i w) ∧
      ∀ truth s, branching.repairBy
          (fun _ => ⟨Grid.spectralRadius .standard, Grid.iteratedRadius .standard⟩) .null
          ⟨.ok (.whole 3), .ok (1 : ℚ), .ok 20000, true⟩ (RandomSource.seeded 1 : MersenneTwister) =
            (.ok truth, s) →
        truth.exhausted = true → Between truth.weights normal.weights := by
  have hgrouped : branching.Grouped := ⟨by decide, by decide, by decide, by decide⟩
  have himport : (if Json.null.isNull then .ok branching
      else branching.importValue .null false) = .ok branching := rfl
  obtain ⟨(m : ProductionMatrices ℚ 1 2), hm, h⟩ :=
    repairBy_lowers hgrouped himport normalize_branching .standard 1 20000
      (RandomSource.seeded 1 : MersenneTwister)
  obtain ⟨hover, hadjustable⟩ := adjustable_branching hm
  obtain ⟨-, hbegins, hexhausted⟩ := h hover _ _ hadjustable
  exact ⟨_, m, (0, 0), [], normalize_branching, hm, hover, hadjustable, hbegins, hexhausted⟩

end Grammar

end ProbeForge
