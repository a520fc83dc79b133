import ProbeForge.Evolution.Breeder
import ProbeForge.Proofs.Grammar.Reweighing

/-!
# Retries

A change of weights is tried until it is accepted. Attempts that were rejected leave nothing behind
but the numbers that they drew: every attempt begins with the initial weights, and if none is
accepted these are the weights in the end.
-/

namespace ProbeForge.Breeder

open Tuning Grammar

variable {α ρ : Type} {g : Grammar} {accepts : Grammar → Except Fault Bool}
  {operator : Attempt (Tuning ρ) Unit}

/-- The operator runs on the same grammar a number of times, each time with the numbers that are
left, and what it makes of the grammar is rejected. -/
inductive Rejected (accepts : Grammar → Except Fault Bool) (operator : Attempt (Tuning ρ) Unit)
    (g : Grammar) : Nat → ρ → ρ → Prop where
  | none (source : ρ) : Rejected accepts operator g 0 source source
  | more {k : Nat} {source rest : ρ} {s : Tuning ρ} (ran : operator ⟨g, source⟩ = .ok () s)
    (rejected : accepts s.grammar = .ok false)
    (others : Rejected accepts operator g k s.source rest) :
    Rejected accepts operator g (k + 1) source rest

/-- After the operator the weights that the grammar had can be set again, and it is as before. -/
def Revocable (operator : Attempt (Tuning ρ) Unit) (g : Grammar) : Prop :=
  ∀ source s, operator ⟨g, source⟩ = .ok () s → s.grammar.setWeights g.weights true = .ok g

/-! ### Attempts -/

section Attempts

variable {source : ρ} {s s' : Tuning ρ} {outcome : Option Nat}

theorem tryFrom_accepted (hran : operator ⟨g, source⟩ = .ok () s)
    (haccepts : accepts s.grammar = .ok true) (initial : List Int) (left done : Nat) :
    tryFrom accepts operator initial (left + 1) done ⟨g, source⟩ = .ok (some (done + 1)) s := by
  rw [tryFrom, attempt_bind_eq hran]
  exact (attempt_bind_eq rfl _).trans (attempt_bind_eq (attempt_lift_eq haccepts) _)

/-- The attempts after one that is rejected begin where it began, but for the numbers it drew. -/
theorem tryFrom_rejected (hran : operator ⟨g, source⟩ = .ok () s)
    (haccepts : accepts s.grammar = .ok false) {initial : List Int}
    (hback : s.grammar.setWeights initial true = .ok g) (left done : Nat) :
    tryFrom accepts operator initial (left + 1) done ⟨g, source⟩ =
      tryFrom accepts operator initial left (done + 1) ⟨g, s.source⟩ := by
  have hchange : change (·.setWeights initial true) s = .ok () ⟨g, s.source⟩ := by
    simp [change, hback]
  rw [tryFrom, attempt_bind_eq hran]
  refine (attempt_bind_eq rfl _).trans ((attempt_bind_eq (attempt_lift_eq haccepts) _).trans ?_)
  exact attempt_bind_eq hchange _

/-- Attempts that come to an end were made, and the acceptance of the first is known. -/
theorem exists_of_tryFrom {initial : List Int} {left done : Nat}
    (h : tryFrom accepts operator initial (left + 1) done ⟨g, source⟩ = .ok outcome s') :
    ∃ s yes, operator ⟨g, source⟩ = .ok () s ∧ accepts s.grammar = .ok yes := by
  rw [tryFrom] at h
  obtain ⟨⟨⟩, s, hran, h⟩ := attempt_bind_ok.mp h
  obtain ⟨_, _, hcurrent, h⟩ := attempt_bind_ok.mp h
  cases hcurrent
  obtain ⟨yes, _, hlifted, -⟩ := attempt_bind_ok.mp h
  exact ⟨s, yes, hran, (attempt_lift_ok.mp hlifted).1⟩

/-- Either one attempt is the first to be accepted, or all are rejected and the grammar is as it
was. -/
theorem tryFrom_ok_iff (hback : Revocable operator g) {left done : Nat} :
    tryFrom accepts operator g.weights left done ⟨g, source⟩ = .ok outcome s' ↔
      (∃ k rest, k < left ∧ Rejected accepts operator g k source rest ∧
        operator ⟨g, rest⟩ = .ok () s' ∧ accepts s'.grammar = .ok true ∧
        outcome = some (done + k + 1)) ∨
      ∃ rest, Rejected accepts operator g left source rest ∧ s' = ⟨g, rest⟩ ∧ outcome = none := by
  -- a rejected attempt is taken back, so the others begin with the same grammar and later draws
  induction left generalizing done source with
  | zero =>
    rw [tryFrom, attempt_pure_ok]
    constructor
    · rintro ⟨rfl, rfl⟩
      exact .inr ⟨source, .none source, rfl, rfl⟩
    · rintro (⟨k, _, hk, -⟩ | ⟨rest, hnone, rfl, rfl⟩)
      · omega
      · cases hnone
        exact ⟨rfl, rfl⟩
  | succ left ih =>
    constructor
    · intro h
      obtain ⟨s, yes, hran, haccepts⟩ := exists_of_tryFrom h
      cases yes with
      | true =>
        rw [tryFrom_accepted hran haccepts] at h
        cases h
        exact .inl ⟨0, source, by omega, .none source, hran, haccepts, rfl⟩
      | false =>
        rw [tryFrom_rejected hran haccepts (hback source s hran)] at h
        rcases ih.mp h with ⟨k, rest, hk, hbefore, hlast, haccepted, rfl⟩ | ⟨rest, hall, hs', hnone⟩
        · exact .inl ⟨k + 1, rest, by omega, .more hran haccepts hbefore, hlast, haccepted,
            congrArg some (by omega)⟩
        · exact .inr ⟨rest, .more hran haccepts hall, hs', hnone⟩
    · rintro (⟨k, rest, hk, hbefore, hlast, haccepted, rfl⟩ | ⟨rest, hall, hs', hnone⟩)
      · cases hbefore with
        | none => exact tryFrom_accepted hlast haccepted _ _ _
        | more hran haccepts hbefore =>
          rename_i k s
          rw [tryFrom_rejected hran haccepts (hback source s hran)]
          exact ih.mpr (.inl ⟨k, rest, by omega, hbefore, hlast, haccepted,
            congrArg some (by omega)⟩)
      · cases hall with
        | more hran haccepts hall =>
          rename_i s
          rw [tryFrom_rejected hran haccepts (hback source s hran)]
          exact ih.mpr (.inr ⟨rest, hall, hs', hnone⟩)

/-- Attempts come to an end where the operator and the acceptance do. -/
theorem tryFrom_total (hback : Revocable operator g)
    (hruns : ∀ source, ∃ s, operator ⟨g, source⟩ = .ok () s)
    (hdecides : ∀ g, ∃ yes, accepts g = .ok yes) (left done : Nat) (source : ρ) :
    ∃ outcome s', tryFrom accepts operator g.weights left done ⟨g, source⟩ = .ok outcome s' := by
  induction left generalizing done source with
  | zero => exact ⟨none, ⟨g, source⟩, rfl⟩
  | succ left ih =>
    obtain ⟨s, hran⟩ := hruns source
    obtain ⟨yes, haccepts⟩ := hdecides s.grammar
    cases yes with
    | true => exact ⟨_, _, tryFrom_accepted hran haccepts _ _ _⟩
    | false =>
      rw [tryFrom_rejected hran haccepts (hback source s hran)]
      exact ih (done + 1) s.source

end Attempts

/-! ### Candidates -/

theorem retry_ok {b : Breeder α} {label : String} {s s' : Tuning ρ} {outcome : Outcome} :
    b.retry label operator s = .ok outcome s' ↔ ∃ n accepted, b.population.toWhole = .ok n ∧
      tryFrom b.accepts operator s.grammar.weights (max n 1).toNat 0 s = .ok accepted s' ∧
      outcome = ⟨accepted, label⟩ := by
  have hretry : b.retry label operator s =
      (do
        let retries ← b.population.toWhole
        return ⟨← tryFrom b.accepts operator s.grammar.weights (max retries 1).toNat 0, label⟩ :
        Attempt (Tuning ρ) Outcome) s := attempt_bind_eq rfl _
  rw [hretry]
  constructor
  · intro h
    obtain ⟨n, _, hlifted, h⟩ := attempt_bind_ok.mp h
    obtain ⟨hn, rfl⟩ := attempt_lift_ok.mp hlifted
    obtain ⟨accepted, _, htried, h⟩ := attempt_bind_ok.mp h
    obtain ⟨rfl, rfl⟩ := attempt_pure_ok.mp h
    exact ⟨n, accepted, hn, htried, rfl⟩
  · rintro ⟨n, accepted, hn, htried, rfl⟩
    exact (attempt_bind_eq (attempt_lift_eq hn) _).trans (attempt_bind_eq htried _)

/-- Positive weights can be set again after an operator that changed nothing but weights. -/
theorem revocable_of_skeleton (hcoherent : g.Coherent) (hpositive : ∀ w ∈ g.weights, 1 ≤ w)
    (hkeeps : ∀ source s, operator ⟨g, source⟩ = .ok () s → s.grammar.skeleton = g.skeleton) :
    Revocable operator g := by
  intro source s hran
  have hskeleton := hkeeps source s hran
  have hlength : g.weights.length = s.grammar.ruleCount := by
    rw [length_weights, ruleCount_of_skeleton hskeleton]
  rw [setWeights_of_pos hlength hpositive, replaceWeights_of_skeleton hskeleton,
    hcoherent.replaceWeights_self]

theorem tune_ok {β : Type} {c c' : Candidate α} {x : Attempt (Tuning ρ) β} {b : β}
    {source source' : ρ} :
    tune c x source = (.ok b, c', source') ↔
      ∃ s, x ⟨c.grammar, source⟩ = .ok b s ∧ c' = { c with grammar := s.grammar } ∧
        source' = s.source := by
  unfold tune
  cases x ⟨c.grammar, source⟩ <;> simp [eq_comm, and_assoc]

/-- A candidate with positive weights is changed by an operator until the change is accepted. Every
attempt begins with the weights that the candidate had. The first one that is accepted makes the
candidate what the operator made of these weights; if none of them is, the candidate is as before,
with all its totals. -/
theorem retry_leaves_nothing {b : Breeder α} {c : Candidate α} {n : Int}
    (hcoherent : c.grammar.Coherent) (hpositive : ∀ w ∈ c.grammar.weights, 1 ≤ w)
    (hkeeps : ∀ source s, operator ⟨c.grammar, source⟩ = .ok () s →
      s.grammar.skeleton = c.grammar.skeleton)
    (hpopulation : b.population.toWhole = .ok n) (label : String) (source : ρ) :
    (∀ outcome c' source', tune c (b.retry label operator) source = (.ok outcome, c', source') ↔
        (∃ k rest s, k < (max n 1).toNat ∧ Rejected b.accepts operator c.grammar k source rest ∧
          operator ⟨c.grammar, rest⟩ = .ok () s ∧ b.accepts s.grammar = .ok true ∧
          outcome = ⟨some (k + 1), label⟩ ∧ outcome.changed = true ∧
          c' = { c with grammar := s.grammar } ∧ source' = s.source) ∨
        (Rejected b.accepts operator c.grammar (max n 1).toNat source source' ∧
          outcome = ⟨none, label⟩ ∧ outcome.changed = false ∧ c' = c)) ∧
      ((∀ source, ∃ s, operator ⟨c.grammar, source⟩ = .ok () s) →
        (∀ g, ∃ yes, b.accepts g = .ok yes) →
        ∃ outcome c' source',
          tune c (b.retry label operator) source = (.ok outcome, c', source')) := by
  have hback := revocable_of_skeleton hcoherent hpositive hkeeps
  constructor
  · intro outcome c' source'
    constructor
    · intro h
      obtain ⟨s, hrun, rfl, rfl⟩ := tune_ok.mp h
      obtain ⟨n, accepted, hn, htried, rfl⟩ := retry_ok.mp hrun
      cases hpopulation.symm.trans hn
      rcases (tryFrom_ok_iff hback).mp htried with
        ⟨k, rest, hk, hbefore, hlast, haccepted, rfl⟩ | ⟨rest, hall, rfl, rfl⟩
      · exact .inl ⟨k, rest, s, hk, hbefore, hlast, haccepted, by rw [Nat.zero_add], rfl, rfl, rfl⟩
      · exact .inr ⟨hall, rfl, rfl, rfl⟩
    · rintro (⟨k, rest, s, hk, hbefore, hlast, haccepted, rfl, -, rfl, rfl⟩ | ⟨hall, rfl, -, rfl⟩)
      · have htried : tryFrom b.accepts operator c.grammar.weights (max n 1).toNat 0
            ⟨c.grammar, source⟩ = .ok (some (k + 1)) s :=
          (tryFrom_ok_iff hback).mpr (.inl ⟨k, rest, hk, hbefore, hlast, haccepted,
            by rw [Nat.zero_add]⟩)
        exact tune_ok.mpr ⟨s, retry_ok.mpr ⟨n, _, hpopulation, htried, rfl⟩, rfl, rfl⟩
      · have htried : tryFrom b.accepts operator c'.grammar.weights (max n 1).toNat 0
            ⟨c'.grammar, source⟩ = .ok none ⟨c'.grammar, source'⟩ :=
          (tryFrom_ok_iff hback).mpr (.inr ⟨source', hall, rfl, rfl⟩)
        exact tune_ok.mpr ⟨_, retry_ok.mpr ⟨n, _, hpopulation, htried, rfl⟩, rfl, rfl⟩
  · intro hruns hdecides
    obtain ⟨accepted, s, htried⟩ :=
      tryFrom_total hback hruns hdecides (max n 1).toNat 0 source
    exact ⟨_, _, _, tune_ok.mpr ⟨s, retry_ok.mpr ⟨n, accepted, hpopulation, htried, rfl⟩, rfl, rfl⟩⟩

/-- A weight that grows with every draw is accepted at the third attempt, and not at all if there
are only two. -/
theorem retry_leaves_nothing_growing :
    let grow : Attempt (Tuning Nat) Unit := do
      let n ← Tuning.draw fun n : Nat => (n, n + 1)
      change (·.setWeights [n + 1] true)
    let b (population : Int) : Breeder Float :=
      { prototype := .empty .null, accepts := fun g => .ok (g.weights == [3]),
        population := .whole population, mutation := .rule, crossover := .rule, mutationRate := 0,
        passThrough := 0 }
    ∃ g, ofRules .null [(⟨⟨"S"⟩, [⟨"a"⟩]⟩, 1)] = .ok g ∧
      let c : Candidate Float := .fresh 1 g []
      tune c ((b 3).retry "growth" grow) 0 =
          (.ok ⟨some 3, "growth"⟩, { c with grammar := g.replaceWeights [3] }, 3) ∧
        tune c ((b 2).retry "growth" grow) 0 = (.ok ⟨none, "growth"⟩, c, 2) := by
  intro grow b
  obtain ⟨g, hg⟩ := exists_of_isOk (x := ofRules .null [(⟨⟨"S"⟩, [⟨"a"⟩]⟩, 1)]) (by decide +kernel)
  have hcoherent := (coherent_ofRules hg).1
  have hweights : g.weights = [1] := by
    have h : (ofRules .null [(⟨⟨"S"⟩, [⟨"a"⟩]⟩, 1)]).toOption.map weights = some [1] := by
      decide +kernel
    simpa [hg, Except.toOption] using h
  have hpositive : ∀ w ∈ g.weights, 1 ≤ w := by simp [hweights]
  have hcount : 1 = g.ruleCount := by rw [← length_weights, hweights, List.length_singleton]
  -- the attempt after n draws sets the only weight to n + 1
  have hgrow (n : Nat) : grow ⟨g, n⟩ = .ok () ⟨g.replaceWeights [(n : Int) + 1], n + 1⟩ := by
    have hset : g.setWeights [(n : Int) + 1] true = .ok (g.replaceWeights [(n : Int) + 1]) :=
      setWeights_of_pos hcount fun w hw => by
        rw [List.mem_singleton.mp hw]
        omega
    refine (attempt_bind_eq rfl _).trans ?_
    simp [change, hset]
  have haccepts (population : Int) (n : Nat) :
      (b population).accepts (g.replaceWeights [(n : Int) + 1]) = .ok ([(n : Int) + 1] == [3]) :=
    congrArg (fun weights => Except.ok (weights == [3])) (weights_replaceWeights hcount)
  have hrejected (population : Int) : Rejected (b population).accepts grow g 2 0 2 :=
    .more (hgrow 0) (haccepts _ 0) (.more (hgrow 1) (haccepts _ 1) (.none 2))
  have hkeeps : ∀ n s, grow ⟨g, n⟩ = .ok () s → s.grammar.skeleton = g.skeleton := by
    intro n s h
    cases (hgrow n).symm.trans h
    exact skeleton_replaceWeights hcount
  refine ⟨g, hg, ?_, ?_⟩
  · refine ((retry_leaves_nothing hcoherent hpositive hkeeps rfl "growth" 0).1 _ _ _).mpr (.inl ?_)
    exact ⟨2, 2, _, by decide, hrejected 3, hgrow 2, haccepts _ 2, rfl, rfl, rfl, rfl⟩
  · refine ((retry_leaves_nothing hcoherent hpositive hkeeps rfl "growth" 0).1 _ _ _).mpr (.inr ?_)
    exact ⟨hrejected 2, rfl, rfl, rfl⟩

end ProbeForge.Breeder
