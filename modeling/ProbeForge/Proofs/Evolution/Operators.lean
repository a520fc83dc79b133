import ProbeForge.Proofs.Evolution.Retries

/-!
# Operators on weights

Whatever an operator does, it leaves the prototype with other weights, none of them below one. A
change that is tried until it is accepted, and taken back otherwise, leaves accepted weights.
-/

namespace ProbeForge

namespace Grammar

variable {prototype g g' : Grammar}

/-! ### Genes -/

/-- The weights of a gene, as many as its nonterminal has rules. -/
structure IsGene (prototype : Grammar) (gene : Gene) : Prop where
  length : (prototype.group? gene.symbol).map (·.rules.length) = some gene.weights.length
  positive : ∀ w ∈ gene.weights, 1 ≤ w

theorem Fits.project (hp : prototype.Grouped) (h : prototype.Fits g) {symbol : Symbol}
    {gene : Gene} (hproject : g.project symbol = .ok gene) : prototype.IsGene gene := by
  obtain ⟨group, hgroup, rfl⟩ := project_ok.mp hproject
  have hrules := rules_of_skeleton h.skeleton symbol
  rw [hgroup, Option.map_some] at hrules
  obtain ⟨group', hgroup', hsame⟩ := Option.map_eq_some_iff.mp hrules.symm
  refine ⟨by simp [hgroup', hsame], fun w hw => ?_⟩
  obtain ⟨i, hi, rfl⟩ := List.mem_map.mp hw
  have hcoherent := h.coherent hp
  obtain ⟨entry, hentry, -⟩ := hcoherent.entry_of_mem (group?_mem hgroup).1 hi
  rw [weightAt_of_getElem? hentry]
  exact h.one_le_weight entry (Array.mem_of_getElem? hentry)

theorem Fits.updateGene (hp : prototype.Grouped) (h : prototype.Fits g) {gene : Gene}
    (hgene : prototype.IsGene gene) {fault : Option Fault}
    (hupdate : g.updateGene gene = (fault, g')) : fault = none ∧ prototype.Fits g' := by
  obtain ⟨symbol, values⟩ := gene
  -- the gene may be that of another candidate, but the group has as many rules under all weights
  obtain ⟨group, hgroup, hlength⟩ : ∃ group, g.group? symbol = some group ∧
      values.length = group.rules.length := by
    have hrules := congrArg (Option.map List.length) (rules_of_skeleton h.skeleton symbol)
    rw [Option.map_map, Option.map_map] at hrules
    obtain ⟨group, hgroup, hsame⟩ := Option.map_eq_some_iff.mp (hrules.trans hgene.length)
    exact ⟨group, hgroup, hsame.symm⟩
  have hsymbol := (group?_mem hgroup).2
  subst hsymbol
  rw [(h.coherent hp).updateGene_eq hgroup hlength] at hupdate
  cases hupdate
  refine ⟨rfl, h.replaceWeights (by rw [length_overwrite, length_weights]) fun w hw => ?_⟩
  exact (mem_overwrite hw).elim (h.positive w) (hgene.positive w)

end Grammar

namespace Breeder

open Tuning Grammar

variable {α : Type} {ρ : Type} {β : Type} {prototype : Grammar}

/-- What fits the prototype still fits it afterwards. -/
def Keeps (prototype : Grammar) (operator : Attempt (Tuning ρ) β) : Prop :=
  ∀ s b s', prototype.Fits s.grammar → operator s = .ok b s' → prototype.Fits s'.grammar

theorem Keeps.bind {x : Attempt (Tuning ρ) β} {γ : Type} {f : β → Attempt (Tuning ρ) γ}
    (hx : Keeps prototype x) (hf : ∀ b, Keeps prototype (f b)) : Keeps prototype (x >>= f) := by
  intro s c s' hs h
  obtain ⟨b, s₁, hb, h⟩ := attempt_bind_ok.mp h
  exact hf b s₁ c s' (hx s b s₁ hs hb) h

theorem keeps_current : Keeps prototype (current (ρ := ρ)) := by
  intro s g s' hs h
  cases h
  exact hs

theorem keeps_drawOrFail (f : ρ → Except Fault β × ρ) : Keeps prototype (drawOrFail f) := by
  intro s b s' hs h
  unfold drawOrFail at h
  split at h
  case h_1 =>
    cases h
    exact hs
  case h_2 => cases h

theorem keeps_draw (f : ρ → β × ρ) : Keeps prototype (Tuning.draw f) := by
  intro s b s' hs h
  cases h
  exact hs

theorem keeps_setWeights (weights : List Int) :
    Keeps prototype (change (ρ := ρ) (·.setWeights weights true)) := by
  intro s _ s' hs h
  unfold change at h
  split at h
  case h_1 g' hset =>
    cases h
    exact hs.setWeights hset
  case h_2 => cases h

theorem keeps_write (hp : prototype.Grouped) {gene : Gene} (hgene : prototype.IsGene gene) :
    Keeps prototype (write (ρ := ρ) gene) := by
  intro s _ s' hs h
  cases hupdate : s.grammar.updateGene gene with
  | mk fault g' =>
    obtain ⟨rfl, hfits⟩ := hs.updateGene hp hgene hupdate
    unfold write Attempt.on at h
    dsimp only at h
    rw [hupdate] at h
    cases h
    exact hfits

theorem keeps_forM {l : List β} {f : β → Attempt (Tuning ρ) Unit}
    (h : ∀ b ∈ l, Keeps prototype (f b)) : Keeps prototype (l.forM f) := fun _ _ _ hs hrun =>
  attempt_forM_ok (P := fun s => prototype.Fits s.grammar)
    (fun b hb s s' hs hstep => h b hb s () s' hs hstep) hs hrun

theorem drawOrFail_ok {f : ρ → Except Fault β × ρ} {s s' : Tuning ρ} {b : β}
    (h : drawOrFail f s = .ok b s') : (f s.source).1 = .ok b ∧ s'.grammar = s.grammar := by
  unfold drawOrFail at h
  split at h
  case h_1 hdrawn =>
    cases h
    exact ⟨congrArg Prod.fst hdrawn, rfl⟩
  case h_2 => cases h

/-! ### Mutations and crossovers -/

section Scalars

variable [Scalar α] [RandomSource ρ]

theorem perturb_ok {weight w : Int} {source : ρ} (h : (perturb α weight source).1 = .ok w) :
    1 ≤ w := by
  obtain ⟨_, -, rfl⟩ := map_ok.mp h
  exact Int.le_max_right _ _

theorem perturbAll_ok {weights perturbed : List Int} {source : ρ}
    (h : (perturbAll α weights source).1 = .ok perturbed) :
    perturbed.length = weights.length ∧ ∀ w ∈ perturbed, 1 ≤ w := by
  induction weights generalizing perturbed source with
  | nil =>
    cases h
    exact ⟨rfl, fun w hw => nomatch hw⟩
  | cons weight weights ih =>
    unfold perturbAll at h
    split at h
    case h_1 => cases h
    case h_2 w source' hw =>
      obtain ⟨rest, hrest, rfl⟩ := map_ok.mp h
      obtain ⟨hlength, hpositive⟩ := ih hrest
      exact ⟨congrArg (· + 1) hlength, List.forall_mem_cons.mpr
        ⟨perturb_ok (congrArg Prod.fst hw), hpositive⟩⟩

theorem keeps_mutateRuleWeights : Keeps prototype (mutateRuleWeights (ρ := ρ) α) :=
  keeps_current.bind fun _ => (keeps_drawOrFail _).bind fun _ =>
    (keeps_drawOrFail _).bind fun weights => keeps_setWeights weights

theorem keeps_mutateGene (hp : prototype.Grouped) (symbol : Symbol) :
    Keeps prototype (mutateGene (ρ := ρ) α symbol) := by
  intro s _ s' hs h
  obtain ⟨g, s₁, hcurrent, h⟩ := attempt_bind_ok.mp h
  cases hcurrent
  obtain ⟨gene, s₂, hlifted, h⟩ := attempt_bind_ok.mp h
  obtain ⟨hproject, rfl⟩ := attempt_lift_ok.mp hlifted
  obtain ⟨weights, s₃, hdrawn, h⟩ := attempt_bind_ok.mp h
  obtain ⟨hdrawn, hgrammar⟩ := drawOrFail_ok hdrawn
  obtain ⟨hlength, hpositive⟩ := perturbAll_ok hdrawn
  have hgene : prototype.IsGene { gene with weights } :=
    ⟨hlength ▸ (hs.project hp hproject).length, hpositive⟩
  exact keeps_write hp hgene s₃ () s' (hgrammar ▸ hs) h

theorem keeps_mutateNonterminals (hp : prototype.Grouped) :
    Keeps prototype (mutateNonterminals (ρ := ρ) α) :=
  keeps_current.bind fun _ => (keeps_drawOrFail _).bind fun _ =>
    keeps_forM fun symbol _ => keeps_mutateGene hp symbol

theorem keeps_crossRules (donor : Grammar) : Keeps prototype (crossRules (ρ := ρ) α donor) := by
  refine keeps_current.bind fun g => (keeps_drawOrFail _).bind fun length => ?_
  split
  · -- a stretch that does not fit into the vector is refused
    intro s _ s' _ h
    cases h
  · exact (keeps_draw _).bind fun start => keeps_setWeights _

theorem keeps_crossNonterminals (hp : prototype.Grouped) {donor : Grammar}
    (hdonor : prototype.Fits donor) :
    Keeps prototype (crossNonterminals (ρ := ρ) donor) := by
  refine keeps_current.bind fun g => (keeps_drawOrFail _).bind fun drawn =>
    keeps_forM fun symbol _ s _ s' hs h => ?_
  obtain ⟨gene, s₁, hlifted, h⟩ := attempt_bind_ok.mp h
  obtain ⟨hproject, rfl⟩ := attempt_lift_ok.mp hlifted
  exact keeps_write hp (hdonor.project hp hproject) s () s' hs h

/-! ### Accepted weights -/

/-- The weights fit the prototype and are accepted. -/
structure Viable (b : Breeder α) (g : Grammar) : Prop extends b.prototype.Fits g where
  accepted : b.accepts g = .ok true

variable {b : Breeder α}

omit [Scalar α] [RandomSource ρ] in
/-- Whether an attempt is accepted or all of them are taken back, the weights are accepted. -/
theorem viable_retry {operator : Attempt (Tuning ρ) Unit} (hkeeps : Keeps b.prototype operator)
    {label : String} {s s' : Tuning ρ} {outcome : Outcome} (hs : b.Viable s.grammar)
    (h : b.retry label operator s = .ok outcome s') : b.Viable s'.grammar := by
  have hback : Revocable operator s.grammar := fun source s₁ hran =>
    hs.toFits.setWeights_back (hkeeps ⟨s.grammar, source⟩ () s₁ hs.toFits hran)
  obtain ⟨n, accepted, -, htried, rfl⟩ := retry_ok.mp h
  rcases (tryFrom_ok_iff hback).mp htried with
    ⟨k, rest, -, -, hran, haccepted, -⟩ | ⟨rest, -, rfl, -⟩
  · exact ⟨hkeeps ⟨s.grammar, rest⟩ () s' hs.toFits hran, haccepted⟩
  · exact hs

theorem viable_mutate (hp : b.prototype.Grouped) {s s' : Tuning ρ} {outcome : Outcome}
    (hs : b.Viable s.grammar) (h : b.mutate s = .ok outcome s') : b.Viable s'.grammar := by
  unfold mutate mutationBy at h
  cases hmode : b.mutation with
  | rule =>
    rw [hmode] at h
    exact viable_retry keeps_mutateRuleWeights hs h
  | nonterminal =>
    rw [hmode] at h
    exact viable_retry (keeps_mutateNonterminals hp) hs h

theorem viable_crossing (hp : b.prototype.Grouped) {donor : Grammar}
    (hdonor : b.prototype.Fits donor) {s s' : Tuning ρ} {outcome : Outcome}
    (hs : b.Viable s.grammar) (h : b.crossing donor s = .ok outcome s') :
    b.Viable s'.grammar := by
  refine viable_retry ?_ hs h
  cases b.crossover with
  | rule => exact keeps_crossRules donor
  | nonterminal => exact keeps_crossNonterminals hp hdonor

end Scalars

end Breeder

end ProbeForge
