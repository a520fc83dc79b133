import ProbeForge.Proofs.Evolution.Crossovers

/-!
# Mutations

A mutation changes the weights of a few rules, or those of the rules of a few nonterminals. How few
they are depends on the candidate only: attempts that were rejected before do not add to them, and
neither does an attempt that is cut short by a fault.
-/

namespace ProbeForge

namespace Grammar

variable {g g' g'' : Grammar} {symbols : List Symbol}

/-- The weights of all rules of other nonterminals are the same. -/
def ChangesOnly (g : Grammar) (symbols : List Symbol) (g' : Grammar) : Prop :=
  ∀ (i : Nat) (entry : RuleEntry), g.table[i]? = some entry → entry.rule.left ∉ symbols →
    g'.weightAt i = g.weightAt i

/-- The rules whose weights are not the same. -/
def changedRules (g g' : Grammar) : Finset Nat :=
  (Finset.range g.ruleCount).filter fun i => g'.weightAt i ≠ g.weightAt i

/-- What an attempt to mutate that draws from a source changes: the weights of at most one rule in
twenty, but at least one, or those of one nonterminal in ten, rounded up, which are sampled. -/
def Mutates {ρ : Type} [RandomSource ρ] (g g' : Grammar) (source : ρ) : GeneMode → Prop
  | .rule => (g.changedRules g').card ≤ max 1 (g.ruleCount / 20)
  | .nonterminal => ∃ drawn,
      (RandomSource.sample g.nonterminals (g.nonterminalCount ⌈/⌉ 10) source).1 = .ok drawn ∧
        drawn.Nodup ∧ drawn.length = g.nonterminalCount ⌈/⌉ 10 ∧ g.ChangesOnly drawn g'

theorem changesOnly_self (g : Grammar) (symbols : List Symbol) : g.ChangesOnly symbols g :=
  fun _ _ _ _ => rfl

theorem card_changedRules_le {places : List Nat}
    (h : ∀ i, i ∉ places → g'.weightAt i = g.weightAt i) :
    (g.changedRules g').card ≤ places.length := by
  have hsub : g.changedRules g' ⊆ places.toFinset := fun i hi =>
    List.mem_toFinset.mpr (not_imp_comm.mp (h i) (Finset.mem_filter.mp hi).2)
  exact (Finset.card_le_card hsub).trans (List.toFinset_card_le places)

end Grammar

namespace Breeder

open Tuning Grammar

variable {α ρ : Type} [Scalar α] [RandomSource ρ] {prototype g : Grammar} {b : Breeder α}

theorem nonterminalMutations_eq (n : Nat) : nonterminalMutations n = n ⌈/⌉ 10 :=
  (Nat.ceilDiv_eq_add_pred_div n 10).symm

theorem nonterminalMutations_le (n : Nat) : nonterminalMutations n ≤ n := by
  unfold nonterminalMutations
  omega

/-! ### Perturbed weights -/

section Perturbed

variable {weights perturbed : List Int} {places : List Nat} {source : ρ} {fault : Fault}

theorem perturbAt_ok (h : (perturbAt α places weights source).1 = .ok perturbed)
    (hpositive : ∀ w ∈ weights, 1 ≤ w) :
    perturbed.length = weights.length ∧ (∀ w ∈ perturbed, 1 ≤ w) ∧
      ∀ i, i ∉ places → perturbed[i]? = weights[i]? := by
  induction places generalizing weights source with
  | nil =>
    cases h
    exact ⟨rfl, hpositive, fun _ _ => rfl⟩
  | cons place places ih =>
    unfold perturbAt at h
    split at h
    case h_1 => cases h
    case h_2 weight source' hweight =>
      have hone : 1 ≤ weight := perturb_ok (congrArg Prod.fst hweight)
      obtain ⟨hlength, hall, hsame⟩ := ih h fun w hw =>
        (List.mem_or_eq_of_mem_set hw).elim (hpositive w) (fun heq => heq ▸ hone)
      refine ⟨hlength.trans List.length_set, hall, fun i hi => ?_⟩
      obtain ⟨hne, hrest⟩ := not_or.mp (mt List.mem_cons.mpr hi)
      rw [hsame i hrest, List.getElem?_set_ne (Ne.symm hne)]

theorem perturbAt_error (h : (perturbAt α places weights source).1 = .error fault)
    (hpositive : ∀ w ∈ weights, 1 ≤ w) (hplaces : ∀ i ∈ places, i < weights.length) :
    b.Setback ρ prototype fault := by
  induction places generalizing weights source with
  | nil => cases h
  | cons place places ih =>
    obtain ⟨hfirst, hrest⟩ := List.forall_mem_cons.mp hplaces
    unfold perturbAt at h
    split at h
    case h_1 fault' source' hfault =>
      cases h
      rw [List.getD_eq_getElem _ _ hfirst] at hfault
      exact .noise (hpositive _ (List.getElem_mem hfirst)) (congrArg Prod.fst hfault)
    case h_2 weight source' hweight =>
      have hone : 1 ≤ weight := perturb_ok (congrArg Prod.fst hweight)
      refine ih h (fun w hw => ?_) fun i hi => ?_
      · exact (List.mem_or_eq_of_mem_set hw).elim (hpositive w) (fun heq => heq ▸ hone)
      · rw [List.length_set]
        exact hrest i hi

theorem perturbAll_error (h : (perturbAll α weights source).1 = .error fault)
    (hpositive : ∀ w ∈ weights, 1 ≤ w) : b.Setback ρ prototype fault := by
  induction weights generalizing source with
  | nil => cases h
  | cons weight weights ih =>
    obtain ⟨hone, hrest⟩ := List.forall_mem_cons.mp hpositive
    unfold perturbAll at h
    split at h
    case h_1 fault' source' hfault =>
      cases h
      exact .noise hone (congrArg Prod.fst hfault)
    case h_2 w source' hw =>
      exact ih (map_error.mp h) hrest

end Perturbed

/-! ### Operators -/

/-- What a mutation tries. -/
def mutator (α : Type) [Scalar α] : GeneMode → Attempt (Tuning ρ) Unit
  | .rule => mutateRuleWeights α
  | .nonterminal => mutateNonterminals α

theorem mutationBy_eq (b : Breeder α) (mode : GeneMode) :
    ∃ label, b.mutationBy (ρ := ρ) mode = b.retry label (mutator α mode) := by
  cases mode <;> exact ⟨_, rfl⟩

theorem weightAt_replaceWeights_of_eq {weights : List Int} (hlength : weights.length = g.ruleCount)
    {i : Nat} (h : weights[i]? = g.weights[i]?) :
    (g.replaceWeights weights).weightAt i = g.weightAt i := by
  rw [weightAt_eq, weightAt_eq, weights_replaceWeights hlength, List.getD_eq_getElem?_getD,
    List.getD_eq_getElem?_getD, h]

theorem changesOnly_replaceWeights {weights : List Int} {symbols : List Symbol}
    (hlength : weights.length = g.ruleCount)
    (h : ∀ (i : Nat) (entry : RuleEntry), g.table[i]? = some entry → entry.rule.left ∉ symbols →
      weights[i]? = g.weights[i]?) : g.ChangesOnly symbols (g.replaceWeights weights) :=
  fun i entry hentry hleft => weightAt_replaceWeights_of_eq hlength (h i entry hentry hleft)

theorem mutateRuleWeights_ends (hg : g.Fits g) (source : ρ) :
    Ends (fun fault s => s.grammar = g ∧ (0 < g.ruleCount → b.Setback ρ g fault))
      (fun _ s => g.Fits s.grammar ∧ g.Mutates s.grammar source .rule)
      (mutateRuleWeights α) ⟨g, source⟩ := by
  have hcount := g.length_weights
  unfold mutateRuleWeights
  refine ends_current_bind ?_
  dsimp only
  rw [hcount]
  refine ends_drawOrFail_bind (fun fault _ hfault => ⟨rfl, fun hrules => ?_⟩)
    fun places rest hdrawn => ?_
  · -- one in twenty of some rules are not more than there are
    have hle : ruleMutations g.ruleCount ≤ (List.range g.ruleCount).length := by
      rw [List.length_range, ruleMutations]
      omega
    obtain ⟨places, hplaces⟩ := RandomSource.exists_sample hle source
    rw [hplaces] at hfault
    cases hfault
  obtain ⟨hmany, hsub⟩ := RandomSource.sample_ok hdrawn
  have hplaces : ∀ i ∈ places, i < g.weights.length := fun i hi =>
    hcount ▸ List.mem_range.mp (hsub.subset hi)
  refine ends_drawOrFail_bind (fun fault _ hfault =>
    ⟨rfl, fun _ => perturbAt_error hfault hg.positive hplaces⟩) fun weights _ hweights => ?_
  obtain ⟨hlength, hpositive, hsame⟩ := perturbAt_ok hweights hg.positive
  replace hlength := hlength.trans hcount
  refine ends_setWeights hlength hpositive ⟨fits_replaceWeights hlength hpositive, ?_⟩
  have hrest : ∀ i, i ∉ places → (g.replaceWeights weights).weightAt i = g.weightAt i :=
    fun i hi => weightAt_replaceWeights_of_eq hlength (hsame i hi)
  exact (card_changedRules_le hrest).trans hmany.le

theorem mutateGene_ends (hp : prototype.Grouped) (hg : prototype.Fits g) {symbol : Symbol}
    (hsymbol : symbol ∈ prototype.nonterminals) (source : ρ) :
    Ends (fun fault s => s.grammar = g ∧ b.Setback ρ prototype fault)
      (fun _ s => prototype.Fits s.grammar ∧ g.ChangesOnly [symbol] s.grammar)
      (mutateGene α symbol) ⟨g, source⟩ := by
  have hcoherent := hg.coherent hp
  obtain ⟨group, hgroup⟩ : ∃ group, g.group? symbol = some group := by
    rw [← hg.nonterminals_eq, mem_nonterminals] at hsymbol
    exact Option.isSome_iff_exists.mp hsymbol
  obtain ⟨hmem, rfl⟩ := group?_mem hgroup
  have hproject := project_ok.mpr ⟨group, hgroup, rfl⟩
  unfold mutateGene
  refine ends_current_bind (ends_bind_of_ok (attempt_lift_eq hproject) ?_)
  have hgene := hg.project hp hproject
  refine ends_drawOrFail_bind (fun fault _ hfault =>
    ⟨rfl, perturbAll_error hfault hgene.positive⟩) fun weights rest hweights => ?_
  obtain ⟨hlength, hpositive⟩ := perturbAll_ok hweights
  replace hlength := hlength.trans (List.length_map _)
  have hwritten : (overwrite group.rules weights g.weights).length = g.ruleCount := by
    rw [length_overwrite, length_weights]
  refine ends_of_ok (write_eq (hcoherent.updateGene_eq hgroup hlength) rest) ⟨?_, ?_⟩
  · exact hg.replaceWeights hwritten fun w hw =>
      (mem_overwrite hw).elim (hg.positive w) (hpositive w)
  · refine changesOnly_replaceWeights hwritten fun i entry hentry hleft => ?_
    refine getElem?_overwrite (fun hi => hleft ?_) _ _
    rw [hcoherent.grouped.mem_rules_iff hmem, hentry] at hi
    simpa using hi

theorem mutates_of_sample (hp : g.Grouped) {g' : Grammar} {drawn : List Symbol} {source : ρ}
    (hdrawn : (RandomSource.sample g.nonterminals (nonterminalMutations g.nonterminals.length)
      source).1 = .ok drawn) (h : g.ChangesOnly drawn g') : g.Mutates g' source .nonterminal := by
  have hnodup := RandomSource.nodup_sample hdrawn hp.nodup_nonterminals
  have hlength := (RandomSource.sample_ok hdrawn).1
  rw [length_nonterminals, nonterminalMutations_eq] at hdrawn hlength
  exact ⟨drawn, hdrawn, hnodup, hlength, h⟩

/-- Nothing changed is within what a mutation may change. -/
theorem mutates_self (hp : g.Grouped) (source : ρ) (mode : GeneMode) :
    g.Mutates g source mode := by
  cases mode with
  | rule =>
    have hnone : (g.changedRules g).card ≤ ([] : List Nat).length :=
      card_changedRules_le fun _ _ => rfl
    exact hnone.trans (Nat.zero_le _)
  | nonterminal =>
    obtain ⟨drawn, hdrawn⟩ :=
      RandomSource.exists_sample (nonterminalMutations_le g.nonterminals.length) source
    exact mutates_of_sample hp hdrawn (g.changesOnly_self drawn)

theorem mutateNonterminals_ends (hp : g.Grouped) (hg : g.Fits g) (source : ρ) :
    Ends (fun fault s => (g.Fits s.grammar ∧ g.Mutates s.grammar source .nonterminal) ∧
        b.Setback ρ g fault)
      (fun _ s => g.Fits s.grammar ∧ g.Mutates s.grammar source .nonterminal)
      (mutateNonterminals α) ⟨g, source⟩ := by
  unfold mutateNonterminals
  refine ends_current_bind (ends_sample_bind (nonterminalMutations_le _)
    fun drawn rest hdrawn => ?_)
  have hsub := (RandomSource.sample_ok hdrawn).2
  -- genes that are done stay done
  have hloop := ends_forM (P := fun fault s => (g.Fits s.grammar ∧
      g.Mutates s.grammar source .nonterminal) ∧ b.Setback ρ g fault)
    (I := fun s : Tuning ρ => g.Fits s.grammar ∧ g.ChangesOnly drawn s.grammar)
    (f := mutateGene α) (l := drawn) (s := ⟨g, rest⟩) (fun symbol hsymbol s hs => ?_)
    ⟨hg, g.changesOnly_self drawn⟩
  · exact hloop.also fun _ s _ h => ⟨h.1, mutates_of_sample hp hdrawn h.2⟩
  · obtain ⟨hfits, honly⟩ := hs
    refine (mutateGene_ends (b := b) hp hfits (hsub.subset hsymbol) s.source).mono ?_ ?_
    · rintro fault s' ⟨hsame, hsetback⟩
      rw [hsame]
      exact ⟨⟨hfits, mutates_of_sample hp hdrawn honly⟩, hsetback⟩
    · rintro _ s' - ⟨hfits', honly'⟩
      refine ⟨hfits', fun i entry hentry hleft => ?_⟩
      obtain ⟨weight, hsame⟩ := hfits.exists_entry hentry
      refine (honly' i _ hsame fun hmem => hleft ?_).trans (honly i entry hentry hleft)
      exact List.mem_singleton.mp hmem ▸ hsymbol

theorem mutator_ends (hp : g.Grouped) (hg : g.Fits g) (mode : GeneMode) (source : ρ) :
    Ends (fun fault s => (g.Fits s.grammar ∧ g.Mutates s.grammar source mode) ∧
        ((mode = .rule → 0 < g.ruleCount) → b.Setback ρ g fault))
      (fun _ s => g.Fits s.grammar ∧ g.Mutates s.grammar source mode)
      (mutator α mode) ⟨g, source⟩ := by
  cases mode with
  | rule =>
    refine (mutateRuleWeights_ends (b := b) hg source).mono ?_ fun _ s _ h => h
    rintro fault s ⟨hsame, hsetback⟩
    rw [hsame]
    exact ⟨⟨hg, mutates_self hp source .rule⟩, fun hrules => hsetback (hrules rfl)⟩
  | nonterminal =>
    exact (mutateNonterminals_ends hp hg source).mono (fun fault s h => ⟨h.1, fun _ => h.2⟩)
      fun _ s _ h => h

/-! ### Candidates -/

/-- The changes of a mutation are those of its last attempt. -/
theorem mutationBy_ends (hp : g.Grouped) (hg : g.Fits g) (mode : GeneMode) (source : ρ) :
    Ends (fun fault s => (g.Fits s.grammar ∧ ∃ last : ρ, g.Mutates s.grammar last mode) ∧
        ((mode = .rule → 0 < g.ruleCount) → b.Setback ρ g fault))
      (fun outcome s => (g.Fits s.grammar ∧ ∃ last : ρ, g.Mutates s.grammar last mode ∧
        ∀ k, outcome.accepted = some k → ∃ before, k = before + 1 ∧
          Rejected b.accepts (mutator α mode) g before source last ∧
          mutator α mode ⟨g, last⟩ = .ok () s ∧ b.accepts s.grammar = .ok true) ∧
        (outcome.accepted = none → s.grammar = g))
      (b.mutationBy mode) ⟨g, source⟩ := by
  obtain ⟨label, hretry⟩ := b.mutationBy_eq (ρ := ρ) mode
  rw [hretry]
  have hoperator (source : ρ) := mutator_ends (b := b) hp hg mode source
  have hback : Revocable (mutator α mode) g := fun source s hran =>
    hg.setWeights_back ((hoperator source).ok hran).1
  -- a mutation that ends before an attempt has changed nothing
  have hself (source : ρ) : g.Fits g ∧ ∃ last : ρ, g.Mutates g last mode :=
    ⟨hg, source, mutates_self hp source mode⟩
  refine (retry_ends hback label source (fun fault hfault => ⟨hself source, fun _ =>
    .attempts hfault⟩) fun source => ?_).also fun outcome s _ htried => ?_
  · refine (hoperator source).mono (fun fault s h => ⟨⟨h.1.1, source, h.1.2⟩, h.2⟩) ?_
    exact fun _ s _ h fault hfault => ⟨⟨h.1, source, h.2⟩, fun _ => .undecided h.1 hfault⟩
  · refine ⟨?_, htried.unchanged⟩
    cases haccepted : outcome.accepted with
    | none =>
      rw [htried.unchanged haccepted]
      exact ⟨hg, source, mutates_self hp source mode, fun k hk => nomatch hk⟩
    | some k =>
      obtain ⟨before, last, hk, hrejected, hran, hyes⟩ := htried.changed k haccepted
      obtain ⟨hfits, hmutates⟩ := (hoperator last).ok hran
      refine ⟨hfits, last, hmutates, fun k' hk' => ?_⟩
      cases hk'
      exact ⟨before, hk, hrejected, hran, hyes⟩

/-- However a mutation of a candidate comes to an end, the candidate is what it was but for weights,
none of them below one, with all totals in step, and its weights differ from those it had as those
of a single attempt do. That is the attempt that was accepted, if one was; if all were rejected,
nothing differs. -/
theorem mutate_local {c : Candidate α} (hcoherent : c.grammar.Coherent)
    (hpositive : ∀ w ∈ c.weights, 1 ≤ w) (b : Breeder α) (mode : GeneMode) (source : ρ) :
    ∀ result c' rest, tune c (b.mutationBy mode) source = (result, c', rest) →
      c' = { c with grammar := c.grammar.replaceWeights c'.weights } ∧
      c'.weights.length = c.weights.length ∧ (∀ w ∈ c'.weights, 1 ≤ w) ∧
      (∀ group ∈ c'.grammar.groups, group.total = c'.grammar.weightSum group.rules) ∧
      (∃ last : ρ, c.grammar.Mutates c'.grammar last mode ∧
        ∀ outcome k, result = .ok outcome → outcome.accepted = some k →
          ∃ before, k = before + 1 ∧
            Rejected b.accepts (mutator α mode) c.grammar before source last ∧
            mutator α mode ⟨c.grammar, last⟩ = .ok () ⟨c'.grammar, rest⟩ ∧
            b.accepts c'.grammar = .ok true) ∧
      (∀ outcome, result = .ok outcome → outcome.accepted = none → c' = c) ∧
      ∀ fault, result = .error fault → (mode = .rule → c.weights ≠ []) →
        b.Setback ρ c.grammar fault := by
  have hfits := Fits.self hcoherent hpositive
  have hends := mutationBy_ends (b := b) hcoherent.grouped hfits mode source
  intro result c' rest htune
  unfold tune at htune
  have hcandidate {g' : Grammar} (h : c.grammar.Fits g') :
      ({ c with grammar := g' } : Candidate α) =
          { c with grammar := c.grammar.replaceWeights g'.weights } ∧
        g'.weights.length = c.weights.length ∧ (∀ w ∈ g'.weights, 1 ≤ w) ∧
        ∀ group ∈ g'.groups, group.total = g'.weightSum group.rules :=
    ⟨by rw [h.same], h.length.trans c.grammar.length_weights.symm, h.positive,
      (h.coherent hcoherent.grouped).total⟩
  cases hrun : b.mutationBy mode (⟨c.grammar, source⟩ : Tuning ρ) with
  | ok outcome s =>
    rw [hrun] at htune
    cases htune
    obtain ⟨⟨hfits', last, hmutates, haccepted⟩, hunchanged⟩ := hends.ok hrun
    obtain ⟨hsame, hlength, hpositive', htotals⟩ := hcandidate hfits'
    refine ⟨hsame, hlength, hpositive', htotals, ⟨last, hmutates, ?_⟩, ?_, ?_⟩
    · rintro _ k ⟨⟩ hk
      exact haccepted k hk
    · rintro _ ⟨⟩ hnone
      rw [hunchanged hnone]
    · exact fun fault hfault => nomatch hfault
  | error fault s =>
    rw [hrun] at htune
    cases htune
    -- a fault leaves what its attempt has changed so far
    obtain ⟨⟨hfits', last, hmutates⟩, hsetback⟩ := hends.fault hrun
    obtain ⟨hsame, hlength, hpositive', htotals⟩ := hcandidate hfits'
    refine ⟨hsame, hlength, hpositive', htotals, ⟨last, hmutates, ?_⟩, ?_, ?_⟩
    · exact fun outcome k hresult => nomatch hresult
    · exact fun outcome hresult => nomatch hresult
    · rintro _ ⟨⟩ hrules
      refine hsetback fun hmode => ?_
      rw [← c.grammar.length_weights]
      exact List.length_pos_iff.mpr (hrules hmode)

open Tournament (Tenths Turns)

/-- Mutations in which the second rule has to gain weight. -/
def ascending : Breeder Tenths :=
  { pairing .nonterminal 2 with accepts := fun g => .ok (20 < g.weights.getD 1 0) }

/-- What the first attempt did to the first nonterminal is gone after the second. -/
theorem mutate_local_quartet :
    let c : Candidate Tenths := .fresh 1 (quartet.replaceWeights [10, 20, 30, 40]) []
    ∃ c', tune c (ascending.mutationBy .nonterminal) (⟨0⟩ : Turns) =
        (.ok ⟨some 2, "nonterminal mutation"⟩, c', ⟨2⟩) ∧ c'.weights = [10, 22, 30, 44] ∧
      ∃ last : Turns, c.grammar.Mutates c'.grammar last .nonterminal ∧
        Rejected ascending.accepts (mutator Tenths .nonterminal) c.grammar 1 ⟨0⟩ last := by
  intro c
  have hrun : tune c (ascending.mutationBy .nonterminal) (⟨0⟩ : Turns) =
      (.ok ⟨some 2, "nonterminal mutation"⟩,
        { c with grammar := quartet.replaceWeights [10, 22, 30, 44] }, ⟨2⟩) := by
    cbv
  have hcoherent : c.grammar.Coherent := grouped_quartet.replaceWeights rfl
  have hpositive : ∀ w ∈ c.weights, 1 ≤ w := by decide
  have hlocal := mutate_local hcoherent hpositive ascending .nonterminal (⟨0⟩ : Turns) _ _ _ hrun
  obtain ⟨last, hmutates, haccepted⟩ := hlocal.2.2.2.2.1
  obtain ⟨before, hbefore, hrejected, -⟩ := haccepted _ 2 rfl rfl
  cases hbefore
  exact ⟨_, hrun, rfl, last, hmutates, hrejected⟩

end Breeder

end ProbeForge
