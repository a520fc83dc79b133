import Mathlib
import ProbeForge.Proofs.Grammar.Selection

/-!
# Genes

The weights of one nonterminal are a part of a grammar that can be read and written on its own. A
grammar takes such parts from a donor, which has the same rules and weights of its own: what it
takes is the donor's, what it does not take is as before, and neither the order nor repetitions
matter.
-/

namespace ProbeForge

namespace Grammar

variable {g donor : Grammar} {weights : List Int} {symbols : List Symbol}

/-! ### Mixed weights -/

/-- The weights of a grammar, where the rules of some nonterminals have those of another vector. -/
def mixed (g : Grammar) (weights : List Int) (symbols : List Symbol) : List Int :=
  g.table.toList.zipWith
    (fun entry weight => if entry.rule.left ∈ symbols then weight else entry.weight) weights

theorem getElem?_mixed (g : Grammar) (weights : List Int) (symbols : List Symbol) (i : Nat) :
    (g.mixed weights symbols)[i]? = g.table[i]?.bind fun entry => weights[i]?.map fun weight =>
      if entry.rule.left ∈ symbols then weight else entry.weight := by
  simp only [mixed, List.getElem?_zipWith, Array.getElem?_toList]
  cases g.table[i]? <;> cases weights[i]? <;> rfl

theorem length_mixed (h : weights.length = g.ruleCount) (symbols : List Symbol) :
    (g.mixed weights symbols).length = g.ruleCount := by
  simp [mixed, h, ruleCount]

theorem mem_mixed {w : Int} (h : w ∈ g.mixed weights symbols) : w ∈ g.weights ∨ w ∈ weights := by
  obtain ⟨i, hi⟩ := List.getElem?_of_mem h
  rw [getElem?_mixed] at hi
  obtain ⟨entry, hentry, hi⟩ := Option.bind_eq_some_iff.mp hi
  obtain ⟨weight, hweight, rfl⟩ := Option.map_eq_some_iff.mp hi
  split
  · exact .inr (List.mem_of_getElem? hweight)
  · exact .inl (List.mem_of_getElem? (i := i) (by rw [getElem?_weights, hentry]; rfl))

/-- The vector has an entry where the table has one. -/
theorem lt_length_of_entry (h : weights.length = g.ruleCount) {i : Nat} {entry : RuleEntry}
    (hi : g.table[i]? = some entry) : i < weights.length :=
  h ▸ (Array.getElem?_eq_some_iff.mp hi).1

theorem mixed_nil (h : weights.length = g.ruleCount) : g.mixed weights [] = g.weights := by
  apply List.ext_getElem?
  intro i
  rw [getElem?_mixed, getElem?_weights]
  cases hi : g.table[i]? with
  | none => rfl
  | some entry => simp [List.getElem?_eq_getElem (lt_length_of_entry h hi)]

theorem mixed_self (g : Grammar) (symbols : List Symbol) :
    g.mixed g.weights symbols = g.weights := by
  apply List.ext_getElem?
  intro i
  rw [getElem?_mixed, getElem?_weights]
  cases g.table[i]? <;> simp

/-- Mixing twice with one vector is mixing once. -/
theorem mixed_mixed (h : weights.length = g.ruleCount) (symbols symbols' : List Symbol) :
    (g.replaceWeights (g.mixed weights symbols)).mixed weights symbols' =
      g.mixed weights (symbols ++ symbols') := by
  apply List.ext_getElem?
  intro i
  simp only [getElem?_mixed, table_replaceWeights, getElem?_reweighed]
  cases hi : g.table[i]? with
  | none => rfl
  | some entry =>
    have hlt := lt_length_of_entry h hi
    -- a place that was taken before holds the weight that it would take now
    by_cases hleft : entry.rule.left ∈ symbols <;> simp [List.getElem?_eq_getElem hlt, hleft]

theorem mixed_all (hg : g.Grouped) (h : weights.length = g.ruleCount)
    (hall : ∀ symbol ∈ g.nonterminals, symbol ∈ symbols) : g.mixed weights symbols = weights := by
  apply List.ext_getElem?
  intro i
  rw [getElem?_mixed]
  cases hi : g.table[i]? with
  | none =>
    have hle : weights.length ≤ i := h ▸ Array.getElem?_eq_none_iff.mp hi
    simp [List.getElem?_eq_none hle]
  | some entry =>
    obtain ⟨group, hgroup, hsymbol⟩ := hg.owned entry (Array.mem_of_getElem? hi)
    have hleft : entry.rule.left ∈ g.nonterminals :=
      List.mem_map.mpr ⟨group, Array.mem_toList_iff.mpr hgroup, hsymbol⟩
    simp [hall _ hleft]

/-! ### Donors -/

theorem length_weights_of_skeleton (hdonor : donor.skeleton = g.skeleton) :
    donor.weights.length = g.ruleCount := by
  rw [length_weights, ruleCount_of_skeleton hdonor]

theorem weightAt_mixed (hdonor : donor.skeleton = g.skeleton) (symbols : List Symbol) {i : Nat}
    {entry : RuleEntry} (hi : g.table[i]? = some entry) :
    (g.replaceWeights (g.mixed donor.weights symbols)).weightAt i =
      if entry.rule.left ∈ symbols then donor.weightAt i else g.weightAt i := by
  have hlength := length_weights_of_skeleton hdonor
  have hlt := lt_length_of_entry hlength hi
  rw [weightAt_eq, weights_replaceWeights (length_mixed hlength symbols), weightAt_eq_getElem hlt,
    weightAt_of_getElem? hi]
  simp [List.getD_eq_getElem?_getD, getElem?_mixed, hi, List.getElem?_eq_getElem hlt]

/-- The rules of a group take the weights that they have in a donor. -/
theorem Grouped.overwrite_eq_mixed (hg : g.Grouped) (hdonor : donor.skeleton = g.skeleton)
    {group : RuleGroup} (hgroup : group ∈ g.groups) :
    overwrite group.rules (group.rules.map donor.weightAt) g.weights =
      g.mixed donor.weights [group.symbol] := by
  apply List.ext_getElem?
  intro i
  rw [getElem?_mixed]
  cases hi : g.table[i]? with
  | none =>
    have hle : g.weights.length ≤ i := g.length_weights ▸ Array.getElem?_eq_none_iff.mp hi
    simp [length_overwrite, hle]
  | some entry =>
    have hlt := lt_length_of_entry (length_weights_of_skeleton hdonor) hi
    have hmem : i ∈ group.rules ↔ entry.rule.left = group.symbol := by
      simp [hg.mem_rules_iff hgroup, hi]
    by_cases hleft : entry.rule.left = group.symbol
    · obtain ⟨k, hk⟩ := List.getElem?_of_mem (hmem.mpr hleft)
      rw [getElem?_overwrite_of_getElem? (hg.nodup_rules hgroup) hk, getElem?_weights, hi]
      simp [hleft, hk, List.getD_eq_getElem?_getD, List.getElem?_eq_getElem hlt,
        weightAt_eq_getElem hlt]
    · rw [getElem?_overwrite (mt hmem.mp hleft), getElem?_weights, hi]
      simp [hleft, List.getElem?_eq_getElem hlt]

theorem Coherent.update_project (hg : g.Coherent) (hdonor : donor.skeleton = g.skeleton)
    {symbol : Symbol} (hsymbol : g.isNonterminal symbol = true) :
    ∃ gene, donor.project symbol = .ok gene ∧
      g.updateGene gene = (none, g.replaceWeights (g.mixed donor.weights [symbol])) := by
  obtain ⟨group, hgroup⟩ := Option.isSome_iff_exists.mp hsymbol
  obtain ⟨hmem, rfl⟩ := group?_mem hgroup
  -- the donor lists the same rules for the nonterminal
  have hrules := rules_of_skeleton hdonor group.symbol
  rw [hgroup, Option.map_some] at hrules
  obtain ⟨group', hgroup', hsame⟩ := Option.map_eq_some_iff.mp hrules
  refine ⟨_, project_ok.mpr ⟨group', hgroup', rfl⟩, ?_⟩
  rw [hsame, hg.updateGene_eq hgroup (List.length_map _), hg.grouped.overwrite_eq_mixed hdonor hmem]

end Grammar

namespace Tuning

open Grammar

variable {g donor : Grammar} {symbols : List Symbol} {σ : Type}

/-! ### Transfers -/

/-- Takes the genes of some nonterminals from a donor, one after another. -/
def transfer (donor : Grammar) (symbols : List Symbol) : Attempt (Tuning σ) Unit :=
  symbols.forM fun symbol => do write (← donor.project symbol)

theorem write_eq {gene : Gene} {g' : Grammar} (h : g.updateGene gene = (none, g')) (source : σ) :
    write gene ⟨g, source⟩ = .ok () ⟨g', source⟩ := by
  simp [write, Attempt.on, h, Attempt.settle]

theorem transfer_eq (hg : g.Coherent) (hdonor : donor.skeleton = g.skeleton)
    (hsymbols : ∀ symbol ∈ symbols, g.isNonterminal symbol = true) (source : σ) :
    transfer donor symbols ⟨g, source⟩ =
      .ok () ⟨g.replaceWeights (g.mixed donor.weights symbols), source⟩ := by
  have hlength := length_weights_of_skeleton hdonor
  induction symbols generalizing g with
  | nil =>
    rw [mixed_nil hlength, hg.replaceWeights_self]
    rfl
  | cons symbol symbols ih =>
    obtain ⟨hfirst, hrest⟩ := List.forall_mem_cons.mp hsymbols
    obtain ⟨gene, hproject, hupdate⟩ := hg.update_project hdonor hfirst
    have hmixed := length_mixed hlength [symbol]
    have hskeleton := skeleton_replaceWeights hmixed
    have hstep : (do write (← donor.project symbol) : Attempt (Tuning σ) Unit) ⟨g, source⟩ =
        .ok () ⟨g.replaceWeights (g.mixed donor.weights [symbol]), source⟩ :=
      (attempt_bind_eq (attempt_lift_eq hproject) _).trans (write_eq hupdate source)
    -- the grammar after the first transfer has the donor's rules as well
    have htail := ih (hg.grouped.replaceWeights hmixed) (hdonor.trans hskeleton.symm)
      (fun s hs => (isNonterminal_of_skeleton hskeleton s).trans (hrest s hs))
      (hlength.trans (ruleCount_of_skeleton hskeleton).symm)
    rw [replaceWeights_replaceWeights hmixed, mixed_mixed hlength] at htail
    exact (attempt_bind_eq hstep _).trans htail

/-- Genes are independent parts of a grammar. After a transfer the nonterminals that were asked for
have the donor's weights and all others their own, with every total in step; all genes together are
the whole vector; and a gene or a vector that is written back where it was read changes nothing. -/
theorem transfer_mixes {α ρ : Type} [Scalar α] [RandomSource ρ] {gauge : (n : Nat) → Gauge α n}
    (hg : Reached ρ gauge g) (hdonor : donor.skeleton = g.skeleton) :
    (∀ (symbols : List Symbol) (source : σ),
        (∀ symbol ∈ symbols, g.isNonterminal symbol = true) →
        ∃ g', transfer donor symbols ⟨g, source⟩ = .ok () ⟨g', source⟩ ∧
          g'.skeleton = g.skeleton ∧
          (∀ (i : Nat) (entry : RuleEntry), g.table[i]? = some entry →
            g'.weightAt i =
              if entry.rule.left ∈ symbols then donor.weightAt i else g.weightAt i) ∧
          (∀ group ∈ g'.groups, group.total = g'.weightSum group.rules) ∧
          ((∀ symbol ∈ g.nonterminals, symbol ∈ symbols) → g'.weights = donor.weights)) ∧
      (∀ symbol, g.isNonterminal symbol = true →
        ∃ gene, g.project symbol = .ok gene ∧ g.updateGene gene = (none, g)) ∧
      ∀ requirePositive, (requirePositive = true → ∀ w ∈ g.weights, 1 ≤ w) →
        g.setWeights g.weights requirePositive = .ok g := by
  have hcoherent := hg.orderly.coherent
  have hlength := length_weights_of_skeleton hdonor
  refine ⟨?_, ?_, ?_⟩
  · intro symbols source hsymbols
    have hmixed := length_mixed hlength symbols
    refine ⟨_, transfer_eq hcoherent hdonor hsymbols source, skeleton_replaceWeights hmixed,
      fun i entry => weightAt_mixed hdonor symbols,
      (hcoherent.grouped.replaceWeights hmixed).total, ?_⟩
    intro hall
    rw [weights_replaceWeights hmixed, mixed_all hcoherent.grouped hlength hall]
  · intro symbol hsymbol
    obtain ⟨gene, hproject, hupdate⟩ := hcoherent.update_project rfl hsymbol
    refine ⟨gene, hproject, ?_⟩
    rw [hupdate, mixed_self, hcoherent.replaceWeights_self]
  · intro requirePositive hpositive
    rw [setWeights_eq g.length_weights hpositive, hcoherent.replaceWeights_self]

/-- Two nonterminals whose rules alternate in the table. -/
def woven : Grammar :=
  let rule (left right : String) (weight : Int) : Call ℚ MersenneTwister :=
    .addRule ⟨⟨left⟩, [⟨right⟩]⟩ weight .null .null
  let calls := [rule "S" "a" 1, rule "T" "b" 2, rule "S" "T" 3, rule "T" "d" 4]
  calls.foldl (Call.apply fun _ => .standard) (.empty .null)

/-- The later nonterminal is taken twice, with negative weights, and the other one left alone. -/
theorem transfer_mixes_woven :
    let donor := woven.replaceWeights [10, -20, 30, -40]
    ∃ g', Reached MersenneTwister (fun _ => (.standard : Gauge ℚ _)) woven ∧
      donor.skeleton = woven.skeleton ∧
      transfer donor [⟨"T"⟩, ⟨"T"⟩] ⟨woven, ()⟩ = .ok () ⟨g', ()⟩ ∧
      g'.weightAt 0 = 1 ∧ g'.weightAt 1 = -20 ∧ g'.weightAt 2 = 3 ∧ g'.weightAt 3 = -40 ∧
      ∀ group ∈ g'.groups, group.total = g'.weightSum group.rules := by
  intro donor
  have hreached : Reached MersenneTwister (fun _ => (.standard : Gauge ℚ _)) woven :=
    (Reached.empty .null).foldl _
  have hdonor : donor.skeleton = woven.skeleton := skeleton_replaceWeights (by decide +kernel)
  obtain ⟨g', hrun, -, hweights, htotals, -⟩ :=
    (transfer_mixes hreached hdonor).1 [⟨"T"⟩, ⟨"T"⟩] () (by decide +kernel)
  have hvalue : ∀ (i : Nat) (left : Symbol), woven.table[i]?.map (·.rule.left) = some left →
      g'.weightAt i = if left = ⟨"T"⟩ then donor.weightAt i else woven.weightAt i := by
    rintro i left h
    obtain ⟨entry, hentry, rfl⟩ := Option.map_eq_some_iff.mp h
    simpa using hweights i entry hentry
  refine ⟨g', hreached, hdonor, hrun, ?_, ?_, ?_, ?_, htotals⟩
  · exact (hvalue 0 ⟨"S"⟩ (by decide +kernel)).trans (by decide +kernel)
  · exact (hvalue 1 ⟨"T"⟩ (by decide +kernel)).trans (by decide +kernel)
  · exact (hvalue 2 ⟨"S"⟩ (by decide +kernel)).trans (by decide +kernel)
  · exact (hvalue 3 ⟨"T"⟩ (by decide +kernel)).trans (by decide +kernel)

end Tuning

end ProbeForge
