import ProbeForge.Proofs.Grammar.Coherence

/-!
# Weights of a grammar

Every operation that writes weights gives the grammar with another weight vector, and nothing else
is changed by it. So what a chain of such operations leaves is a matter of the last vector, and
taking a vector back takes the whole operation back.
-/

namespace ProbeForge.Grammar

variable {g g' : Grammar} {weights weights' : List Int}

/-! ### Tables -/

/-- The rules of a table with other weights. -/
def reweighed (table : Array RuleEntry) (weights : List Int) : Array RuleEntry :=
  (table.toList.zipWith (fun entry weight => { entry with weight }) weights).toArray

theorem getElem?_reweighed (table : Array RuleEntry) (weights : List Int) (i : Nat) :
    (reweighed table weights)[i]? =
      table[i]?.bind fun entry => weights[i]?.map fun weight => { entry with weight } := by
  simp only [reweighed, List.getElem?_toArray, List.getElem?_zipWith, Array.getElem?_toList]
  cases table[i]? <;> cases weights[i]? <;> rfl

theorem size_reweighed {table : Array RuleEntry} (h : weights.length = table.size) :
    (reweighed table weights).size = table.size := by
  simp [reweighed, h]

theorem reweighed_reweighed {table : Array RuleEntry} (h : weights.length = table.size) :
    reweighed (reweighed table weights) weights' = reweighed table weights' := by
  refine Array.ext_getElem? fun i => ?_
  simp only [getElem?_reweighed]
  cases hi : table[i]? with
  | none => rfl
  | some entry =>
    have hlt : i < weights.length := h ▸ (Array.getElem?_eq_some_iff.mp hi).1
    simp [List.getElem?_eq_getElem hlt]

theorem reweighed_self (table : Array RuleEntry) :
    reweighed table (table.toList.map (·.weight)) = table := by
  refine Array.ext_getElem? fun i => ?_
  rw [getElem?_reweighed, List.getElem?_map, Array.getElem?_toList]
  cases table[i]? <;> rfl

theorem setWeightAt_reweighed (table : Array RuleEntry) (weights : List Int) (i : Nat)
    (weight : Int) :
    setWeightAt (reweighed table weights) i weight = reweighed table (weights.set i weight) := by
  refine Array.ext_getElem? fun k => ?_
  rw [setWeightAt, Array.getElem?_modify]
  simp only [getElem?_reweighed, List.getElem?_set]
  by_cases hik : i = k
  · subst hik
    rw [if_pos rfl, if_pos rfl]
    by_cases hlt : i < weights.length
    · cases table[i]? <;> simp [hlt]
    · cases table[i]? <;> simp [hlt]
  · rw [if_neg hik, if_neg hik]

/-! ### Grammars -/

theorem table_replaceWeights (g : Grammar) (weights : List Int) :
    (g.replaceWeights weights).table = reweighed g.table weights := rfl

theorem ruleCount_replaceWeights (h : weights.length = g.ruleCount) :
    (g.replaceWeights weights).ruleCount = g.ruleCount := size_reweighed h

theorem weights_replaceWeights (h : weights.length = g.ruleCount) :
    (g.replaceWeights weights).weights = weights :=
  map_weight_reweighed (by simpa [ruleCount] using h)

theorem length_weights (g : Grammar) : g.weights.length = g.ruleCount := by
  simp [weights, ruleCount]

theorem length_set_weights (g : Grammar) (i : Nat) (weight : Int) :
    (g.weights.set i weight).length = g.ruleCount := by
  rw [List.length_set, length_weights]

theorem forall_mem_weights {p : Int → Prop} :
    (∀ w ∈ g.weights, p w) ↔ ∀ entry ∈ g.table, p entry.weight := by
  simp [weights]

theorem getElem?_weights (g : Grammar) (i : Nat) : g.weights[i]? = g.table[i]?.map (·.weight) := by
  simp [weights]

theorem weightAt_eq (g : Grammar) (i : Nat) : g.weightAt i = g.weights.getD i 0 := by
  simp [weightAt, weights, List.getD_eq_getElem?_getD]

theorem weightAt_eq_getElem {i : Nat} (h : i < g.weights.length) : g.weightAt i = g.weights[i] := by
  rw [weightAt_eq, List.getD_eq_getElem?_getD, List.getElem?_eq_getElem h, Option.getD_some]

theorem weightAt_set_of_ne {i k : Nat} (h : k ≠ i) (weight : Int) :
    (g.replaceWeights (g.weights.set k weight)).weightAt i = g.weightAt i := by
  simp only [weightAt_eq, weights_replaceWeights (g.length_set_weights k weight),
    List.getD_eq_getElem?_getD, List.getElem?_set_ne h]

theorem weightSum_congr {rules : List Nat}
    (h : ∀ i ∈ rules, g'.weightAt i = g.weightAt i) : g'.weightSum rules = g.weightSum rules := by
  unfold weightSum
  rw [List.map_congr_left h]

/-- Grammars that differ in nothing but their tables and groups. -/
theorem eq_of_table_groups
    (hrest : { g with table := g'.table, groups := g'.groups } = g') (htable : g.table = g'.table)
    (hgroups : g.groups = g'.groups) : g = g' := by
  rw [← hrest, ← htable, ← hgroups]

theorem groups_replaceWeights (g : Grammar) (weights : List Int) :
    (g.replaceWeights weights).groups = g.groups.map fun group =>
      { group with total := (g.replaceWeights weights).weightSum group.rules } := rfl

/-- The last vector counts. -/
theorem replaceWeights_replaceWeights (h : weights.length = g.ruleCount) :
    (g.replaceWeights weights).replaceWeights weights' = g.replaceWeights weights' := by
  have htable : ((g.replaceWeights weights).replaceWeights weights').table =
      (g.replaceWeights weights').table := reweighed_reweighed h
  refine eq_of_table_groups rfl htable ?_
  rw [groups_replaceWeights, groups_replaceWeights, groups_replaceWeights, Array.map_map]
  refine Array.map_congr_left fun group _ => ?_
  simp only [Function.comp_apply, RuleGroup.mk.injEq, true_and, and_true]
  exact weightSum_congr fun i _ => by simp only [weightAt, htable]

/-- The vector that a coherent grammar has changes nothing. -/
theorem Coherent.replaceWeights_self (hg : g.Coherent) : g.replaceWeights g.weights = g := by
  have htable : (g.replaceWeights g.weights).table = g.table := reweighed_self g.table
  refine eq_of_table_groups rfl htable ?_
  rw [groups_replaceWeights]
  refine Array.ext_getElem? fun i => ?_
  rw [Array.getElem?_map]
  cases hi : g.groups[i]? with
  | none => rfl
  | some group =>
    simp only [Option.map_some, Option.some.injEq]
    rw [weightSum_congr (g := g) fun k _ => by simp only [weightAt, htable],
      ← hg.total group (Array.mem_of_getElem? hi)]

theorem length_of_setWeights {requirePositive : Bool}
    (h : g.setWeights weights requirePositive = .ok g') : weights.length = g.ruleCount := by
  unfold setWeights importWeights at h
  split at h
  · simp at h
  case isFalse hlength => simpa using hlength

/-- A vector of the right length is taken as it is, without a weight below one where that is
refused. -/
theorem setWeights_eq {requirePositive : Bool} (hlength : weights.length = g.ruleCount)
    (h : requirePositive = true → ∀ w ∈ weights, 1 ≤ w) :
    g.setWeights weights requirePositive = .ok (g.replaceWeights weights) := by
  unfold setWeights importWeights
  rw [if_neg (by simpa using hlength), readWeights_int h]
  rfl

theorem setWeights_of_pos (hlength : weights.length = g.ruleCount) (h : ∀ w ∈ weights, 1 ≤ w) :
    g.setWeights weights true = .ok (g.replaceWeights weights) :=
  setWeights_eq hlength fun _ => h

/-! ### Skeletons -/

/-- The grammar with its weights and totals taken out. -/
def skeleton (g : Grammar) : Grammar :=
  { g with
    table := g.table.map ({ · with weight := 0 })
    groups := g.groups.map ({ · with total := 0 }) }

theorem ruleCount_of_skeleton (h : g'.skeleton = g.skeleton) : g'.ruleCount = g.ruleCount := by
  simpa [skeleton, ruleCount] using congrArg ruleCount h

/-- New weights and totals leave nothing of the old ones. -/
theorem replaceWeights_skeleton (g : Grammar) (weights : List Int) :
    g.skeleton.replaceWeights weights = g.replaceWeights weights := by
  have htable : (g.skeleton.replaceWeights weights).table = (g.replaceWeights weights).table := by
    refine Array.ext_getElem? fun i => ?_
    simp only [table_replaceWeights, getElem?_reweighed, skeleton, Array.getElem?_map]
    cases g.table[i]? <;> simp
  refine eq_of_table_groups rfl htable ?_
  simp only [groups_replaceWeights, skeleton, Array.map_map]
  refine Array.map_congr_left fun group _ => ?_
  simp only [Function.comp_apply, RuleGroup.mk.injEq, true_and, and_true]
  exact weightSum_congr fun i _ => by simp only [weightAt, ← htable, skeleton]

theorem replaceWeights_of_skeleton (h : g'.skeleton = g.skeleton) (weights : List Int) :
    g'.replaceWeights weights = g.replaceWeights weights := by
  rw [← replaceWeights_skeleton g', h, replaceWeights_skeleton]

theorem skeleton_replaceWeights (h : weights.length = g.ruleCount) :
    (g.replaceWeights weights).skeleton = g.skeleton := by
  refine eq_of_table_groups rfl ?_ ?_
  · refine Array.ext_getElem? fun i => ?_
    simp only [skeleton, table_replaceWeights, Array.getElem?_map, getElem?_reweighed]
    cases hi : g.table[i]? with
    | none => rfl
    | some entry =>
      have hlt : i < weights.length := h ▸ (Array.getElem?_eq_some_iff.mp hi).1
      simp [List.getElem?_eq_getElem hlt]
  · simp [skeleton, groups_replaceWeights, Function.comp_def]

theorem group?_skeleton (g : Grammar) (symbol : Symbol) :
    g.skeleton.group? symbol = (g.group? symbol).map ({ · with total := 0 }) := by
  simp [skeleton, group?, Array.find?_map, Function.comp_def]

/-- Groups have the same rules under all weights. -/
theorem rules_of_skeleton (h : g'.skeleton = g.skeleton) (symbol : Symbol) :
    (g'.group? symbol).map (·.rules) = (g.group? symbol).map (·.rules) := by
  have hgroup := congrArg (fun g => (g.group? symbol).map (·.rules)) h
  simpa [group?_skeleton, Function.comp_def] using hgroup

theorem isNonterminal_of_skeleton (h : g'.skeleton = g.skeleton) (symbol : Symbol) :
    g'.isNonterminal symbol = g.isNonterminal symbol := by
  simpa [isNonterminal] using congrArg Option.isSome (rules_of_skeleton h symbol)

/-! ### Single groups -/

/-- Where only the weights of one group change, its total is all that has to follow. -/
theorem Coherent.syncTotal_reweighed (hg : g.Coherent) {symbol : Symbol}
    (h : ∀ i, i ∉ placesOf g.table symbol → weights.getD i 0 = g.weights.getD i 0)
    (hlength : weights.length = g.ruleCount) :
    syncTotal { g with table := reweighed g.table weights } symbol = g.replaceWeights weights := by
  refine eq_of_table_groups rfl rfl ?_
  rw [groups_replaceWeights]
  refine Array.map_congr_left fun group hgroup => ?_
  split
  · rfl
  case isFalse hne =>
    have hsame : (g.replaceWeights weights).weightSum group.rules = g.weightSum group.rules := by
      refine weightSum_congr fun i hi => ?_
      rw [weightAt_eq, weightAt_eq, weights_replaceWeights hlength]
      refine h i fun hmem => hne ?_
      obtain ⟨entry, hentry, hleft⟩ := hg.entry_of_mem hgroup hi
      obtain ⟨entry', hentry', hleft'⟩ := mem_placesOf.mp hmem
      cases hentry.symm.trans hentry'
      exact hleft.symm.trans hleft'
    rw [hsame, ← hg.total group hgroup]

theorem Coherent.putWeight_eq (hg : g.Coherent) {i : Nat} (hi : i < g.ruleCount) (weight : Int) :
    g.putWeight i weight = g.replaceWeights (g.weights.set i weight) := by
  have hentry : g.table[i]? = some g.table[i] := Array.getElem?_eq_getElem hi
  unfold putWeight
  rw [hentry]
  dsimp only
  have htable : setWeightAt g.table i weight = reweighed g.table (g.weights.set i weight) := by
    rw [← setWeightAt_reweighed]
    exact congrArg (setWeightAt · i weight) (reweighed_self g.table).symm
  rw [htable]
  refine hg.syncTotal_reweighed (fun k hk => ?_) (g.length_set_weights i weight)
  have hne : i ≠ k := by
    rintro rfl
    exact hk (mem_placesOf.mpr ⟨_, hentry, rfl⟩)
  rw [List.getD_eq_getElem?_getD, List.getElem?_set_ne hne, List.getD_eq_getElem?_getD]

theorem Coherent.setRuleWeight_eq (hg : g.Coherent) {i : Nat} (hi : i < g.ruleCount)
    (weight : Int) :
    g.setRuleWeight i (.int weight) = .ok (g.replaceWeights (g.weights.set i weight)) := by
  have hplace : g.place? i = some i := by
    have hpos : ¬ (i : Int) < 0 := by omega
    have hlt : 0 ≤ (i : Int) ∧ (i : Int) < g.ruleCount := by omega
    simp only [place?, if_neg hpos, if_pos hlt, Int.toNat_natCast]
  unfold setRuleWeight
  rw [hplace, ← hg.putWeight_eq hi]
  rfl

theorem lt_of_place? {i : Int} {k : Nat} (h : g.place? i = some k) : k < g.ruleCount := by
  simp only [place?, Option.ite_none_right_eq_some, Option.some.injEq] at h
  omega

theorem Coherent.of_setRuleWeight (hg : g.Coherent) {i : Int} {value : Json}
    (h : g.setRuleWeight i value = .ok g') :
    ∃ k weight, k < g.ruleCount ∧ value.toInteger = .ok weight ∧
      g' = g.replaceWeights (g.weights.set k weight) := by
  unfold setRuleWeight at h
  split at h
  case h_1 k hplace =>
    obtain ⟨weight, hweight, rfl⟩ := map_ok.mp h
    have hk := lt_of_place? hplace
    exact ⟨k, weight, hk, hweight, hg.putWeight_eq hk weight⟩
  case h_2 => cases h

theorem project_ok {symbol : Symbol} {gene : Gene} :
    g.project symbol = .ok gene ↔
      ∃ group, g.group? symbol = some group ∧ gene = ⟨symbol, group.rules.map g.weightAt⟩ := by
  unfold project Grammar.group
  cases g.group? symbol <;> simp [Except.map, eq_comm]

/-- The weights with those at some places written over. -/
def overwrite : List Nat → List Int → List Int → List Int
  | i :: rules, weight :: values, weights => overwrite rules values (weights.set i weight)
  | _, _, weights => weights

theorem length_overwrite (rules : List Nat) (values weights : List Int) :
    (overwrite rules values weights).length = weights.length := by
  induction rules generalizing values weights with
  | nil => rfl
  | cons i rules ih =>
    cases values with
    | nil => rfl
    | cons weight values => rw [overwrite, ih, List.length_set]

theorem mem_overwrite {rules : List Nat} {values weights : List Int} {w : Int}
    (h : w ∈ overwrite rules values weights) : w ∈ weights ∨ w ∈ values := by
  induction rules generalizing values weights with
  | nil => exact .inl h
  | cons i rules ih =>
    cases values with
    | nil => exact .inl h
    | cons weight values =>
      rcases ih h with h | h
      · rcases List.mem_or_eq_of_mem_set h with h | rfl
        · exact .inl h
        · exact .inr List.mem_cons_self
      · exact .inr (List.mem_cons_of_mem _ h)

theorem getElem?_overwrite {rules : List Nat} {k : Nat} (h : k ∉ rules)
    (values weights : List Int) : (overwrite rules values weights)[k]? = weights[k]? := by
  induction rules generalizing values weights with
  | nil => rfl
  | cons i rules ih =>
    obtain ⟨hne, hrest⟩ := not_or.mp (mt List.mem_cons.mpr h)
    cases values with
    | nil => rfl
    | cons weight values => rw [overwrite, ih hrest, List.getElem?_set_ne (Ne.symm hne)]

/-- The place of a rule takes the value that stands where the rule does, if there is one. -/
theorem getElem?_overwrite_of_getElem? {rules : List Nat} (hnodup : rules.Nodup) {k i : Nat}
    (hk : rules[k]? = some i) (values weights : List Int) :
    (overwrite rules values weights)[i]? = weights[i]?.map fun w => values.getD k w := by
  induction rules generalizing k values weights with
  | nil => simp at hk
  | cons j rules ih =>
    obtain ⟨hj, hrest⟩ := List.nodup_cons.mp hnodup
    cases values with
    | nil => simp [overwrite]
    | cons weight values =>
      rw [overwrite]
      cases k with
      | zero =>
        obtain rfl : j = i := by simpa using hk
        rw [getElem?_overwrite hj, List.getElem?_set]
        by_cases hlt : j < weights.length <;> simp [hlt]
      | succ k =>
        have hk : rules[k]? = some i := by simpa using hk
        have hne : j ≠ i := fun heq => hj (heq ▸ List.mem_of_getElem? hk)
        rw [ih hrest hk, List.getElem?_set_ne hne]
        simp

theorem writeGene_reweighed (table : Array RuleEntry) (rules : List Nat)
    (values weights : List Int) :
    writeGene (reweighed table weights) rules (values.map .int) =
      (reweighed table (overwrite rules values weights), none) := by
  induction rules generalizing values weights with
  | nil => rfl
  | cons i rules ih =>
    cases values with
    | nil => rfl
    | cons weight values =>
      rw [List.map_cons, writeGene, overwrite, ← ih, ← setWeightAt_reweighed]
      rfl

/-- A gene that fits its nonterminal is written as a whole. -/
theorem Coherent.updateGene_eq (hg : g.Coherent) {group : RuleGroup} {values : List Int}
    (hgroup : g.group? group.symbol = some group) (hlength : values.length = group.rules.length) :
    g.updateGene ⟨group.symbol, values⟩ =
      (none, g.replaceWeights (overwrite group.rules values g.weights)) := by
  have hwritten : writeGene g.table group.rules (values.map .int) =
      (reweighed g.table (overwrite group.rules values g.weights), none) := by
    rw [← writeGene_reweighed]
    exact congrArg (writeGene · group.rules (values.map .int)) (reweighed_self g.table).symm
  unfold updateGene updateGeneWith
  simp only [hgroup, List.length_map, hlength, ne_eq, not_true_eq_false, if_false, hwritten]
  rw [hg.syncTotal_reweighed (fun k hk => ?_) (by rw [length_overwrite, length_weights])]
  rw [← hg.rules group (group?_mem hgroup).1] at hk
  rw [List.getD_eq_getElem?_getD, getElem?_overwrite hk, List.getD_eq_getElem?_getD]

theorem Coherent.updateGene_cases (hg : g.Coherent) (gene : Gene) :
    (∃ fault, g.updateGene gene = (some fault, g)) ∨
      ∃ group, g.group? gene.symbol = some group ∧ gene.weights.length = group.rules.length ∧
        g.updateGene gene =
          (none, g.replaceWeights (overwrite group.rules gene.weights g.weights)) := by
  obtain ⟨symbol, values⟩ := gene
  cases hgroup : g.group? symbol with
  | none => exact .inl ⟨.absent, by simp only [updateGene, updateGeneWith, hgroup]⟩
  | some group =>
    by_cases hlength : values.length = group.rules.length
    · obtain ⟨-, rfl⟩ := group?_mem hgroup
      exact .inr ⟨group, rfl, hlength, hg.updateGene_eq hgroup hlength⟩
    · refine .inl ⟨.configuration (.geneCount symbol.name values.length group.rules.length), ?_⟩
      simp [updateGene, updateGeneWith, hgroup, hlength]

/-! ### Grammars with other weights -/

/-- The grammar is the prototype with weights of its own, none of them below one. -/
structure Fits (prototype g : Grammar) : Prop where
  length : g.weights.length = prototype.ruleCount
  positive : ∀ w ∈ g.weights, 1 ≤ w
  same : prototype.replaceWeights g.weights = g

variable {prototype : Grammar}

theorem fits_replaceWeights (hlength : weights.length = prototype.ruleCount)
    (hpositive : ∀ w ∈ weights, 1 ≤ w) : prototype.Fits (prototype.replaceWeights weights) := by
  have hweights := weights_replaceWeights hlength
  exact ⟨by rw [hweights, hlength], by rwa [hweights], by rw [hweights]⟩

theorem Fits.ruleCount_eq (h : prototype.Fits g) : g.ruleCount = prototype.ruleCount := by
  rw [← length_weights, h.length]

theorem Fits.coherent (hp : prototype.Grouped) (h : prototype.Fits g) : g.Coherent :=
  h.same ▸ hp.replaceWeights h.length

theorem Fits.replaceWeights_eq (h : prototype.Fits g) (weights : List Int) :
    g.replaceWeights weights = prototype.replaceWeights weights := by
  have hreplaced : (prototype.replaceWeights g.weights).replaceWeights weights =
      prototype.replaceWeights weights := replaceWeights_replaceWeights h.length
  rwa [h.same] at hreplaced

theorem Fits.replaceWeights (h : prototype.Fits g) (hlength : weights.length = g.ruleCount)
    (hpositive : ∀ w ∈ weights, 1 ≤ w) : prototype.Fits (g.replaceWeights weights) := by
  rw [h.replaceWeights_eq]
  exact fits_replaceWeights (h.ruleCount_eq ▸ hlength) hpositive

theorem Fits.set (h : prototype.Fits g) (i : Nat) {weight : Int} (hweight : 1 ≤ weight) :
    prototype.Fits (g.replaceWeights (g.weights.set i weight)) := by
  refine h.replaceWeights (g.length_set_weights i weight) fun w hw => ?_
  rcases List.mem_or_eq_of_mem_set hw with hold | rfl
  · exact h.positive w hold
  · exact hweight

theorem Fits.setWeights (h : prototype.Fits g) (hset : g.setWeights weights true = .ok g') :
    prototype.Fits g' := by
  obtain ⟨read, hlength, hpositive, rfl⟩ := setWeights_ok hset
  exact h.replaceWeights hlength (hpositive rfl)

theorem Fits.trans {g'' : Grammar} (h : prototype.Fits g) (h' : g.Fits g'') :
    prototype.Fits g'' :=
  ⟨h'.length.trans h.ruleCount_eq, h'.positive, by rw [← h.replaceWeights_eq, h'.same]⟩

theorem Fits.one_le_weight (h : prototype.Fits g) : ∀ entry ∈ g.table, 1 ≤ entry.weight :=
  forall_mem_weights.mp h.positive

theorem Fits.skeleton (h : prototype.Fits g) : g.skeleton = prototype.skeleton := by
  have hskeleton := skeleton_replaceWeights h.length
  rwa [h.same] at hskeleton

/-- Weights do not change which rules a group has. -/
theorem Fits.exists_rules_eq (h : prototype.Fits g) {i : Nat} {group : RuleGroup}
    (hgroup : g.groups[i]? = some group) :
    ∃ old, prototype.groups[i]? = some old ∧ old.rules = group.rules := by
  rw [← h.same, groups_replaceWeights, Array.getElem?_map] at hgroup
  obtain ⟨old, hold, rfl⟩ := Option.map_eq_some_iff.mp hgroup
  exact ⟨old, hold, rfl⟩

/-- The weights that a grammar had can be set again. -/
theorem Fits.setWeights_back (h : prototype.Fits g) (h' : prototype.Fits g') :
    g'.setWeights g.weights true = .ok g := by
  rw [setWeights_of_pos (h.length.trans h'.ruleCount_eq.symm) h.positive, h'.replaceWeights_eq,
    h.same]

theorem Fits.self (hp : prototype.Coherent) (hpositive : ∀ w ∈ prototype.weights, 1 ≤ w) :
    prototype.Fits prototype :=
  ⟨prototype.length_weights, hpositive, hp.replaceWeights_self⟩

end ProbeForge.Grammar
