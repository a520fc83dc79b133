import Mathlib.Data.List.Nodup
import Mathlib.Tactic.Set
import ProbeForge.Grammar.Weights
import ProbeForge.Proofs.Outcome

/-!
# Coherent grammars

A grammar keeps its rules twice, as a table and as groups with totals. It is coherent if the two
agree. An empty grammar is, and every operation that adds a rule or writes weights leaves a coherent
grammar coherent.
-/

namespace ProbeForge.Grammar

/-- The places of the rules with a left side, in table order. -/
def placesOf (table : Array RuleEntry) (left : Symbol) : List Nat :=
  (List.range table.size).filter fun i => (table[i]?.map (·.rule.left)) == some left

structure Coherent (g : Grammar) : Prop where
  distinct : g.groups.toList.Pairwise (·.symbol ≠ ·.symbol)
  rules : ∀ group ∈ g.groups, group.rules = placesOf g.table group.symbol
  inhabited : ∀ group ∈ g.groups, group.rules ≠ []
  total : ∀ group ∈ g.groups, group.total = g.weightSum group.rules
  owned : ∀ entry ∈ g.table, ∃ group ∈ g.groups, group.symbol = entry.rule.left

/-- The groups list the rules of the table by their left sides. Totals may be out of date. -/
structure Grouped (g : Grammar) : Prop where
  distinct : g.groups.toList.Pairwise (·.symbol ≠ ·.symbol)
  rules : ∀ group ∈ g.groups, group.rules = placesOf g.table group.symbol
  inhabited : ∀ group ∈ g.groups, group.rules ≠ []
  owned : ∀ entry ∈ g.table, ∃ group ∈ g.groups, group.symbol = entry.rule.left

variable {g g' : Grammar}

theorem Coherent.grouped (hg : g.Coherent) : g.Grouped :=
  ⟨hg.distinct, hg.rules, hg.inhabited, hg.owned⟩

/-! ### Lookups -/

theorem mem_placesOf {table : Array RuleEntry} {left : Symbol} {i : Nat} :
    i ∈ placesOf table left ↔ ∃ entry, table[i]? = some entry ∧ entry.rule.left = left := by
  simp only [placesOf, List.mem_filter, List.mem_range, beq_iff_eq, Option.map_eq_some_iff]
  constructor
  · rintro ⟨-, h⟩
    exact h
  · rintro ⟨entry, h, hleft⟩
    exact ⟨(Array.getElem?_eq_some_iff.mp h).1, entry, h, hleft⟩

theorem weightAt_of_getElem? {i : Nat} {entry : RuleEntry} (h : g.table[i]? = some entry) :
    g.weightAt i = entry.weight := by
  simp [weightAt, h]

theorem group?_mem {symbol : Symbol} {group : RuleGroup} (h : g.group? symbol = some group) :
    group ∈ g.groups ∧ group.symbol = symbol := by
  refine ⟨Array.mem_of_find?_eq_some h, ?_⟩
  simpa using Array.find?_some h

theorem isNonterminal_iff {symbol : Symbol} :
    g.isNonterminal symbol = true ↔ ∃ group ∈ g.groups, group.symbol = symbol := by
  simp [isNonterminal, group?]

theorem mem_nonterminals {symbol : Symbol} :
    symbol ∈ g.nonterminals ↔ g.isNonterminal symbol = true := by
  simp [isNonterminal_iff, nonterminals]

theorem length_nonterminals (g : Grammar) : g.nonterminals.length = g.nonterminalCount := by
  simp [nonterminals, nonterminalCount]

theorem Grouped.nodup_nonterminals (hg : g.Grouped) : g.nonterminals.Nodup :=
  List.pairwise_map.mpr hg.distinct

theorem Grouped.eq_of_symbol_eq (hg : g.Grouped) {group group' : RuleGroup}
    (h : group ∈ g.groups) (h' : group' ∈ g.groups) (hsymbol : group.symbol = group'.symbol) :
    group = group' :=
  List.inj_on_of_nodup_map (List.pairwise_map.mpr hg.distinct) (Array.mem_toList_iff.mpr h)
    (Array.mem_toList_iff.mpr h') hsymbol

theorem Grouped.group?_eq (hg : g.Grouped) {group : RuleGroup} (hgroup : group ∈ g.groups) :
    g.group? group.symbol = some group := by
  obtain ⟨found, hfound⟩ := Option.isSome_iff_exists.mp
    (isNonterminal_iff.mpr ⟨group, hgroup, rfl⟩)
  obtain ⟨hmem, hsymbol⟩ := group?_mem hfound
  rw [hfound, hg.eq_of_symbol_eq hmem hgroup hsymbol]

theorem Grouped.mem_rules_iff (hg : g.Grouped) {group : RuleGroup} (hgroup : group ∈ g.groups)
    {i : Nat} :
    i ∈ group.rules ↔ ∃ entry, g.table[i]? = some entry ∧ entry.rule.left = group.symbol := by
  rw [hg.rules group hgroup, mem_placesOf]

theorem Grouped.entry_of_mem (hg : g.Grouped) {group : RuleGroup} (hgroup : group ∈ g.groups)
    {i : Nat} (hi : i ∈ group.rules) :
    ∃ entry, g.table[i]? = some entry ∧ entry.rule.left = group.symbol :=
  (hg.mem_rules_iff hgroup).mp hi

theorem Grouped.lt_of_mem_rules (hg : g.Grouped) {group : RuleGroup} (hgroup : group ∈ g.groups)
    {i : Nat} (hi : i ∈ group.rules) : i < g.ruleCount := by
  obtain ⟨entry, hentry, -⟩ := hg.entry_of_mem hgroup hi
  exact (Array.getElem?_eq_some_iff.mp hentry).1

/-- Every place of the table belongs to some group. -/
theorem Grouped.exists_group (hg : g.Grouped) {i : Nat} (hi : i < g.ruleCount) :
    ∃ group ∈ g.groups, i ∈ group.rules := by
  have hentry : g.table[i]? = some g.table[i] := Array.getElem?_eq_getElem hi
  obtain ⟨group, hgroup, hsymbol⟩ := hg.owned _ (Array.getElem_mem hi)
  exact ⟨group, hgroup, (hg.mem_rules_iff hgroup).mpr ⟨_, hentry, hsymbol.symm⟩⟩

/-- A place belongs to one group only. -/
theorem Grouped.eq_of_mem_rules (hg : g.Grouped) {group other : RuleGroup} {i : Nat}
    (hgroup : group ∈ g.groups) (hi : i ∈ group.rules) (hother : other ∈ g.groups)
    (hi' : i ∈ other.rules) : group = other := by
  obtain ⟨entry, hentry, hleft⟩ := hg.entry_of_mem hgroup hi
  obtain ⟨entry', hentry', hleft'⟩ := hg.entry_of_mem hother hi'
  cases hentry.symm.trans hentry'
  exact hg.eq_of_symbol_eq hgroup hother (hleft.symm.trans hleft')

theorem Coherent.entry_of_mem (hg : g.Coherent) {group : RuleGroup} (hgroup : group ∈ g.groups)
    {i : Nat} (hi : i ∈ group.rules) :
    ∃ entry, g.table[i]? = some entry ∧ entry.rule.left = group.symbol :=
  hg.grouped.entry_of_mem hgroup hi

/-! ### Weights -/

theorem one_le_weightAt (hw : ∀ entry ∈ g.table, 1 ≤ entry.weight) (hg : g.Coherent)
    {group : RuleGroup} (hgroup : group ∈ g.groups) {i : Nat} (hi : i ∈ group.rules) :
    1 ≤ g.weightAt i := by
  obtain ⟨entry, hentry, -⟩ := hg.entry_of_mem hgroup hi
  rw [weightAt_of_getElem? hentry]
  exact hw entry (Array.mem_of_getElem? hentry)

theorem weightSum_pos {rules : List Nat} (hne : rules ≠ []) (h : ∀ i ∈ rules, 1 ≤ g.weightAt i) :
    1 ≤ g.weightSum rules := by
  unfold weightSum
  induction rules with
  | nil => exact absurd rfl hne
  | cons i rest ih =>
    have hi := h i List.mem_cons_self
    rcases rest with _ | ⟨j, rest⟩
    · simpa using hi
    · have := ih (List.cons_ne_nil _ _) fun j hj => h j (List.mem_cons_of_mem _ hj)
      simp only [List.map_cons, List.foldr_cons] at this ⊢
      omega

theorem Coherent.one_le_total (hg : g.Coherent) (hw : ∀ entry ∈ g.table, 1 ≤ entry.weight)
    {group : RuleGroup} (hgroup : group ∈ g.groups) : 1 ≤ group.total := by
  rw [hg.total group hgroup]
  exact weightSum_pos (hg.inhabited group hgroup) fun i hi => one_le_weightAt hw hg hgroup hi

/-! ### Empty grammars -/

theorem coherent_empty (name : Json) : (empty name).Coherent where
  distinct := List.Pairwise.nil
  rules _ h := by simp [empty] at h
  inhabited _ h := by simp [empty] at h
  total _ h := by simp [empty] at h
  owned _ h := by simp [empty] at h

/-- Coherence reads the table and the groups alone. -/
theorem Coherent.congr (hg : g.Coherent) (htable : g'.table = g.table)
    (hgroups : g'.groups = g.groups) : g'.Coherent := by
  obtain ⟨distinct, rules, inhabited, total, owned⟩ := hg
  have hsum : g'.weightSum = g.weightSum := by
    funext rules
    unfold weightSum weightAt
    rw [htable]
  constructor <;> simpa only [htable, hgroups, hsum]

/-! ### Added rules -/

section Adding

variable {entry : RuleEntry}

theorem placesOf_push (table : Array RuleEntry) (left : Symbol) :
    placesOf (table.push entry) left =
      placesOf table left ++ if entry.rule.left = left then [table.size] else [] := by
  unfold placesOf
  rw [Array.size_push, List.range_succ, List.filter_append]
  congr 1
  · refine List.filter_congr fun i hi => ?_
    rw [Array.getElem?_push_lt (List.mem_range.mp hi)]
    simp [List.mem_range.mp hi]
  · by_cases h : entry.rule.left = left <;> simp [h]

theorem placesOf_lt {table : Array RuleEntry} {left : Symbol} {i : Nat}
    (hi : i ∈ placesOf table left) : i < table.size :=
  List.mem_range.mp (List.mem_filter.mp hi).1

section Joining

variable {groups : Array RuleGroup} {left : Symbol} {weight : Int} {index : Nat}

/-- The groups when a rule of a known left side joins: only the group of that side changes. -/
theorem joinGroup_of_mem (hdistinct : groups.toList.Pairwise (·.symbol ≠ ·.symbol))
    (hmem : ∃ group ∈ groups, group.symbol = left) :
    joinGroup groups left weight index = groups.map fun group =>
      if group.symbol = left then
        { group with total := group.total + weight, rules := group.rules ++ [index] }
      else group := by
  unfold joinGroup
  cases hfind : groups.findIdx? (·.symbol == left) with
  | none =>
    obtain ⟨group, hgroup, rfl⟩ := hmem
    simpa using Array.findIdx?_eq_none_iff.mp hfind group hgroup
  | some i =>
    obtain ⟨hi, hleft, -⟩ := Array.findIdx?_eq_some_iff_getElem.mp hfind
    rw [beq_iff_eq] at hleft
    refine Array.ext (by simp) fun j hj _ => ?_
    rw [Array.size_modify] at hj
    rw [Array.getElem_modify, Array.getElem_map]
    by_cases hij : i = j
    · subst hij
      simp [hleft]
    · have hne : groups[j].symbol ≠ left := by
        rw [← hleft]
        rw [List.pairwise_iff_getElem] at hdistinct
        rcases Nat.lt_or_gt_of_ne hij with h | h
        · exact (hdistinct i j hi hj h).symm
        · exact hdistinct j i hj hi h
      simp [hij, hne]

theorem joinGroup_of_not_mem (h : ∀ group ∈ groups, group.symbol ≠ left) :
    joinGroup groups left weight index = groups.push ⟨left, weight, [index]⟩ := by
  unfold joinGroup
  rw [Array.findIdx?_eq_none_iff.mpr fun group hgroup => by simpa using h group hgroup]

theorem distinct_joinGroup (hdistinct : groups.toList.Pairwise (·.symbol ≠ ·.symbol)) :
    (joinGroup groups left weight index).toList.Pairwise (·.symbol ≠ ·.symbol) := by
  by_cases hmem : ∃ group ∈ groups, group.symbol = left
  · rw [joinGroup_of_mem hdistinct hmem, Array.toList_map, List.pairwise_map]
    exact hdistinct.imp fun hne => by split <;> split <;> exact hne
  · have hnone : ∀ group ∈ groups, group.symbol ≠ left := fun group hgroup heq =>
      hmem ⟨group, hgroup, heq⟩
    rw [joinGroup_of_not_mem hnone, Array.toList_push, List.pairwise_append]
    refine ⟨hdistinct, List.pairwise_singleton _ _, fun group hgroup new hnew => ?_⟩
    cases List.mem_singleton.mp hnew
    exact hnone group (Array.mem_toList_iff.mp hgroup)

/-- The group that a rule joins has it at its end. A new group was without rules before. -/
theorem mem_joinGroup (hdistinct : groups.toList.Pairwise (·.symbol ≠ ·.symbol))
    {group : RuleGroup} (h : group ∈ joinGroup groups left weight index) :
    (group ∈ groups ∧ group.symbol ≠ left) ∨
      ∃ total rules, group = ⟨left, total + weight, rules ++ [index]⟩ ∧
        (⟨left, total, rules⟩ ∈ groups ∨
          total = 0 ∧ rules = [] ∧ ∀ group ∈ groups, group.symbol ≠ left) := by
  by_cases hmem : ∃ group ∈ groups, group.symbol = left
  · rw [joinGroup_of_mem hdistinct hmem] at h
    obtain ⟨old, hold, rfl⟩ := Array.mem_map.mp h
    split
    case isTrue heq =>
      subst heq
      exact .inr ⟨old.total, old.rules, rfl, .inl hold⟩
    case isFalse hne => exact .inl ⟨hold, hne⟩
  · have hnone : ∀ group ∈ groups, group.symbol ≠ left := fun group hgroup heq =>
      hmem ⟨group, hgroup, heq⟩
    rw [joinGroup_of_not_mem hnone] at h
    rcases Array.mem_push.mp h with hold | rfl
    · exact .inl ⟨hold, hnone group hold⟩
    · exact .inr ⟨0, [], by simp, .inr ⟨rfl, rfl, hnone⟩⟩

theorem exists_mem_joinGroup (hdistinct : groups.toList.Pairwise (·.symbol ≠ ·.symbol))
    {symbol : Symbol} (h : (∃ group ∈ groups, group.symbol = symbol) ∨ symbol = left) :
    ∃ group ∈ joinGroup groups left weight index, group.symbol = symbol := by
  by_cases hmem : ∃ group ∈ groups, group.symbol = left
  · obtain ⟨group, hgroup, hsymbol⟩ : ∃ group ∈ groups, group.symbol = symbol :=
      h.elim id fun heq => heq ▸ hmem
    rw [joinGroup_of_mem hdistinct hmem]
    refine ⟨_, Array.mem_map_of_mem hgroup, ?_⟩
    split <;> exact hsymbol
  · rw [joinGroup_of_not_mem fun group hgroup heq => hmem ⟨group, hgroup, heq⟩]
    rcases h with ⟨group, hgroup, hsymbol⟩ | rfl
    · exact ⟨group, Array.mem_push_of_mem _ hgroup, hsymbol⟩
    · exact ⟨_, Array.mem_push_self, rfl⟩

end Joining

theorem weightSum_push {rules : List Nat} (h : ∀ i ∈ rules, i < g.table.size)
    (hg' : g'.table = g.table.push entry) : g'.weightSum rules = g.weightSum rules := by
  unfold weightSum
  congr 1
  refine List.map_congr_left fun i hi => ?_
  unfold weightAt
  rw [hg', Array.getElem?_push_lt (h i hi), Array.getElem?_eq_getElem (h i hi)]

theorem weightSum_append (rules rest : List Nat) :
    g.weightSum (rules ++ rest) = g.weightSum rules + g.weightSum rest := by
  unfold weightSum
  induction rules with
  | nil => simp
  | cons i rules ih =>
    simp only [List.cons_append, List.map_cons, List.foldr_cons] at ih ⊢
    rw [ih]
    omega

theorem addRule_ok {rule : Rule} {weight : Int} {generator representer : Json}
    (h : g.addRule rule weight generator representer = .ok g') :
    1 ≤ weight ∧ (∀ entry ∈ g.table, entry.rule ≠ rule) ∧
      g' = { g with
        table := g.table.push ⟨rule, weight, generator, representer⟩
        groups := joinGroup g.groups rule.left weight g.table.size } := by
  unfold addRule at h
  split at h
  · simp at h
  case isFalse hweight =>
    split at h
    · simp at h
    case isFalse hnew =>
      refine ⟨by omega, fun entry hentry heq => hnew ?_, (Except.ok.inj h).symm⟩
      exact Array.any_eq_true'.mpr ⟨entry, hentry, by simpa using heq⟩

/-- What the group of a left side lists before a rule joins, whether or not it was there. -/
theorem Grouped.rules_of_joining (hg : g.Grouped) {left : Symbol} {total : Int} {rules : List Nat}
    (h : ⟨left, total, rules⟩ ∈ g.groups ∨
      total = 0 ∧ rules = [] ∧ ∀ group ∈ g.groups, group.symbol ≠ left) :
    rules = placesOf g.table left := by
  rcases h with hgroup | ⟨-, rfl, hnone⟩
  · exact hg.rules _ hgroup
  · refine Eq.symm (List.eq_nil_iff_forall_not_mem.mpr fun i hi => ?_)
    obtain ⟨entry, hentry, hleft⟩ := mem_placesOf.mp hi
    obtain ⟨group, hgroup, hsymbol⟩ := hg.owned entry (Array.mem_of_getElem? hentry)
    exact hnone group hgroup (hsymbol.trans hleft)

theorem Grouped.addRule (hg : g.Grouped) {rule : Rule} {weight : Int}
    {generator representer : Json} (h : g.addRule rule weight generator representer = .ok g') :
    g'.Grouped := by
  obtain ⟨-, -, rfl⟩ := addRule_ok h
  set entry : RuleEntry := ⟨rule, weight, generator, representer⟩ with hentry
  have hplaces : ∀ left, placesOf (g.table.push entry) left =
      placesOf g.table left ++ if rule.left = left then [g.table.size] else [] :=
    placesOf_push g.table
  constructor
  case distinct => exact distinct_joinGroup hg.distinct
  case rules =>
    intro group hgroup
    obtain ⟨hgroup, hne⟩ | ⟨total, rules, rfl, hmem⟩ := mem_joinGroup hg.distinct hgroup
    · rw [hplaces, if_neg (Ne.symm hne), List.append_nil, hg.rules group hgroup]
    · rw [hplaces, if_pos rfl, hg.rules_of_joining hmem]
  case inhabited =>
    intro group hgroup
    obtain ⟨hgroup, -⟩ | ⟨total, rules, rfl, -⟩ := mem_joinGroup hg.distinct hgroup
    · exact hg.inhabited group hgroup
    · simp
  case owned =>
    intro e he
    refine exists_mem_joinGroup hg.distinct ?_
    rcases Array.mem_push.mp he with he | rfl
    · exact .inl (hg.owned e he)
    · exact .inr rfl

theorem Coherent.addRule (hg : g.Coherent) {rule : Rule} {weight : Int}
    {generator representer : Json} (h : g.addRule rule weight generator representer = .ok g') :
    g'.Coherent := by
  obtain ⟨distinct, rules, inhabited, owned⟩ := hg.grouped.addRule h
  refine ⟨distinct, rules, inhabited, ?_, owned⟩
  obtain ⟨-, -, rfl⟩ := addRule_ok h
  set entry : RuleEntry := ⟨rule, weight, generator, representer⟩ with hentry
  set g' : Grammar := { g with
    table := g.table.push entry
    groups := joinGroup g.groups rule.left weight g.table.size } with hg'
  have hold : ∀ left, g'.weightSum (placesOf g.table left) = g.weightSum (placesOf g.table left) :=
    fun left => weightSum_push (fun i hi => placesOf_lt hi) rfl
  have hlast : g'.weightSum [g.table.size] = weight := by simp [weightSum, weightAt, hg', hentry]
  intro group hgroup
  obtain ⟨hgroup, -⟩ | ⟨total, rules, rfl, hmem⟩ := mem_joinGroup hg.distinct hgroup
  · rw [hg.total group hgroup, hg.rules group hgroup, hold]
  · have htotal : total = g.weightSum rules := by
      rcases hmem with hgroup | ⟨rfl, rfl, -⟩
      · exact hg.total _ hgroup
      · rfl
    rw [weightSum_append, hlast, htotal, hg.grouped.rules_of_joining hmem, hold]

end Adding

/-- The grammar of rules without behaviours, in their order. -/
def ofRules (name : Json) (rules : List (Rule × Int)) : Except Fault Grammar :=
  rules.foldlM (fun g (rule, weight) => g.addRule rule weight .null .null) (.empty name)

theorem coherent_ofRules {name : Json} {rules : List (Rule × Int)}
    (h : ofRules name rules = .ok g) :
    g.Coherent ∧ ∀ entry ∈ g.table, 1 ≤ entry.weight := by
  refine foldlM_ok (P := fun g => g.Coherent ∧ ∀ entry ∈ g.table, 1 ≤ entry.weight) ?_ h
    ⟨coherent_empty name, fun entry hentry => by simp [empty] at hentry⟩
  rintro g g' ⟨rule, weight⟩ - hadd ⟨hg, hw⟩
  refine ⟨hg.addRule hadd, ?_⟩
  obtain ⟨hweight, -, rfl⟩ := addRule_ok hadd
  intro entry hentry
  rcases Array.mem_push.mp hentry with hentry | rfl
  · exact hw entry hentry
  · exact hweight

/-! ### Written weights -/

theorem placesOf_congr {table table' : Array RuleEntry}
    (h : table'.toList.map (·.rule) = table.toList.map (·.rule)) (left : Symbol) :
    placesOf table' left = placesOf table left := by
  have hsize : table'.size = table.size := by simpa using congrArg List.length h
  have hget : ∀ i : Nat, table'[i]?.map (·.rule.left) = table[i]?.map (·.rule.left) := fun i => by
    have := congrArg (fun rules : List Rule => rules[i]?.map (·.left)) h
    simpa [List.getElem?_map, Option.map_map, Function.comp_def] using this
  simp only [placesOf, hsize, hget]

/-- Weights and totals may change as they like. -/
theorem Grouped.congr (hg : g.Grouped)
    (htable : g'.table.toList.map (·.rule) = g.table.toList.map (·.rule))
    (hgroups : g'.groups.map (fun group => (group.symbol, group.rules)) =
      g.groups.map fun group => (group.symbol, group.rules)) : g'.Grouped := by
  have hall : ∀ group' ∈ g'.groups, ∃ group ∈ g.groups,
      group.symbol = group'.symbol ∧ group.rules = group'.rules := fun group' hgroup' => by
    have hmem := Array.mem_map_of_mem (f := fun group => (group.symbol, group.rules)) hgroup'
    rw [hgroups, Array.mem_map] at hmem
    simpa using hmem
  constructor
  case distinct =>
    have hsymbols : g'.groups.toList.map (·.symbol) = g.groups.toList.map (·.symbol) := by
      simpa [Function.comp_def] using congrArg (·.toList.map (·.1)) hgroups
    rw [← List.pairwise_map (R := (· ≠ ·)), hsymbols, List.pairwise_map]
    exact hg.distinct
  case rules =>
    intro group' hgroup'
    obtain ⟨group, hgroup, hsymbol, hrules⟩ := hall group' hgroup'
    rw [placesOf_congr htable, ← hsymbol, ← hrules]
    exact hg.rules group hgroup
  case inhabited =>
    intro group' hgroup'
    obtain ⟨group, hgroup, -, hrules⟩ := hall group' hgroup'
    exact hrules ▸ hg.inhabited group hgroup
  case owned =>
    intro entry hentry
    have hmem : entry.rule ∈ g.table.toList.map (·.rule) :=
      htable ▸ List.mem_map_of_mem (Array.mem_toList_iff.mpr hentry)
    obtain ⟨old, hold, hrule⟩ := List.mem_map.mp hmem
    obtain ⟨group, hgroup, hsymbol⟩ := hg.owned old (Array.mem_toList_iff.mp hold)
    have hpair := Array.mem_map_of_mem (f := fun group => (group.symbol, group.rules)) hgroup
    rw [← hgroups, Array.mem_map] at hpair
    obtain ⟨group', hgroup', heq⟩ := hpair
    exact ⟨group', hgroup', by rw [(Prod.mk.inj heq).1, hsymbol, hrule]⟩

/-- Every total that follows its rules is right, whatever they weigh. -/
theorem Grouped.reweigh (hg : g.Grouped)
    (htable : g'.table.toList.map (·.rule) = g.table.toList.map (·.rule))
    (hgroups : g'.groups =
      g.groups.map fun group => { group with total := g'.weightSum group.rules }) :
    g'.Coherent := by
  obtain ⟨distinct, rules, inhabited, owned⟩ :=
    hg.congr htable (by simp [hgroups, Function.comp_def])
  refine ⟨distinct, rules, inhabited, ?_, owned⟩
  rw [hgroups]
  intro group' hgroup'
  obtain ⟨group, -, rfl⟩ := Array.mem_map.mp hgroup'
  rfl

theorem readWeights_ok {requirePositive : Bool} {values : List Json} {i : Nat} {weights : List Int}
    (h : readWeights requirePositive i values = .ok weights) :
    weights.length = values.length ∧ (requirePositive = true → ∀ w ∈ weights, 1 ≤ w) := by
  induction values generalizing i weights with
  | nil =>
    cases h
    exact ⟨rfl, fun _ w hw => nomatch hw⟩
  | cons value rest ih =>
    rw [readWeights, bind_ok] at h
    obtain ⟨weight, -, h⟩ := h
    split at h
    · simp at h
    case isFalse hweight =>
      obtain ⟨more, hmore, hweights⟩ := bind_ok.mp h
      cases pure_ok.mp hweights
      obtain ⟨hlength, hpos⟩ := ih hmore
      refine ⟨congrArg (· + 1) hlength, fun hreq w hw => ?_⟩
      rcases List.mem_cons.mp hw with rfl | hw
      · simpa [hreq] using hweight
      · exact hpos hreq w hw

theorem map_rule_reweighed {entries : List RuleEntry} {weights : List Int}
    (h : weights.length = entries.length) :
    (entries.zipWith (fun entry weight => { entry with weight }) weights).map (·.rule) =
      entries.map (·.rule) := by
  induction entries generalizing weights with
  | nil => simp
  | cons entry entries ih =>
    obtain ⟨weight, weights, rfl⟩ := List.exists_cons_of_length_eq_add_one h
    simpa using ih (by simpa using h)

theorem map_weight_reweighed {entries : List RuleEntry} {weights : List Int}
    (h : weights.length = entries.length) :
    (entries.zipWith (fun entry weight => { entry with weight }) weights).map (·.weight) =
      weights := by
  induction entries generalizing weights with
  | nil => simpa using (List.length_eq_zero_iff.mp h).symm
  | cons entry entries ih =>
    obtain ⟨weight, weights, rfl⟩ := List.exists_cons_of_length_eq_add_one h
    simpa using ih (by simpa using h)

theorem importWeights_ok {values : List Json} {requirePositive : Bool}
    (h : g.importWeights values requirePositive = .ok g') :
    ∃ read : List Int, read.length = g.table.size ∧
      (requirePositive = true → ∀ w ∈ read, 1 ≤ w) ∧ g' = g.replaceWeights read := by
  unfold importWeights at h
  split at h
  · simp at h
  case isFalse hlength =>
    obtain ⟨read, hread, rfl⟩ := map_ok.mp h
    obtain ⟨hsize, hpos⟩ := readWeights_ok hread
    exact ⟨read, hsize.trans (Decidable.not_not.mp hlength), hpos, rfl⟩

theorem setWeights_ok {weights : List Int} {requirePositive : Bool}
    (h : g.setWeights weights requirePositive = .ok g') :
    ∃ read : List Int, read.length = g.table.size ∧
      (requirePositive = true → ∀ w ∈ read, 1 ≤ w) ∧ g' = g.replaceWeights read :=
  importWeights_ok h

theorem mem_replaceWeights {weights : List Int} {entry : RuleEntry}
    (h : entry ∈ (g.replaceWeights weights).table) :
    ∃ old ∈ g.table, ∃ weight, entry = { old with weight } := by
  have hzip : entry ∈ g.table.toList.zipWith (fun entry weight => { entry with weight }) weights :=
    by simpa [replaceWeights, syncTotals] using h
  rw [← List.map_uncurry_zip_eq_zipWith] at hzip
  obtain ⟨⟨old, weight⟩, hmem, rfl⟩ := List.mem_map.mp hzip
  exact ⟨old, Array.mem_toList_iff.mp (List.of_mem_zip hmem).1, weight, rfl⟩

theorem Grouped.replaceWeights (hg : g.Grouped) {weights : List Int}
    (h : weights.length = g.table.size) : (g.replaceWeights weights).Coherent :=
  hg.reweigh (map_rule_reweighed (by simpa using h)) rfl

theorem Coherent.setWeights (hg : g.Coherent) {weights : List Int} {requirePositive : Bool}
    (h : g.setWeights weights requirePositive = .ok g') : g'.Coherent := by
  obtain ⟨read, hlength, -, rfl⟩ := setWeights_ok h
  exact hg.grouped.replaceWeights hlength

/-- A vector that was checked leaves every rule with a weight of at least one. -/
theorem one_le_weight_of_setWeights {weights : List Int}
    (h : g.setWeights weights true = .ok g') : ∀ entry ∈ g'.table, 1 ≤ entry.weight := by
  obtain ⟨read, hlength, hpos, rfl⟩ := setWeights_ok h
  intro entry hentry
  refine hpos rfl entry.weight ?_
  have hweights : (g.replaceWeights read).table.toList.map (·.weight) = read :=
    map_weight_reweighed (by simpa using hlength)
  rw [← hweights]
  exact List.mem_map_of_mem (Array.mem_toList_iff.mpr hentry)

/-- Integers are read as they are, without one below one where that is refused. -/
theorem readWeights_int {requirePositive : Bool} {weights : List Int}
    (h : requirePositive = true → ∀ w ∈ weights, 1 ≤ w) (i : Nat) :
    readWeights requirePositive i (weights.map .int) = .ok weights := by
  induction weights generalizing i with
  | nil => rfl
  | cons w weights ih =>
    have hw : ¬(requirePositive && decide (w < 1)) = true := by
      cases requirePositive with
      | false => simp
      | true => simpa using h rfl w List.mem_cons_self
    rw [List.map_cons, readWeights]
    refine bind_ok.mpr ⟨w, rfl, ?_⟩
    rw [if_neg hw, ih fun hrequired v hv => h hrequired v (List.mem_cons_of_mem _ hv)]
    rfl

theorem exists_setWeights {weights : List Int} (hlength : weights.length = g.table.size)
    (h : ∀ w ∈ weights, 1 ≤ w) : ∃ g', g.setWeights weights true = .ok g' := by
  refine ⟨g.replaceWeights weights, ?_⟩
  unfold setWeights importWeights
  rw [if_neg (by simpa [ruleCount] using hlength), readWeights_int fun _ => h]
  rfl

/-! ### Draws -/

theorem reach_of_le {draw : Int} {rules : List Nat} {running : Int} (hlow : running < draw)
    (hhigh : draw ≤ running + g.weightSum rules) :
    ∃ i ∈ rules, g.reach draw rules running = some i := by
  induction rules generalizing running with
  | nil =>
    simp only [weightSum, List.map_nil, List.foldr_nil] at hhigh
    omega
  | cons i rest ih =>
    unfold reach
    by_cases hdraw : draw ≤ running + g.weightAt i
    · exact ⟨i, List.mem_cons_self, if_pos hdraw⟩
    · have hrest : draw ≤ running + g.weightAt i + g.weightSum rest := by
        simp only [weightSum, List.map_cons, List.foldr_cons] at hhigh ⊢
        omega
      obtain ⟨j, hj, hreach⟩ := ih (by omega) hrest
      exact ⟨j, List.mem_cons_of_mem _ hj, (if_neg hdraw).trans hreach⟩

theorem reach_mem {draw running : Int} {rules : List Nat} {i : Nat}
    (h : g.reach draw rules running = some i) : i ∈ rules := by
  induction rules generalizing running with
  | nil => cases h
  | cons k rest ih =>
    unfold reach at h
    dsimp only at h
    split at h
    · cases h
      exact List.mem_cons_self
    · exact List.mem_cons_of_mem _ (ih h)

/-- A draw comes to an index of the group, and to the rule that stands there. -/
theorem randomRuleOf_drawn {ρ : Type} [RandomSource ρ] {group : RuleGroup} {source source' : ρ}
    {choice : RuleChoice} (h : g.randomRuleOf group source = (.ok choice, source')) :
    choice.index ∈ group.rules ∧ g.table[choice.index]? = some choice.entry := by
  unfold randomRuleOf at h
  split at h
  case h_2 => cases h
  case h_1 draw _ _ =>
    obtain ⟨hpick, -⟩ := Prod.mk.inj h
    unfold pick at hpick
    split at hpick
    case h_2 => cases hpick
    case h_1 i hreach =>
      split at hpick
      case h_2 => cases hpick
      case h_1 entry hentry =>
        cases hpick
        exact ⟨reach_mem hreach, hentry⟩

/-- A rule that is drawn is a rule of the group. -/
theorem Grouped.of_randomRuleOf {ρ : Type} [RandomSource ρ] (hg : g.Grouped) {group : RuleGroup}
    (hgroup : group ∈ g.groups) {source source' : ρ} {choice : RuleChoice}
    (h : g.randomRuleOf group source = (.ok choice, source')) :
    g.table[choice.index]? = some choice.entry ∧ choice.entry.rule.left = group.symbol := by
  obtain ⟨hindex, hlisted⟩ := randomRuleOf_drawn h
  obtain ⟨entry, hentry, hleft⟩ := hg.entry_of_mem hgroup hindex
  cases hlisted.symm.trans hentry
  exact ⟨hlisted, hleft⟩

/-- A draw always finds a rule of the group. -/
theorem Coherent.randomRuleOf_ok {ρ : Type} [RandomSource ρ] (hg : g.Coherent)
    (hw : ∀ entry ∈ g.table, 1 ≤ entry.weight) {group : RuleGroup} (hgroup : group ∈ g.groups)
    (source : ρ) : ∃ choice source', g.randomRuleOf group source = (.ok choice, source') := by
  have htotal := hg.one_le_total hw hgroup
  unfold randomRuleOf RandomSource.between
  rw [if_neg (by omega)]
  set drawn := RandomSource.below (group.total - 1).toNat source with hdrawn
  have hlt := drawn.1.isLt
  have hlow : (0 : Int) < 1 + drawn.1.val := by omega
  have hhigh : 1 + (drawn.1.val : Int) ≤ 0 + g.weightSum group.rules := by
    rw [← hg.total group hgroup]
    omega
  obtain ⟨i, hi, hreach⟩ := reach_of_le hlow hhigh
  obtain ⟨entry, hentry, -⟩ := hg.entry_of_mem hgroup hi
  refine ⟨⟨i, entry⟩, drawn.2, ?_⟩
  simp only [pick, hreach, hentry]

end ProbeForge.Grammar
