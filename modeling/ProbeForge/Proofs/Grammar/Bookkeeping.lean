import Mathlib.Data.List.Nodup
import ProbeForge.Consistency.Repair
import ProbeForge.Proofs.Grammar.Reweighing
import ProbeForge.Proofs.Numeric.Rational
import ProbeForge.Random.MersenneTwister

/-!
# Bookkeeping of a grammar

A grammar says several times over which rules it has: in the table, in the groups with their totals,
and by the order of the groups, which numbers the nonterminals. Every call that adds a rule or
writes weights leaves all of it in agreement, whether the call is accepted or refused.
-/

namespace ProbeForge

namespace Grammar

variable {g g' : Grammar}

/-! ### Well kept grammars -/

/-- The table, the groups and the numbers of the nonterminals tell the same. -/
structure WellKept (g : Grammar) : Prop where
  sorted : ∀ group ∈ g.groups, group.rules.Pairwise (· < ·)
  inhabited : ∀ group ∈ g.groups, group.rules ≠ []
  /-- The groups divide the places of the table among them. -/
  partition : (g.groups.toList.flatMap (·.rules)).Perm (List.range g.ruleCount)
  /-- A rule is listed with its left side. -/
  listed : ∀ (k : Nat) (entry : RuleEntry), g.table[k]? = some entry →
    ∃ group, g.group? entry.rule.left = some group ∧ k ∈ group.rules
  /-- Indices and nonterminals stand for each other. -/
  numbered : ∀ (symbol : Symbol) (i : Nat), g.index? symbol = some i ↔ g.symbolAt i = some symbol
  nonterminal : ∀ symbol, g.isNonterminal symbol = true ↔ ∃ i, g.index? symbol = some i
  dense : ∀ i : Nat, i < g.nonterminalCount ↔ ∃ symbol, g.symbolAt i = some symbol
  /-- Nonterminals are numbered in the order of their first rules. -/
  ordered : g.groups.toList.Pairwise fun a b => ∃ i ∈ a.rules, ∀ j ∈ b.rules, i < j
  once : (g.table.toList.map (·.rule)).Nodup
  total : ∀ group ∈ g.groups, group.total = g.weightSum group.rules

theorem pairwise_placesOf (table : Array RuleEntry) (left : Symbol) :
    (placesOf table left).Pairwise (· < ·) :=
  List.pairwise_lt_range.filter _

theorem Grouped.nodup_rules (hg : g.Grouped) {group : RuleGroup} (hgroup : group ∈ g.groups) :
    group.rules.Nodup := by
  rw [hg.rules group hgroup]
  exact (pairwise_placesOf _ _).imp Nat.ne_of_lt

theorem symbolAt_natCast (g : Grammar) (i : Nat) :
    g.symbolAt i = g.groups[i]?.map (·.symbol) := by
  have hi : ¬ (i : Int) < 0 := by omega
  simp [symbolAt, hi]

theorem Grouped.index?_eq_some_iff (hg : g.Grouped) {symbol : Symbol} {i : Nat} :
    g.index? symbol = some i ↔ g.symbolAt i = some symbol := by
  rw [symbolAt_natCast, index?, Array.findIdx?_eq_some_iff_getElem, Option.map_eq_some_iff]
  constructor
  · rintro ⟨hi, hsymbol, -⟩
    exact ⟨g.groups[i], Array.getElem?_eq_getElem hi, by simpa using hsymbol⟩
  · rintro ⟨group, hgroup, rfl⟩
    obtain ⟨hi, rfl⟩ := Array.getElem?_eq_some_iff.mp hgroup
    refine ⟨hi, by simp, fun j hj hsame => ?_⟩
    have hne := List.pairwise_iff_getElem.mp hg.distinct j i (by simp; omega) (by simpa using hi) hj
    exact hne (by simpa using hsame)

/-- The groups divide the places of the table, since each rule has one left side. -/
theorem Grouped.perm_range (hg : g.Grouped) :
    (g.groups.toList.flatMap (·.rules)).Perm (List.range g.ruleCount) := by
  have hnodup : (g.groups.toList.flatMap (·.rules)).Nodup := by
    refine List.nodup_flatMap.mpr
      ⟨fun group hgroup => hg.nodup_rules (Array.mem_toList_iff.mp hgroup), ?_⟩
    refine hg.distinct.imp_of_mem fun {a b} ha hb hne => ?_
    change List.Disjoint a.rules b.rules
    refine List.disjoint_left.mpr fun k hka hkb => hne ?_
    rw [hg.eq_of_mem_rules (Array.mem_toList_iff.mp ha) hka (Array.mem_toList_iff.mp hb) hkb]
  refine (List.perm_ext_iff_of_nodup hnodup List.nodup_range).mpr fun k => ?_
  rw [List.mem_flatMap, List.mem_range]
  constructor
  · rintro ⟨group, hgroup, hk⟩
    exact hg.lt_of_mem_rules (Array.mem_toList_iff.mp hgroup) hk
  · intro hk
    obtain ⟨group, hgroup, hmem⟩ := hg.exists_group hk
    exact ⟨group, Array.mem_toList_iff.mpr hgroup, hmem⟩

/-- A coherent grammar without repeated rules, its groups in the order of their first rules. -/
structure Orderly (g : Grammar) : Prop where
  coherent : g.Coherent
  ordered : g.groups.toList.Pairwise fun a b => ∃ i ∈ a.rules, ∀ j ∈ b.rules, i < j
  once : (g.table.toList.map (·.rule)).Nodup

theorem Orderly.wellKept (h : g.Orderly) : g.WellKept := by
  have hg := h.coherent.grouped
  constructor
  case sorted =>
    intro group hgroup
    rw [hg.rules group hgroup]
    exact pairwise_placesOf _ _
  case inhabited => exact hg.inhabited
  case partition => exact hg.perm_range
  case listed =>
    intro k entry hentry
    obtain ⟨group, hgroup, hsymbol⟩ := hg.owned entry (Array.mem_of_getElem? hentry)
    exact ⟨group, hsymbol ▸ hg.group?_eq hgroup,
      (hg.mem_rules_iff hgroup).mpr ⟨entry, hentry, hsymbol.symm⟩⟩
  case numbered => exact fun symbol i => hg.index?_eq_some_iff
  case nonterminal =>
    intro symbol
    rw [isNonterminal_iff]
    simp only [hg.index?_eq_some_iff, symbolAt_natCast, Option.map_eq_some_iff]
    constructor
    · rintro ⟨group, hgroup, hsymbol⟩
      obtain ⟨i, hi⟩ := Array.getElem?_of_mem hgroup
      exact ⟨i, group, hi, hsymbol⟩
    · rintro ⟨i, group, hi, hsymbol⟩
      exact ⟨group, Array.mem_of_getElem? hi, hsymbol⟩
  case dense =>
    intro i
    simp only [symbolAt_natCast, Option.map_eq_some_iff, nonterminalCount]
    refine ⟨fun hi => ⟨_, _, Array.getElem?_eq_getElem hi, rfl⟩, ?_⟩
    rintro ⟨-, group, hgroup, -⟩
    exact (Array.getElem?_eq_some_iff.mp hgroup).1
  case ordered => exact h.ordered
  case once => exact h.once
  case total => exact h.coherent.total

/-! ### Calls -/

theorem orderly_empty (name : Json) : (empty name).Orderly :=
  ⟨coherent_empty name, List.Pairwise.nil, List.nodup_nil⟩

/-- A rule that is new comes after all others, in its group and in the table. -/
theorem Orderly.addRule (hg : g.Orderly) {rule : Rule} {weight : Int}
    {generator representer : Json} (h : g.addRule rule weight generator representer = .ok g') :
    g'.Orderly := by
  refine ⟨hg.coherent.addRule h, ?_, ?_⟩
  all_goals obtain ⟨-, hnew, rfl⟩ := addRule_ok h
  · have hlt : ∀ group ∈ g.groups, ∀ i ∈ group.rules, i < g.table.size := fun group hgroup i hi =>
      hg.coherent.grouped.lt_of_mem_rules hgroup hi
    -- the rule is the last of its group, or its group is the last
    by_cases hmem : ∃ group ∈ g.groups, group.symbol = rule.left
    · simp only [joinGroup_of_mem hg.coherent.distinct hmem, Array.toList_map, List.pairwise_map]
      refine hg.ordered.imp_of_mem fun {a b} ha hb => ?_
      rintro ⟨i, hi, hbefore⟩
      have hi' := hlt a (Array.mem_toList_iff.mp ha) i hi
      refine ⟨i, ?_, fun j hj => ?_⟩
      · split
        · exact List.mem_append_left _ hi
        · exact hi
      · split at hj
        · rcases List.mem_append.mp hj with hj | hj
          · exact hbefore j hj
          · rwa [List.mem_singleton.mp hj]
        · exact hbefore j hj
    · simp only [joinGroup_of_not_mem fun group hgroup heq => hmem ⟨group, hgroup, heq⟩,
        Array.toList_push]
      refine List.pairwise_append.mpr ⟨hg.ordered, List.pairwise_singleton _ _, ?_⟩
      intro a ha b hb
      cases List.mem_singleton.mp hb
      have ha := Array.mem_toList_iff.mp ha
      obtain ⟨i, hi⟩ := List.exists_mem_of_ne_nil _ (hg.coherent.inhabited a ha)
      refine ⟨i, hi, fun j hj => ?_⟩
      rw [List.mem_singleton.mp hj]
      exact hlt a ha i hi
  · rw [Array.toList_push, List.map_append, List.nodup_append]
    refine ⟨hg.once, List.nodup_singleton _, ?_⟩
    intro old hold added hadded heq
    obtain ⟨entry, hentry, rfl⟩ := List.mem_map.mp hold
    refine hnew entry (Array.mem_toList_iff.mp hentry) ?_
    simpa using heq.trans (List.mem_singleton.mp hadded)

/-- Weights are none of the business of the order of rules. -/
theorem Orderly.replaceWeights (hg : g.Orderly) {weights : List Int}
    (h : weights.length = g.table.size) : (g.replaceWeights weights).Orderly := by
  refine ⟨hg.coherent.grouped.replaceWeights h, ?_, ?_⟩
  · rw [groups_replaceWeights, Array.toList_map, List.pairwise_map]
    exact hg.ordered
  · have hrules : (g.replaceWeights weights).table.toList.map (·.rule) =
        g.table.toList.map (·.rule) := map_rule_reweighed (by simpa using h)
    rw [hrules]
    exact hg.once

theorem Orderly.importWeights (hg : g.Orderly) {values : List Json} {requirePositive : Bool}
    (h : g.importWeights values requirePositive = .ok g') : g'.Orderly := by
  obtain ⟨read, hlength, -, rfl⟩ := importWeights_ok h
  exact hg.replaceWeights hlength

theorem Orderly.setRuleWeight (hg : g.Orderly) {i : Int} {weight : Json}
    (h : g.setRuleWeight i weight = .ok g') : g'.Orderly := by
  obtain ⟨k, weight, -, -, rfl⟩ := hg.coherent.of_setRuleWeight h
  exact hg.replaceWeights (g.length_set_weights k weight)

theorem Orderly.updateGene (hg : g.Orderly) (gene : Gene) : (g.updateGene gene).2.Orderly := by
  rcases hg.coherent.updateGene_cases gene with ⟨fault, h⟩ | ⟨group, -, -, h⟩
  · rwa [h]
  · rw [h]
    exact hg.replaceWeights (by rw [length_overwrite, length_weights]; rfl)

/-! ### Repairs -/

/-- What a grammar does not lose when weights are written, all of them or one by one. -/
structure Lasting (P : Grammar → Prop) : Prop where
  importWeights : ∀ {g g' : Grammar} {values : List Json} {requirePositive : Bool}, P g →
    g.importWeights values requirePositive = .ok g' → P g'
  setRuleWeight : ∀ {g g' : Grammar} {i : Int} {weight : Json}, P g →
    g.setRuleWeight i weight = .ok g' → P g'

theorem lasting_orderly : Lasting Orderly :=
  ⟨fun hg h => hg.importWeights h, fun hg h => hg.setRuleWeight h⟩

variable {α : Type} [Scalar α] {P : Grammar → Prop}

theorem Lasting.normalize (hP : Lasting P) (hg : P g) {target : Quantity α}
    (h : g.normalize target = .ok g') : P g' := by
  obtain ⟨weights, -, hset⟩ := bind_ok.mp h
  exact hP.importWeights hg hset

end Grammar

namespace Repair

open Tuning Grammar

variable {α ρ β : Type} {n r : Nat} {P : Grammar → Prop}

/-- An attempt that keeps something of the grammar, at whatever point it stops. -/
abbrev Keeps (P : Grammar → Prop) (x : Attempt (Tuning ρ) β) : Prop :=
  Maintains (fun s => P s.grammar) x

theorem keeps_current : Keeps P (current (ρ := ρ)) := fun _ hs => hs

theorem keeps_draw (f : ρ → β × ρ) : Keeps P (draw f) := fun _ hs => hs

theorem keeps_report (radius : α) (withinBound : Bool) (attempts : Int) (exhausted : Bool) :
    Keeps P (report (ρ := ρ) radius withinBound attempts exhausted) := fun _ hs => hs

theorem keeps_change {f : Grammar → Except Fault Grammar}
    (hf : ∀ g g', P g → f g = .ok g' → P g') : Keeps P (change (ρ := ρ) f) := by
  intro s hs
  unfold after change
  cases hrun : f s.grammar with
  | ok g => exact hf _ g hs hrun
  | error fault => exact hs

variable [Scalar α]

theorem keeps_radiusOf (gauge : Gauge α n) : Keeps P (radiusOf (ρ := ρ) gauge r) := by
  intro s hs
  unfold after radiusOf
  cases s.grammar.matricesOf (α := α) n r <;> exact hs

theorem keeps_normalize (hP : Lasting P) (target : Quantity α) :
    Keeps P (change (ρ := ρ) (Grammar.normalize · target)) :=
  keeps_change fun _ _ hg h => hP.normalize hg h

theorem keeps_setRuleWeight (hP : Lasting P) (rule : Int) (weight : Json) :
    Keeps P (change (ρ := ρ) (·.setRuleWeight rule weight)) :=
  keeps_change fun _ _ hg h => hP.setRuleWeight hg h

theorem keeps_finish (hP : Lasting P) (gauge : Gauge α n) (goal : RepairGoal α) (radius : α)
    (attempt : Int) : Keeps P (finish (ρ := ρ) gauge r goal radius attempt) := by
  refine keeps_current.bind fun g => (keeps_normalize hP _).bind fun _ =>
    (keeps_radiusOf gauge).bind fun normal => ?_
  split
  · exact keeps_report _ _ _ _
  · exact (keeps_change fun _ _ hg h => hP.importWeights hg h).bind fun _ => keeps_report _ _ _ _

variable [RandomSource ρ]

theorem keeps_attempts (hP : Lasting P) (gauge : Gauge α n) (goal : RepairGoal α) (budget : Int)
    (first : Fin n × Fin n) (rest : List (Fin n × Fin n)) (left : Nat) (done : Int)
    (m : ProductionMatrices α n r) (old shrink : α) :
    Keeps P (attempts (ρ := ρ) gauge goal budget first rest left done m old shrink) := by
  induction left generalizing done m old shrink with
  | zero => exact keeps_report _ _ _ _
  | succ left ih =>
    refine (keeps_draw _).bind fun (i, j) => keeps_current.bind fun g => ?_
    split
    · exact maintains_throw _
    · refine keeps_current.bind fun g => (maintains_lift _).bind fun lower =>
        (keeps_setRuleWeight hP _ _).bind fun _ => keeps_current.bind fun g =>
          (maintains_lift _).bind fun lowered => ?_
      dsimp only
      split
      · exact keeps_finish hP _ _ _ _
      · split
        · exact (keeps_setRuleWeight hP _ _).bind fun _ => ih _ _ _ _
        · exact ih _ _ _ _

theorem keeps_run (hP : Lasting P) (gauge : Gauge α n) (plan : RepairPlan α) :
    Keeps P (run (ρ := ρ) gauge r plan) := by
  refine (maintains_lift _).bind fun target => (keeps_normalize hP _).bind fun _ =>
    (keeps_radiusOf gauge).bind fun radius => (maintains_lift _).bind fun bound => ?_
  split
  · exact keeps_report _ _ _ _
  · split
    · exact keeps_report _ _ _ _
    · refine keeps_current.bind fun g => (maintains_lift _).bind fun m =>
        keeps_current.bind fun g => ?_
      split
      · exact keeps_report _ _ _ _
      · exact (maintains_lift _).bind fun budget => keeps_attempts hP _ _ _ _ _ _ _ _ _ _

end Repair

namespace Grammar

variable {α : Type} [Scalar α] {ρ : Type} [RandomSource ρ] {g : Grammar} {P : Grammar → Prop}

theorem Lasting.repairBy (hP : Lasting P) (hg : P g) (gauge : (n : Nat) → Gauge α n)
    (weights : Json) (plan : RepairPlan α) (source : ρ) :
    P (g.repairBy gauge weights plan source).2.grammar := by
  unfold Grammar.repairBy
  split
  · exact hg
  case h_2 given hgiven =>
    have hread : P given := by
      split at hgiven
      · cases hgiven
        exact hg
      · obtain ⟨values, -, hset⟩ := bind_ok.mp hgiven
        exact hP.importWeights hg hset
    have hafter := Repair.keeps_run hP (gauge given.nonterminalCount) (r := given.ruleCount) plan
      ⟨given, source⟩ hread
    unfold after at hafter
    split at hafter <;> rename_i hrun <;> rw [hrun] <;> exact hafter

/-! ### Histories -/

/-- A call on a grammar with the weights of rules given as integers. -/
inductive Call (α ρ : Type) where
  | addRule (rule : Rule) (weight : Int) (generator representer : Json)
  | setWeights (weights : List Int) (requirePositive : Bool)
  | setRuleWeight (place weight : Int)
  | updateGene (gene : Gene)
  | normalize (target : Quantity α)
  | repair (weights : Option (List Int)) (plan : RepairPlan α) (source : ρ)

/-- The grammar as a call leaves it. A call that is refused may have changed it before. -/
def Call.apply (gauge : (n : Nat) → Gauge α n) (g : Grammar) : Call α ρ → Grammar
  | addRule rule weight generator representer =>
    (g.addRule rule weight generator representer).toOption.getD g
  | setWeights weights requirePositive => (g.setWeights weights requirePositive).toOption.getD g
  | setRuleWeight place weight => (g.setRuleWeight place (.int weight)).toOption.getD g
  | updateGene gene => (g.updateGene gene).2
  | normalize target => (g.normalize target).toOption.getD g
  | repair weights plan source =>
    (g.repairBy gauge (weights.elim .null fun weights => .list (weights.map .int)) plan
      source).2.grammar

/-- What happens to the grammars that are about: one of them is called or copied. -/
inductive Action (α ρ : Type) where
  | apply (k : Nat) (call : Call α ρ)
  | copy (k : Nat)

def Action.run (gauge : (n : Nat) → Gauge α n) (grammars : List Grammar) :
    Action α ρ → List Grammar
  | apply k call => grammars.modify k (call.apply gauge ·)
  | copy k => grammars ++ grammars[k]?.toList

theorem Orderly.of_refused (hg : g.Orderly) {x : Except Fault Grammar}
    (h : ∀ g', x = .ok g' → g'.Orderly) : (x.toOption.getD g).Orderly := by
  cases x with
  | ok g' => exact h g' rfl
  | error fault => exact hg

theorem Orderly.apply (hg : g.Orderly) (gauge : (n : Nat) → Gauge α n) (call : Call α ρ) :
    (call.apply gauge g).Orderly := by
  cases call with
  | addRule rule weight generator representer => exact hg.of_refused fun _ h => hg.addRule h
  | setWeights weights requirePositive => exact hg.of_refused fun _ h => hg.importWeights h
  | setRuleWeight place weight => exact hg.of_refused fun _ h => hg.setRuleWeight h
  | updateGene gene => exact hg.updateGene gene
  | normalize target => exact hg.of_refused fun _ h => lasting_orderly.normalize hg h
  | repair weights plan source => exact lasting_orderly.repairBy hg gauge _ plan source

theorem orderly_run (gauge : (n : Nat) → Gauge α n) {grammars : List Grammar}
    (hall : ∀ g ∈ grammars, g.Orderly) (action : Action α ρ) :
    ∀ g ∈ action.run gauge grammars, g.Orderly := by
  intro g hg
  cases action with
  | apply k call =>
    obtain ⟨i, hi⟩ := List.getElem?_of_mem hg
    rw [Action.run, List.getElem?_modify] at hi
    obtain ⟨old, hold, rfl⟩ := Option.map_eq_some_iff.mp hi
    have hold := hall old (List.mem_of_getElem? hold)
    split
    · exact hold.apply gauge call
    · exact hold
  | copy k =>
    rcases List.mem_append.mp (show g ∈ grammars ++ grammars[k]?.toList from hg) with hg | hg
    · exact hall g hg
    · exact hall g (List.mem_of_getElem? (Option.mem_toList.mp hg))

/-- Whatever is done to an empty grammar and to copies of it, accepted or refused, every grammar is
well kept. -/
theorem wellKept_of_history (gauge : (n : Nat) → Gauge α n) (name : Json)
    (history : List (Action α ρ)) :
    ∀ g ∈ history.foldl (Action.run gauge) [.empty name], g.WellKept := by
  have hstart : ∀ g ∈ [Grammar.empty name], g.Orderly := fun g hg =>
    List.mem_singleton.mp hg ▸ orderly_empty name
  generalize [Grammar.empty name] = grammars at hstart ⊢
  induction history generalizing grammars with
  | nil => exact fun g hg => (hstart g hg).wellKept
  | cons action history ih => exact ih _ (orderly_run gauge hstart action)

/-- A rule is added and gets a negative weight, it is added again in vain, and the grammar is
copied. -/
theorem wellKept_of_history_copied :
    let rule : Rule := ⟨⟨"S"⟩, [⟨"S"⟩]⟩
    let history : List (Action ℚ MersenneTwister) := [.apply 0 (.addRule rule 2 .null .null),
      .apply 0 (.setRuleWeight 0 (-3)), .apply 0 (.addRule rule 1 .null .null), .copy 0]
    ∃ g, g ∈ history.foldl (Action.run fun _ => .standard) [.empty .null] ∧
      g.groups = #[⟨⟨"S"⟩, -3, [0]⟩] ∧ g.WellKept := by
  intro rule history
  have hmem : ∃ g rest,
      history.foldl (Action.run fun _ => .standard) [.empty .null] = g :: rest ∧
        g.groups = #[⟨⟨"S"⟩, -3, [0]⟩] := ⟨_, _, rfl, by decide +kernel⟩
  obtain ⟨g, rest, hgrammars, hgroups⟩ := hmem
  have hg : g ∈ history.foldl (Action.run fun _ => .standard) [.empty .null] :=
    hgrammars ▸ List.mem_cons_self
  exact ⟨g, hg, hgroups, wellKept_of_history _ _ history g hg⟩

end Grammar

end ProbeForge
