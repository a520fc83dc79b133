import ProbeForge.Proofs.Grammar.Refusals

/-!
# Positive weights

Rules are added with weights of at least one, and a vector that is checked has no others. A single
weight and a gene are written unseen. So every weight of a grammar stays positive, and every
nonterminal can be drawn from, just as long as no value below one is written in either of these two
ways.
-/

namespace ProbeForge.Grammar

variable {g g' : Grammar}

/-! ### Grammars under assignments -/

/-- A grammar that rules were added to. Names, texts and the start symbol are not looked at. -/
inductive Built : Grammar → Prop where
  | empty (name : Json) : Built (.empty name)
  | addRule {g g' : Grammar} {rule : Rule} {weight : Int} {generator representer : Json}
    (before : Built g) (added : g.addRule rule weight generator representer = .ok g') : Built g'
  | relabelled {g g' : Grammar} (before : Built g) (table : g'.table = g.table)
    (groups : g'.groups = g.groups) : Built g'

/-- A call that gives weights to rules: to all, to one, or to those of one nonterminal. -/
inductive Assignment where
  | vector (weights : List Int)
  | single (place weight : Int)
  | gene (written : Gene)

def Assignment.run (g : Grammar) : Assignment → Option Fault × Grammar
  | vector weights => g.unlessRefused (g.setWeights weights true)
  | single place weight => g.unlessRefused (g.setRuleWeight place (.int weight))
  | gene written => g.updateGene written

/-- The weights that an assignment writes without looking at them. -/
def Assignment.unchecked : Assignment → List Int
  | vector _ => []
  | single _ weight => [weight]
  | gene written => written.weights

/-- The grammar after assignments, accepted or refused. -/
def assigned (g : Grammar) (history : List Assignment) : Grammar :=
  history.foldl (fun g a => (a.run g).2) g

@[simp] theorem assigned_nil (g : Grammar) : g.assigned [] = g := rfl

@[simp] theorem assigned_cons (g : Grammar) (a : Assignment) (history : List Assignment) :
    g.assigned (a :: history) = (a.run g).2.assigned history := rfl

def Positive (g : Grammar) : Prop := ∀ w ∈ g.weights, 1 ≤ w

/-- Weights are positive, no total is zero, and every nonterminal can be drawn from. -/
structure Usable (ρ : Type) [RandomSource ρ] (g : Grammar) : Prop where
  positive : g.Positive
  total : ∀ group ∈ g.groups, group.total ≠ 0
  selects : ∀ symbol, g.isNonterminal symbol = true → ∀ source : ρ, ∃ choice rest,
    g.randomRule symbol source = (.ok choice, rest)

theorem Coherent.usable {ρ : Type} [RandomSource ρ] (hg : g.Coherent) (hpos : g.Positive) :
    g.Usable ρ := by
  refine ⟨hpos, ?_, ?_⟩
  · intro group hgroup hzero
    have htotal := hg.one_le_total (forall_mem_weights.mp hpos) hgroup
    omega
  · intro symbol hsymbol source
    obtain ⟨group, hgroup⟩ := Option.isSome_iff_exists.mp hsymbol
    obtain ⟨choice, rest, hdraw⟩ :=
      hg.randomRuleOf_ok (forall_mem_weights.mp hpos) (group?_mem hgroup).1 source
    exact ⟨choice, rest, by simp [randomRule, hgroup, hdraw]⟩

theorem built_ofRules {name : Json} {rules : List (Rule × Int)} (h : ofRules name rules = .ok g) :
    g.Built :=
  foldlM_ok (fun _ _ _ _ hadd hbuilt => hbuilt.addRule hadd) h (.empty name)

theorem Built.coherent (h : Built g) : g.Coherent := by
  induction h with
  | empty name => exact coherent_empty name
  | addRule _ added ih => exact ih.addRule added
  | relabelled _ table groups ih => exact ih.congr table groups

theorem Built.positive (h : Built g) : g.Positive := by
  induction h with
  | empty name => simp [Positive, weights, Grammar.empty]
  | addRule _ added ih =>
    obtain ⟨hweight, -, rfl⟩ := addRule_ok added
    refine forall_mem_weights.mpr fun entry hentry => ?_
    rcases Array.mem_push.mp hentry with hentry | rfl
    · exact forall_mem_weights.mp ih entry hentry
    · exact hweight
  | relabelled _ table _ ih => simpa only [Positive, weights, table] using ih

/-! ### Steps -/

theorem positive_replaceWeights {read : List Int} (h : read.length = g.ruleCount) :
    (g.replaceWeights read).Positive ↔ ∀ w ∈ read, 1 ≤ w := by
  simp only [Positive, weights_replaceWeights h]

/-- Positive weights are still positive when one is written over just if the new one is. -/
theorem forall_mem_set {ws : List Int} (hws : ∀ w ∈ ws, 1 ≤ w) {k : Nat} (hk : k < ws.length)
    (weight : Int) : (∀ w ∈ ws.set k weight, 1 ≤ w) ↔ 1 ≤ weight := by
  constructor
  · intro h
    exact h weight (List.mem_set hk weight)
  · intro hweight w hw
    rcases List.mem_or_eq_of_mem_set hw with hw | rfl
    · exact hws w hw
    · exact hweight

theorem forall_mem_overwrite {ws values : List Int} (hws : ∀ w ∈ ws, 1 ≤ w) {rules : List Nat}
    (hnodup : rules.Nodup) (hrules : ∀ i ∈ rules, i < ws.length)
    (hlength : values.length = rules.length) :
    (∀ w ∈ overwrite rules values ws, 1 ≤ w) ↔ ∀ w ∈ values, 1 ≤ w := by
  constructor
  · intro h w hw
    -- the rule that the value is meant for holds it in the end
    obtain ⟨k, hk⟩ := List.getElem?_of_mem hw
    have hlt : k < rules.length := hlength ▸ (List.getElem?_eq_some_iff.mp hk).1
    have hrule := List.getElem?_eq_getElem hlt
    have hplace := hrules _ (List.getElem_mem hlt)
    have hwritten := getElem?_overwrite_of_getElem? hnodup hrule values ws
    rw [List.getElem?_eq_getElem hplace] at hwritten
    exact h w (List.mem_of_getElem? (by simpa [List.getD_eq_getElem?_getD, hk] using hwritten))
  · intro h w hw
    rcases mem_overwrite hw with hw | hw
    · exact hws w hw
    · exact h w hw

/-- One assignment leaves the weights positive just if it is refused or writes nothing below one
unseen. -/
theorem Coherent.run_positive_iff (hg : g.Coherent) (hpos : g.Positive) (a : Assignment) :
    (a.run g).2.Coherent ∧
      ((a.run g).2.Positive ↔ ((a.run g).1 = none → ∀ w ∈ a.unchecked, 1 ≤ w)) := by
  cases a with
  | vector ws =>
    cases hset : g.setWeights ws true with
    | error fault => simp [Assignment.run, hset, unlessRefused, hg, hpos]
    | ok g' =>
      obtain ⟨read, hlength, hread, rfl⟩ := setWeights_ok hset
      have hpositive := (positive_replaceWeights hlength).mpr (hread rfl)
      simp [Assignment.run, hset, unlessRefused, Assignment.unchecked, hpositive,
        hg.grouped.replaceWeights hlength]
  | single place weight =>
    cases hset : g.setRuleWeight place (.int weight) with
    | error fault => simp [Assignment.run, hset, unlessRefused, hg, hpos]
    | ok g' =>
      obtain ⟨k, _, hk, hweight, rfl⟩ := hg.of_setRuleWeight hset
      cases hweight
      have hlength := g.length_set_weights k weight
      have hk : k < g.weights.length := by rwa [length_weights]
      simp [Assignment.run, hset, unlessRefused, Assignment.unchecked,
        positive_replaceWeights hlength, forall_mem_set hpos hk,
        hg.grouped.replaceWeights hlength]
  | gene written =>
    rcases hg.updateGene_cases written with ⟨fault, hrun⟩ | ⟨group, hgroup, hfits, hrun⟩
    · simp [Assignment.run, hrun, hg, hpos]
    · have hmem := (group?_mem hgroup).1
      have hlength : (overwrite group.rules written.weights g.weights).length = g.ruleCount := by
        rw [length_overwrite, length_weights]
      have hrules : ∀ i ∈ group.rules, i < g.weights.length := fun i hi => by
        rw [length_weights]
        exact hg.grouped.lt_of_mem_rules hmem hi
      simp [Assignment.run, hrun, Assignment.unchecked, positive_replaceWeights hlength,
        forall_mem_overwrite hpos (hg.grouped.nodup_rules hmem) hrules hfits,
        hg.grouped.replaceWeights hlength]

/-! ### Histories -/

theorem forall_prefix_cons {α : Type} {P : List α → Prop} {a : α} {l : List α} :
    (∀ past, past <+: a :: l → P past) ↔ P [] ∧ ∀ past, past <+: l → P (a :: past) := by
  simp only [List.prefix_cons_iff]
  constructor
  · intro h
    exact ⟨h [] (.inl rfl), fun past hpast => h _ (.inr ⟨past, rfl, hpast⟩)⟩
  · rintro ⟨hnil, hcons⟩ past (rfl | ⟨past, rfl, hpast⟩)
    · exact hnil
    · exact hcons past hpast

/-- What holds of every step, with the steps before it, holds of the first and of all others. -/
theorem forall_step_cons {α : Type} {P : List α → α → Prop} {a : α} {l : List α} :
    (∀ past b, past ++ [b] <+: a :: l → P past b) ↔
      P [] a ∧ ∀ past b, past ++ [b] <+: l → P (a :: past) b := by
  constructor
  · intro h
    exact ⟨h [] a (by simp), fun past b hpast => h (a :: past) b (by simpa using hpast)⟩
  · rintro ⟨hfirst, hrest⟩ past b hpast
    cases past with
    | nil =>
      obtain rfl : b = a := by simpa using hpast
      exact hfirst
    | cons c past =>
      obtain ⟨rfl, htail⟩ := List.cons_prefix_cons.mp hpast
      exact hrest past b htail

variable {ρ : Type} [RandomSource ρ]

theorem Coherent.forall_usable_iff (hg : g.Coherent) (hpos : g.Positive)
    (history : List Assignment) :
    (∀ past, past <+: history → (g.assigned past).Usable ρ) ↔
      ∀ past a, past ++ [a] <+: history → (a.run (g.assigned past)).1 = none →
        ∀ w ∈ a.unchecked, 1 ≤ w := by
  induction history generalizing g with
  | nil => simp [hg.usable hpos]
  | cons a history ih =>
    obtain ⟨hcoherent, hstep⟩ := hg.run_positive_iff hpos a
    rw [forall_prefix_cons, forall_step_cons]
    simp only [assigned_nil, assigned_cons, ← hstep, hg.usable hpos, true_and]
    -- a weight that is lost is missed at once, before the next call could replace it
    constructor
    · intro h
      have hpositive := (h [] List.nil_prefix).positive
      exact ⟨hpositive, (ih hcoherent hpositive).mp h⟩
    · rintro ⟨hpositive, hrest⟩
      exact (ih hcoherent hpositive).mpr hrest

/-- Whatever is assigned to a grammar, its weights stay positive, no total becomes zero and every
nonterminal can be drawn from, exactly as long as no single weight and no gene that is accepted has
a value below one. -/
theorem stays_usable_iff (hg : g.Built) (history : List Assignment) :
    (∀ past, past <+: history → (g.assigned past).Usable ρ) ↔
      ∀ past a, past ++ [a] <+: history → (a.run (g.assigned past)).1 = none →
        ∀ w ∈ a.unchecked, 1 ≤ w :=
  hg.coherent.forall_usable_iff hg.positive history

/-- A nonterminal with one rule. -/
def lone : Grammar :=
  (ofRules .null [(⟨⟨"S"⟩, [⟨"a"⟩]⟩, 1)]).toOption.getD (.empty .null)

theorem built_lone : lone.Built := by
  obtain ⟨g, hg⟩ := exists_of_isOk (x := ofRules .null [(⟨⟨"S"⟩, [⟨"a"⟩]⟩, 1)]) (by decide +kernel)
  have hlone : lone = g := by simp [lone, hg, Except.toOption]
  exact hlone ▸ built_ofRules hg

/-- Both gene and vector ask for a weight of zero, but the one has a weight too many and the other
is checked. -/
theorem stays_usable_lone :
    let history : List Assignment := [.single 0 7, .gene ⟨⟨"S"⟩, [0, 0]⟩, .vector [0],
      .gene ⟨⟨"S"⟩, [3]⟩]
    lone.Built ∧ ∀ past, past <+: history → (lone.assigned past).Usable MersenneTwister := by
  intro history
  refine ⟨built_lone, (stays_usable_iff built_lone history).mpr ?_⟩
  simp only [history, forall_step_cons]
  refine ⟨by decide +kernel, by decide +kernel, by decide +kernel, by decide +kernel, ?_⟩
  simp

/-- A zero that is written alone or as a gene is taken, and then nothing can be drawn. -/
theorem not_usable_weightless :
    lone.Built ∧ ∀ a ∈ [Assignment.single 0 0, .gene ⟨⟨"S"⟩, [0]⟩],
      let g := lone.assigned [a]
      ¬g.Positive ∧ (∃ group ∈ g.groups, group.total = 0) ∧
        ∀ source : MersenneTwister, (g.randomRule ⟨"S"⟩ source).1.isOk = false := by
  refine ⟨built_lone, fun a ha => ?_⟩
  have hgroup : (lone.assigned [a]).group? ⟨"S"⟩ = some ⟨⟨"S"⟩, 0, [0]⟩ := by
    revert a
    decide +kernel
  have hweights : (lone.assigned [a]).weights = [0] := by
    revert a
    decide +kernel
  intro g
  refine ⟨?_, ⟨_, (group?_mem hgroup).1, rfl⟩, ?_⟩
  · intro hpos
    exact absurd (hpos 0 (hweights ▸ List.mem_singleton_self 0)) (by decide)
  · intro source
    have hgroup : g.group? ⟨"S"⟩ = some ⟨⟨"S"⟩, 0, [0]⟩ := hgroup
    simp [randomRule, hgroup, randomRuleOf, RandomSource.between, Except.isOk, Except.toBool]

end ProbeForge.Grammar
