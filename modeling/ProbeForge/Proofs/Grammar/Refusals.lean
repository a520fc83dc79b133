import ProbeForge.Proofs.Grammar.Bookkeeping

/-!
# Refused calls

A call that is handed something else than weights may be refused. It has then changed nothing,
unless it was writing a gene: the weights before the one that could not be read stay written, and
the total of the nonterminal is out of date until its weights are written as a whole again.
-/

namespace ProbeForge.Grammar

variable {g g' : Grammar}

/-! ### Requests -/

/-- A call with values of any kind in place of weights. -/
inductive Request where
  | addRule (rule : Option Rule) (weight generator representer : Json)
  | vector (values : Json) (requirePositive : Bool)
  | single (place : Int) (weight : Json)
  | gene (symbol : Symbol) (values : Json)

/-- A change that is refused is not made. -/
def unlessRefused (g : Grammar) : Except Fault Grammar → Option Fault × Grammar
  | .ok g' => (none, g')
  | .error fault => (some fault, g)

/-- The grammar as a request leaves it, with the fault if it is refused. -/
def Request.run (g : Grammar) : Request → Option Fault × Grammar
  | addRule rule weight generator representer =>
    g.unlessRefused (g.addRuleValue rule weight generator representer)
  | vector values requirePositive => g.unlessRefused (g.importValue values requirePositive)
  | single place weight => g.unlessRefused (g.setRuleWeight place weight)
  | gene symbol values => g.updateGeneValue symbol values

theorem unlessRefused_none {x : Except Fault Grammar} :
    g.unlessRefused x = (none, g') ↔ x = .ok g' := by
  cases x <;> simp [unlessRefused]

theorem unlessRefused_some {x : Except Fault Grammar} {fault : Fault} :
    g.unlessRefused x = (some fault, g') ↔ x = .error fault ∧ g' = g := by
  cases x <;> simp [unlessRefused, eq_comm]

/-- What a change does not lose is there whether or not the change is refused. -/
theorem unlessRefused_snd {P : Grammar → Prop} {x : Except Fault Grammar} (hg : P g)
    (h : ∀ g', x = .ok g' → P g') : P (g.unlessRefused x).2 := by
  cases x with
  | ok g' => exact h g' rfl
  | error fault => exact hg

/-! ### Skeletons -/

theorem skeleton_setWeightAt (g : Grammar) (table : Array RuleEntry) (i : Nat) (weight : Int) :
    skeleton { g with table := setWeightAt table i weight } = skeleton { g with table } := by
  refine eq_of_table_groups rfl ?_ rfl
  refine Array.ext_getElem? fun k => ?_
  simp only [skeleton, setWeightAt, Array.getElem?_map, Array.getElem?_modify]
  by_cases hk : i = k <;> simp [hk, Function.comp_def]

theorem skeleton_syncTotal (g : Grammar) (symbol : Symbol) :
    (g.syncTotal symbol).skeleton = g.skeleton := by
  refine eq_of_table_groups rfl rfl ?_
  simp only [skeleton, syncTotal, Array.map_map]
  refine Array.map_congr_left fun group _ => ?_
  dsimp only [Function.comp_apply]
  split <;> rfl

theorem skeleton_importWeights {values : List Json} {requirePositive : Bool}
    (h : g.importWeights values requirePositive = .ok g') : g'.skeleton = g.skeleton := by
  obtain ⟨read, hlength, -, rfl⟩ := importWeights_ok h
  exact skeleton_replaceWeights hlength

theorem skeleton_setRuleWeight {i : Int} {weight : Json} (h : g.setRuleWeight i weight = .ok g') :
    g'.skeleton = g.skeleton := by
  unfold setRuleWeight at h
  split at h
  case h_1 k hplace =>
    obtain ⟨weight, -, rfl⟩ := map_ok.mp h
    unfold putWeight
    split
    · rw [skeleton_syncTotal, skeleton_setWeightAt]
    · rfl
  case h_2 => cases h

theorem skeleton_writeGene (g : Grammar) (table : Array RuleEntry) (rules : List Nat)
    (values : List Json) :
    skeleton { g with table := (writeGene table rules values).1 } = skeleton { g with table } := by
  induction rules generalizing table values with
  | nil => rfl
  | cons i rules ih =>
    cases values with
    | nil => rfl
    | cons value values =>
      rw [writeGene]
      split
      · rw [ih, skeleton_setWeightAt]
      · rfl

/-- A gene is written as far as its values can be read if there are as many as the nonterminal has
rules, and not at all otherwise. -/
theorem updateGeneValue_cases (g : Grammar) (symbol : Symbol) (values : Json) :
    (∃ fault, g.updateGeneValue symbol values = (some fault, g)) ∨
      ∃ group given, g.group? symbol = some group ∧ values.elements = .ok given ∧
        given.length = group.rules.length ∧
        g.updateGeneValue symbol values =
          match writeGene g.table group.rules given with
          | (table, none) => (none, syncTotal { g with table } symbol)
          | (table, some fault) => (some fault, { g with table }) := by
  unfold updateGeneValue
  cases values.elements with
  | error fault => exact .inl ⟨_, rfl⟩
  | ok given =>
    dsimp only
    unfold updateGeneWith
    cases g.group? symbol with
    | none => exact .inl ⟨_, rfl⟩
    | some group =>
      by_cases hlength : given.length = group.rules.length
      · exact .inr ⟨group, given, rfl, rfl, hlength, if_neg (not_not_intro hlength)⟩
      · exact .inl ⟨_, if_pos hlength⟩

theorem skeleton_updateGeneValue (g : Grammar) (symbol : Symbol) (values : Json) :
    (g.updateGeneValue symbol values).2.skeleton = g.skeleton := by
  rcases g.updateGeneValue_cases symbol values with ⟨fault, h⟩ | ⟨group, given, -, -, -, h⟩
  · rw [h]
  · have hwritten := g.skeleton_writeGene g.table group.rules given
    rw [h]
    split
    case h_1 hrun =>
      rw [hrun] at hwritten
      exact (skeleton_syncTotal _ symbol).trans hwritten
    case h_2 hrun =>
      rw [hrun] at hwritten
      exact hwritten

theorem lasting_skeleton (k : Grammar) : Lasting (·.skeleton = k) :=
  ⟨fun hg h => (skeleton_importWeights h).trans hg, fun hg h => (skeleton_setRuleWeight h).trans hg⟩

theorem grouped_skeleton : g.skeleton.Grouped ↔ g.Grouped := by
  constructor
  · intro hg
    exact hg.congr (by simp [skeleton]) (by simp [skeleton, Function.comp_def])
  · intro hg
    exact hg.congr (by simp [skeleton]) (by simp [skeleton, Function.comp_def])

theorem Grouped.of_skeleton (hg : g.Grouped) (h : g'.skeleton = g.skeleton) : g'.Grouped :=
  grouped_skeleton.mp (h ▸ grouped_skeleton.mpr hg)

/-! ### Grammars that requests lead to -/

section Leads

variable {α ρ : Type} [Scalar α] [RandomSource ρ] {gauge : (n : Nat) → Gauge α n}

/-- What calls make of a grammar, refused ones among them. -/
inductive Leads (ρ : Type) [RandomSource ρ] (gauge : (n : Nat) → Gauge α n) (g : Grammar) :
    Grammar → Prop where
  | start : Leads ρ gauge g g
  | request {g' : Grammar} (before : Leads ρ gauge g g') (request : Request) :
    Leads ρ gauge g (request.run g').2
  | normalize {g' g'' : Grammar} (before : Leads ρ gauge g g') (target : Quantity α)
    (done : g'.normalize target = .ok g'') : Leads ρ gauge g g''
  | repair {g' : Grammar} (before : Leads ρ gauge g g') (weights : Json) (plan : RepairPlan α)
    (source : ρ) : Leads ρ gauge g (g'.repairBy gauge weights plan source).2.grammar
  | relabelled {g' g'' : Grammar} (before : Leads ρ gauge g g') (table : g''.table = g'.table)
    (groups : g''.groups = g'.groups) : Leads ρ gauge g g''

theorem addRuleValue_ok {rule : Option Rule} {weight generator representer : Json}
    (h : g.addRuleValue rule weight generator representer = .ok g') :
    ∃ rule weight, g.addRule rule weight generator representer = .ok g' := by
  unfold addRuleValue at h
  split at h
  · simp at h
  · simp at h
  case h_3 rule _ =>
    obtain ⟨weight, -, h⟩ := bind_ok.mp h
    exact ⟨rule, weight, h⟩

/-- A request keeps the groups in order, but not the totals. -/
theorem Grouped.run (hg : g.Grouped) (request : Request) : (request.run g).2.Grouped := by
  cases request with
  | addRule rule weight generator representer =>
    refine unlessRefused_snd (P := Grouped) hg fun g' h => ?_
    obtain ⟨rule, weight, h⟩ := addRuleValue_ok h
    exact hg.addRule h
  | vector values requirePositive =>
    refine unlessRefused_snd (P := Grouped) hg fun g' h => ?_
    obtain ⟨values, -, h⟩ := bind_ok.mp h
    exact hg.of_skeleton (skeleton_importWeights h)
  | single place weight =>
    exact unlessRefused_snd (P := Grouped) hg fun g' h => hg.of_skeleton (skeleton_setRuleWeight h)
  | gene symbol values => exact hg.of_skeleton (g.skeleton_updateGeneValue symbol values)

theorem Leads.grouped (hg : g.Grouped) (h : Leads ρ gauge g g') : g'.Grouped := by
  induction h with
  | start => exact hg
  | request _ request ih => exact ih.run request
  | normalize _ target done ih =>
    exact ih.of_skeleton ((lasting_skeleton _).normalize rfl done)
  | repair _ weights plan source ih =>
    exact ih.of_skeleton ((lasting_skeleton _).repairBy rfl gauge weights plan source)
  | relabelled _ table groups ih => exact ih.congr (by rw [table]) (by rw [groups])

end Leads

/-! ### Genes that are cut short -/

/-- A nonterminal gets as many values as it has rules, but the value after those that were read
cannot be. -/
structure CutShort (g : Grammar) (symbol : Symbol) (values : Json) (group : RuleGroup)
    (read : List Int) (fault : Fault) : Prop where
  known : g.group? symbol = some group
  stops : ∃ before bad after, values.elements = .ok (before ++ bad :: after) ∧
    (before ++ bad :: after).length = group.rules.length ∧
    before.map Json.toInteger = read.map .ok ∧ bad.toInteger = .error fault

/-- Either all values can be read, or one is the first that cannot be. -/
theorem read_or_cut (values : List Json) :
    (∃ read : List Int, values.map Json.toInteger = read.map .ok) ∨
      ∃ before bad after, ∃ read : List Int, ∃ fault, values = before ++ bad :: after ∧
        before.map Json.toInteger = read.map .ok ∧ bad.toInteger = .error fault := by
  induction values with
  | nil => exact .inl ⟨[], rfl⟩
  | cons value values ih =>
    cases hvalue : value.toInteger with
    | error fault => exact .inr ⟨[], value, values, [], fault, rfl, rfl, hvalue⟩
    | ok weight =>
      rcases ih with ⟨read, hread⟩ | ⟨before, bad, after, read, fault, rfl, hread, hbad⟩
      · exact .inl ⟨weight :: read, by simp [hvalue, hread]⟩
      · exact .inr ⟨value :: before, bad, after, weight :: read, fault, rfl,
          by simp [hvalue, hread], hbad⟩

theorem writeGene_read {values : List Json} {read : List Int}
    (hread : values.map Json.toInteger = read.map .ok) (table : Array RuleEntry)
    (rules : List Nat) : (writeGene table rules values).2 = none := by
  induction rules generalizing table values read with
  | nil => simp [writeGene]
  | cons i rules ih =>
    cases values with
    | nil => simp [writeGene]
    | cons value values =>
      cases read with
      | nil => simp at hread
      | cons weight read =>
        obtain ⟨hvalue, hrest⟩ := List.cons.inj hread
        simp only [writeGene, hvalue]
        exact ih hrest _

/-- What is written stops short of the value that cannot be read. -/
theorem writeGene_cut {before : List Json} {bad : Json} {read : List Int} {fault : Fault}
    (hread : before.map Json.toInteger = read.map .ok) (hbad : bad.toInteger = .error fault)
    (after : List Json) (table : Array RuleEntry) {rules : List Nat}
    (hlength : before.length < rules.length) (weights : List Int) :
    writeGene (reweighed table weights) rules (before ++ bad :: after) =
      (reweighed table (overwrite rules read weights), some fault) := by
  induction rules generalizing before read weights with
  | nil => simp at hlength
  | cons i rules ih =>
    cases before with
    | nil =>
      obtain rfl : read = [] := by simpa using hread.symm
      simp [writeGene, hbad, overwrite]
    | cons value before =>
      cases read with
      | nil => simp at hread
      | cons weight read =>
        obtain ⟨hvalue, hrest⟩ := List.cons.inj hread
        simp only [List.cons_append, writeGene, hvalue, setWeightAt_reweighed, overwrite]
        exact ih hrest (by simpa using hlength) _

theorem CutShort.updateGeneValue_eq {symbol : Symbol} {values : Json} {group : RuleGroup}
    {read : List Int} {fault : Fault} (h : g.CutShort symbol values group read fault) :
    g.updateGeneValue symbol values = (some fault,
      { g with table := reweighed g.table (overwrite group.rules read g.weights) }) := by
  obtain ⟨hgroup, before, bad, after, helements, hlength, hread, hbad⟩ := h
  have hshort : before.length < group.rules.length := by
    rw [← hlength, List.length_append, List.length_cons]
    omega
  have hwritten := writeGene_cut hread hbad after g.table hshort g.weights
  rw [weights, reweighed_self] at hwritten
  simp [updateGeneValue, helements, updateGeneWith, hgroup, hlength, hwritten, weights]

/-- A gene that is refused was cut short, or nothing of it was written. -/
theorem updateGeneValue_refused {symbol : Symbol} {values : Json} {fault : Fault}
    (h : g.updateGeneValue symbol values = (some fault, g')) :
    g' = g ∨ ∃ group read, g.CutShort symbol values group read fault := by
  rcases g.updateGeneValue_cases symbol values with
    ⟨found, hrun⟩ | ⟨group, given, hgroup, helements, hlength, hrun⟩
  · exact .inl (Prod.mk.inj (h.symm.trans hrun)).2
  · rcases read_or_cut given with
      ⟨read, hread⟩ | ⟨before, bad, after, read, found, rfl, hread, hbad⟩
    · -- every value was read, so nothing is refused
      have hnone := writeGene_read hread g.table group.rules
      rw [h] at hrun
      split at hrun
      case h_1 => simp at hrun
      case h_2 hwritten =>
        rw [hwritten] at hnone
        simp at hnone
    · have hcut : g.CutShort symbol values group read found :=
        ⟨hgroup, before, bad, after, helements, hlength, hread, hbad⟩
      obtain ⟨hfault, -⟩ := Prod.mk.inj (hcut.updateGeneValue_eq.symm.trans h)
      obtain rfl := Option.some.inj hfault
      exact .inr ⟨group, read, hcut⟩

/-- The values that were read stand at the first rules of the nonterminal, and nowhere else. -/
theorem getElem?_cutShort (hg : g.Grouped) {group : RuleGroup} (hgroup : group ∈ g.groups)
    (read : List Int) {k i : Nat} (hk : group.rules[k]? = some i) :
    ∃ entry, g.table[i]? = some entry ∧ entry.rule.left = group.symbol ∧
      (reweighed g.table (overwrite group.rules read g.weights))[i]? =
        some { entry with weight := read.getD k entry.weight } := by
  obtain ⟨entry, hentry, hleft⟩ := hg.entry_of_mem hgroup (List.mem_of_getElem? hk)
  refine ⟨entry, hentry, hleft, ?_⟩
  rw [getElem?_reweighed, getElem?_overwrite_of_getElem? (hg.nodup_rules hgroup) hk,
    getElem?_weights, hentry]
  rfl

theorem getElem?_reweighed_overwrite {rules : List Nat} {i : Nat} (hi : i ∉ rules)
    (read : List Int) : (reweighed g.table (overwrite rules read g.weights))[i]? = g.table[i]? := by
  rw [getElem?_reweighed, getElem?_overwrite hi, getElem?_weights]
  cases g.table[i]? <;> rfl

/-! ### Totals -/

/-- The total of a nonterminal is what the rules with its left side weigh. -/
def InSync (g : Grammar) (symbol : Symbol) : Prop :=
  ∀ group, g.group? symbol = some group → group.total = g.weightSum (placesOf g.table symbol)

theorem Grouped.inSync (hg : g.Grouped) {symbol : Symbol}
    (h : ∀ group ∈ g.groups, group.symbol = symbol → group.total = g.weightSum group.rules) :
    g.InSync symbol := by
  intro group hgroup
  obtain ⟨hmem, hsymbol⟩ := group?_mem hgroup
  rw [h group hmem hsymbol, hg.rules group hmem, hsymbol]

theorem total_of_importValue {values : Json} {requirePositive : Bool}
    (h : g.importValue values requirePositive = .ok g') :
    ∀ group ∈ g'.groups, group.total = g'.weightSum group.rules := by
  obtain ⟨given, -, h⟩ := bind_ok.mp h
  obtain ⟨read, -, -, rfl⟩ := importWeights_ok h
  rw [groups_replaceWeights]
  intro group hgroup
  obtain ⟨old, -, rfl⟩ := Array.mem_map.mp hgroup
  rfl

theorem total_syncTotal (g : Grammar) (symbol : Symbol) :
    ∀ group ∈ (g.syncTotal symbol).groups, group.symbol = symbol →
      group.total = (g.syncTotal symbol).weightSum group.rules := by
  intro group hgroup hsymbol
  obtain ⟨old, -, rfl⟩ := Array.mem_map.mp hgroup
  split at hsymbol
  case isTrue heq =>
    rw [if_pos heq]
    rfl
  case isFalse hne => exact absurd hsymbol hne

theorem total_of_updateGeneValue {symbol : Symbol} {values : Json}
    (h : g.updateGeneValue symbol values = (none, g')) :
    ∀ group ∈ g'.groups, group.symbol = symbol → group.total = g'.weightSum group.rules := by
  rcases g.updateGeneValue_cases symbol values with ⟨fault, hrun⟩ | ⟨group, given, -, -, -, hrun⟩
  · simp [h] at hrun
  · rw [h] at hrun
    split at hrun
    case h_1 table _ =>
      obtain rfl := (Prod.mk.inj hrun).2
      exact total_syncTotal _ symbol
    case h_2 => simp at hrun

/-! ### The effect of a refusal -/

theorem run_refused {request : Request} {fault : Fault}
    (h : request.run g = (some fault, g')) :
    g' = g ∨ ∃ symbol values group read, request = .gene symbol values ∧
      g.CutShort symbol values group read fault := by
  cases request with
  | addRule rule weight generator representer => exact .inl (unlessRefused_some.mp h).2
  | vector values requirePositive => exact .inl (unlessRefused_some.mp h).2
  | single place weight => exact .inl (unlessRefused_some.mp h).2
  | gene symbol values =>
    rcases updateGeneValue_refused h with h | ⟨group, read, hcut⟩
    · exact .inl h
    · exact .inr ⟨symbol, values, group, read, rfl, hcut⟩

variable {α ρ : Type} [Scalar α] [RandomSource ρ] {gauge : (n : Nat) → Gauge α n}

/-- A call that is refused changes nothing, unless it was writing a gene that is cut short: then the
values before the one that could not be read are written, and no total follows. Whatever happens
later, a vector that is accepted brings all totals up to date, and a gene that is accepted that of
its nonterminal. -/
theorem refusal_effect {name : Json} (hg : Leads ρ gauge (.empty name) g) :
    (∀ request fault g', Request.run g request = (some fault, g') →
        g' = g ∨ ∃ symbol values group read, request = .gene symbol values ∧
          g.CutShort symbol values group read fault) ∧
      (∀ symbol values group read fault, g.CutShort symbol values group read fault →
        ∃ g', Request.run g (.gene symbol values) = (some fault, g') ∧
          g' = { g with table := g'.table } ∧
          (∀ k i : Nat, group.rules[k]? = some i → ∃ entry, g.table[i]? = some entry ∧
            entry.rule.left = symbol ∧
            g'.table[i]? = some { entry with weight := read.getD k entry.weight }) ∧
          ∀ i : Nat, i ∉ group.rules → g'.table[i]? = g.table[i]?) ∧
      ∀ later g', Leads ρ gauge g later →
        (∀ values requirePositive, Request.run later (.vector values requirePositive) = (none, g') →
          ∀ symbol, g'.InSync symbol) ∧
        ∀ symbol values, Request.run later (.gene symbol values) = (none, g') →
          g'.InSync symbol := by
  have hgrouped := hg.grouped (coherent_empty name).grouped
  refine ⟨fun request fault g' => run_refused, ?_, ?_⟩
  · intro symbol values group read fault hcut
    obtain ⟨hmem, rfl⟩ := group?_mem hcut.known
    exact ⟨_, hcut.updateGeneValue_eq, rfl,
      fun k i hk => getElem?_cutShort hgrouped hmem read hk,
      fun i hi => getElem?_reweighed_overwrite hi read⟩
  · intro later g' hlater
    have hlater := hlater.grouped hgrouped
    constructor
    · intro values requirePositive hrun symbol
      have hg' : g'.Grouped := by
        simpa only [hrun] using hlater.run (.vector values requirePositive)
      exact hg'.inSync fun group hgroup _ =>
        total_of_importValue (unlessRefused_none.mp hrun) group hgroup
    · intro symbol values hrun
      have hg' : g'.Grouped := by simpa only [hrun] using hlater.run (.gene symbol values)
      exact hg'.inSync (total_of_updateGeneValue hrun)

/-- The second weight of a gene is none, so the first is written alone, and a vector repairs the
total. -/
theorem refusal_effect_halfway :
    let rule (right : String) : Option Rule := some ⟨⟨"S"⟩, [⟨right⟩]⟩
    let requests : List Request := [.addRule (rule "a") (.int 1) .null .null,
      .addRule (rule "b") (.int 2) .null .null]
    let g := requests.foldl (fun g request => (request.run g).2) (.empty .null)
    let cut := (Request.run g (.gene ⟨"S"⟩ (.list [.int 5, .null]))).2
    let whole := (Request.run cut (.vector (.list [.int 1, .int 1]) true)).2
    Leads MersenneTwister (fun _ => (.standard : Gauge ℚ _)) (.empty .null) g ∧
      g.CutShort ⟨"S"⟩ (.list [.int 5, .null]) ⟨⟨"S"⟩, 3, [0, 1]⟩ [5] .wrongType ∧
      cut.weights = [5, 2] ∧ cut.groups = g.groups ∧ ¬cut.InSync ⟨"S"⟩ ∧ whole.InSync ⟨"S"⟩ := by
  intro rule requests g cut whole
  have hleads : Leads MersenneTwister (fun _ => (.standard : Gauge ℚ _)) (.empty .null) g :=
    (Leads.start.request _).request _
  have hcut : g.CutShort ⟨"S"⟩ (.list [.int 5, .null]) ⟨⟨"S"⟩, 3, [0, 1]⟩ [5] .wrongType :=
    ⟨by decide +kernel, [.int 5], .null, [], rfl, rfl, rfl, rfl⟩
  obtain ⟨-, heffect, hlater⟩ := refusal_effect hleads
  obtain ⟨g', hrun, hrest, -, -⟩ := heffect _ _ _ _ _ hcut
  have hg' : cut = g' := congrArg Prod.snd hrun
  have hvector : Request.run cut (.vector (.list [.int 1, .int 1]) true) = (none, whole) :=
    Prod.ext (by decide +kernel) rfl
  refine ⟨hleads, hcut, by decide +kernel, by rw [hg', hrest], ?_,
    (hlater cut whole (Leads.start.request _)).1 _ _ hvector _⟩
  intro hsync
  have htotal := hsync ⟨⟨"S"⟩, 3, [0, 1]⟩ (by decide +kernel)
  exact absurd htotal (by decide +kernel)

end ProbeForge.Grammar
