import Mathlib
import ProbeForge.Proofs.Grammar.Bookkeeping
import ProbeForge.Proofs.Grammar.Building

/-!
# Selection is proportional

The draws that select a rule form an interval as long as its weight: they are above the weights of
the rules before it and not above these and its own. The intervals fill the range from one to the
group's total wherever the total is kept up, which every call on a grammar sees to.
-/

namespace ProbeForge

namespace Grammar

variable {g g' : Grammar} {group : RuleGroup} {draw running : Int}

/-! ### Grammars that calls lead to -/

section Reached

variable {α ρ : Type} [Scalar α] [RandomSource ρ]

/-- An empty grammar after any calls. Names, texts and the start symbol are not looked at. -/
inductive Reached (ρ : Type) [RandomSource ρ] (gauge : (n : Nat) → Gauge α n) : Grammar → Prop where
  | empty (name : Json) : Reached ρ gauge (.empty name)
  | call {g : Grammar} (before : Reached ρ gauge g) (call : Call α ρ) :
    Reached ρ gauge (call.apply gauge g)
  | relabelled {g g' : Grammar} (before : Reached ρ gauge g) (table : g'.table = g.table)
    (groups : g'.groups = g.groups) : Reached ρ gauge g'

variable {gauge : (n : Nat) → Gauge α n}

theorem Orderly.congr (hg : g.Orderly) (htable : g'.table = g.table)
    (hgroups : g'.groups = g.groups) : g'.Orderly :=
  ⟨hg.coherent.congr htable hgroups, hgroups ▸ hg.ordered, htable ▸ hg.once⟩

theorem Reached.orderly (h : Reached ρ gauge g) : g.Orderly := by
  induction h with
  | empty name => exact orderly_empty name
  | call _ call ih => exact ih.apply gauge call
  | relabelled _ htable hgroups ih => exact ih.congr htable hgroups

theorem Reached.foldl (h : Reached ρ gauge g) (calls : List (Call α ρ)) :
    Reached ρ gauge (calls.foldl (Call.apply gauge) g) := by
  induction calls generalizing g with
  | nil => exact h
  | cons call calls ih => exact ih (h.call call)

theorem Reached.addRule (h : Reached ρ gauge g) {rule : Rule} {weight : Int}
    {generator representer : Json} (hadd : g.addRule rule weight generator representer = .ok g') :
    Reached ρ gauge g' := by
  have hcall : (Call.addRule rule weight generator representer : Call α ρ).apply gauge g = g' := by
    simp [Call.apply, hadd, Except.toOption]
  exact hcall ▸ h.call _

/-- Definitions build their grammars by adding rules. -/
theorem reached_of_build {d : Definition} (h : d.build = .ok g) : Reached ρ gauge g := by
  obtain ⟨outline, ruled, stubbed, start, houtline, hruled, hstubbed, rfl, -, -⟩ :=
    Definition.build_ok h
  have hadd : ∀ (draft draft' : Definition.Draft) (spec : RuleSpec),
      d.addTo draft spec = .ok draft' → Reached ρ gauge draft.grammar →
        Reached ρ gauge draft'.grammar := by
    intro draft draft' spec hspec hdraft
    obtain ⟨shape, weight, -, hrule, -⟩ := Definition.addTo_ok hspec
    exact hdraft.addRule hrule
  have hstart : Reached ρ gauge outline := by
    obtain ⟨symbols, -, houtline⟩ := bind_ok.mp houtline
    cases pure_ok.mp houtline
    exact (Reached.empty d.name).relabelled rfl rfl
  have hrules : Reached ρ gauge ruled.grammar :=
    foldlM_ok (P := fun draft : Definition.Draft => Reached ρ gauge draft.grammar)
      (fun draft draft' spec _ hspec => hadd draft draft' spec hspec) hruled hstart
  refine Reached.relabelled (g := stubbed.grammar) ?_ rfl rfl
  refine foldlM_ok (P := fun draft : Definition.Draft => Reached ρ gauge draft.grammar) ?_ hstubbed
    hrules
  exact fun draft draft' name _ hname hdraft =>
    hadd _ draft' (Definition.stubSpec name) hname (hdraft.relabelled rfl rfl)

end Reached

/-! ### The draws of a rule -/

@[simp] theorem weightSum_nil (g : Grammar) : g.weightSum [] = 0 := rfl

@[simp] theorem weightSum_cons (g : Grammar) (i : Nat) (rules : List Nat) :
    g.weightSum (i :: rules) = g.weightAt i + g.weightSum rules := rfl

theorem weightSum_nonneg {rules : List Nat} (hw : ∀ i ∈ rules, 0 ≤ g.weightAt i) :
    0 ≤ g.weightSum rules := by
  induction rules with
  | nil => simp
  | cons i rules ih =>
    have hi := hw i List.mem_cons_self
    have hrest := ih fun k hk => hw k (List.mem_cons_of_mem _ hk)
    rw [weightSum_cons]
    omega

theorem reach_eq_some_iff {before after : List Nat} {i : Nat}
    (hw : ∀ k ∈ before, 0 ≤ g.weightAt k) (hbefore : i ∉ before) (hafter : i ∉ after)
    (hlow : running < draw) :
    g.reach draw (before ++ i :: after) running = some i ↔
      draw ∈ Finset.Ioc (running + g.weightSum before)
        (running + g.weightSum before + g.weightAt i) := by
  rw [Finset.mem_Ioc]
  -- each rule that is passed moves its weight into the running sum
  induction before generalizing running with
  | nil =>
    rw [List.nil_append, reach, weightSum_nil]
    split
    case isTrue hreached =>
      simp only [true_iff]
      omega
    case isFalse hpassed =>
      refine iff_of_false (fun h => hafter (reach_mem h)) ?_
      omega
  | cons k before ih =>
    obtain ⟨hne, hrest⟩ := not_or.mp (mt List.mem_cons.mpr hbefore)
    have hsum := weightSum_nonneg fun l hl => hw l (List.mem_cons_of_mem _ hl)
    rw [List.cons_append, reach, weightSum_cons]
    split
    case isTrue hreached =>
      refine iff_of_false (fun h => hne (Option.some.inj h).symm) ?_
      omega
    case isFalse hpassed =>
      rw [ih (fun l hl => hw l (List.mem_cons_of_mem _ hl)) hrest (not_le.mp hpassed), add_assoc]

/-- The number of draws that select a rule is its weight. -/
theorem card_reach {rules : List Nat} (hnodup : rules.Nodup) (hw : ∀ k ∈ rules, 0 ≤ g.weightAt k)
    {i : Nat} (hi : i ∈ rules) :
    (((Finset.Icc 1 (g.weightSum rules)).filter fun draw => g.reach draw rules 0 = some i).card :
      Int) = g.weightAt i := by
  obtain ⟨before, after, rfl⟩ := List.append_of_mem hi
  have hsplit := List.nodup_middle.mp hnodup
  obtain ⟨hbefore, hafter⟩ := not_or.mp (mt List.mem_append.mpr (List.nodup_cons.mp hsplit).1)
  have hw' : ∀ k ∈ before, 0 ≤ g.weightAt k := fun k hk => hw k (List.mem_append_left _ hk)
  have hbelow := weightSum_nonneg hw'
  have habove := weightSum_nonneg fun k hk => hw k (List.mem_append_right before
    (List.mem_cons_of_mem i hk))
  have hinterval : ((Finset.Icc 1 (g.weightSum (before ++ i :: after))).filter fun draw =>
      g.reach draw (before ++ i :: after) 0 = some i) =
      Finset.Ioc (g.weightSum before) (g.weightSum before + g.weightAt i) := by
    ext draw
    rw [Finset.mem_filter, Finset.mem_Icc, weightSum_append, weightSum_cons]
    constructor
    · rintro ⟨⟨hone, -⟩, hreach⟩
      simpa using (reach_eq_some_iff hw' hbefore hafter (by omega)).mp hreach
    · intro hdraw
      obtain ⟨hlow, hhigh⟩ := Finset.mem_Ioc.mp hdraw
      refine ⟨by omega, (reach_eq_some_iff hw' hbefore hafter (by omega)).mpr ?_⟩
      simpa using hdraw
  rw [hinterval, Int.card_Ioc_of_le _ _ (by have := hw i hi; omega)]
  omega

/-! ### Selection from a group -/

/-- The place of the rule that a draw selects. -/
def selected? (g : Grammar) (group : RuleGroup) (draw : Int) : Option Nat :=
  (g.pick group draw).toOption.map (·.index)

theorem pick_of_reach {i : Nat} {entry : RuleEntry} (hreach : g.reach draw group.rules 0 = some i)
    (hentry : g.table[i]? = some entry) : g.pick group draw = .ok ⟨i, entry⟩ := by
  simp [pick, hreach, hentry]

theorem Grouped.selected?_eq (hg : g.Grouped) (hgroup : group ∈ g.groups) (draw : Int) :
    g.selected? group draw = g.reach draw group.rules 0 := by
  cases hreach : g.reach draw group.rules 0 with
  | none => simp [selected?, pick, hreach, refuse, Except.toOption]
  | some i =>
    obtain ⟨entry, hentry, -⟩ := hg.entry_of_mem hgroup (reach_mem hreach)
    simp [selected?, pick_of_reach hreach hentry, Except.toOption]

/-- A draw from a group is a number from one to its total. -/
theorem Grouped.randomRule_eq {ρ : Type} [RandomSource ρ] (hg : g.Grouped)
    (hgroup : group ∈ g.groups) (htotal : 0 < group.total) (source : ρ) :
    ∃ draw rest, RandomSource.between 1 group.total source = (.ok draw, rest) ∧
      draw ∈ Finset.Icc 1 group.total ∧
      g.randomRule group.symbol source = (g.pick group draw, rest) := by
  have hbetween : RandomSource.between 1 group.total source =
      (.ok (1 + (RandomSource.below (group.total - 1).toNat source).1.val),
        (RandomSource.below (group.total - 1).toNat source).2) := by
    unfold RandomSource.between
    rw [if_neg (by omega)]
  have hlt := (RandomSource.below (group.total - 1).toNat source).1.isLt
  refine ⟨_, _, hbetween, Finset.mem_Icc.mpr ⟨by omega, by omega⟩, ?_⟩
  simp only [randomRule, hg.group?_eq hgroup, randomRuleOf, hbetween]

theorem Coherent.card_selected (hg : g.Coherent) (hgroup : group ∈ g.groups)
    (hw : ∀ i ∈ group.rules, 0 ≤ g.weightAt i) {i : Nat} (hi : i ∈ group.rules) :
    (((Finset.Icc 1 group.total).filter fun draw => g.selected? group draw = some i).card : Int) =
      g.weightAt i := by
  simp only [hg.grouped.selected?_eq hgroup, hg.total group hgroup]
  exact card_reach (hg.grouped.nodup_rules hgroup) hw hi

/-- A draw within the total finds a rule, and never one without a weight. -/
theorem Coherent.pick_ok (hg : g.Coherent) (hgroup : group ∈ g.groups)
    (hw : ∀ i ∈ group.rules, 0 ≤ g.weightAt i) (hdraw : draw ∈ Finset.Icc 1 group.total) :
    ∃ choice, g.pick group draw = .ok choice ∧ choice.index ∈ group.rules ∧
      g.table[choice.index]? = some choice.entry ∧ 0 < g.weightAt choice.index := by
  obtain ⟨hone, hle⟩ := Finset.mem_Icc.mp hdraw
  rw [hg.total group hgroup, ← zero_add (g.weightSum _)] at hle
  obtain ⟨i, hi, hreach⟩ := reach_of_le (by omega : (0 : Int) < draw) hle
  obtain ⟨entry, hentry, -⟩ := hg.entry_of_mem hgroup hi
  refine ⟨⟨i, entry⟩, pick_of_reach hreach hentry, hi, hentry, ?_⟩
  -- the draw is one of those that are counted
  rw [← hg.card_selected hgroup hw hi]
  refine Nat.cast_pos.mpr (Finset.card_pos.mpr ⟨draw, Finset.mem_filter.mpr ⟨hdraw, ?_⟩⟩)
  rw [hg.grouped.selected?_eq hgroup, hreach]

/-- Where no weight is negative and the total is positive, a nonterminal's rules are selected as
often as they weigh: each of the draws from one to the total finds a rule with a weight, and as
many of them find a rule as its weight says. -/
theorem randomRule_proportional {α ρ σ : Type} [Scalar α] [RandomSource ρ] [RandomSource σ]
    {gauge : (n : Nat) → Gauge α n} (hg : Reached ρ gauge g) (hgroup : group ∈ g.groups)
    (hw : ∀ i ∈ group.rules, 0 ≤ g.weightAt i) (htotal : 0 < group.total) :
    (∀ source : σ, ∃ draw rest, RandomSource.between 1 group.total source = (.ok draw, rest) ∧
        draw ∈ Finset.Icc 1 group.total ∧
        g.randomRule group.symbol source = (g.pick group draw, rest)) ∧
      (∀ draw ∈ Finset.Icc 1 group.total, ∃ choice, g.pick group draw = .ok choice ∧
        choice.index ∈ group.rules ∧ g.table[choice.index]? = some choice.entry ∧
        0 < g.weightAt choice.index) ∧
      ∀ i ∈ group.rules,
        (((Finset.Icc 1 group.total).filter fun draw => g.selected? group draw = some i).card :
          Int) = g.weightAt i := by
  have hcoherent := hg.orderly.coherent
  exact ⟨hcoherent.grouped.randomRule_eq hgroup htotal,
    fun draw hdraw => hcoherent.pick_ok hgroup hw hdraw,
    fun i hi => hcoherent.card_selected hgroup hw hi⟩

/-- Three rules, the first of which has lost its weight. -/
def wheel : Grammar :=
  let rule (right : String) : Rule := ⟨⟨"S"⟩, [⟨right⟩]⟩
  let calls : List (Call ℚ MersenneTwister) := [.addRule (rule "a") 1 .null .null,
    .addRule (rule "b") 1 .null .null, .addRule (rule "c") 1 .null .null,
    .setWeights [0, 3, 2] false]
  calls.foldl (Call.apply fun _ => .standard) (.empty .null)

theorem randomRule_proportional_wheel :
    ∃ group, Reached MersenneTwister (fun _ => (.standard : Gauge ℚ _)) wheel ∧
      group ∈ wheel.groups ∧ (∀ i ∈ group.rules, 0 ≤ wheel.weightAt i) ∧ 0 < group.total ∧
      (∀ draw ∈ Finset.Icc 1 group.total, ∃ choice, wheel.pick group draw = .ok choice ∧
        choice.index ∈ group.rules ∧ wheel.table[choice.index]? = some choice.entry ∧
        0 < wheel.weightAt choice.index) ∧
      (((Finset.Icc 1 group.total).filter fun draw => wheel.selected? group draw = some 1).card :
        Int) = 3 := by
  have hreached : Reached MersenneTwister (fun _ => (.standard : Gauge ℚ _)) wheel :=
    (Reached.empty .null).foldl _
  have hgroups : wheel.groups = #[⟨⟨"S"⟩, 5, [0, 1, 2]⟩] := by decide +kernel
  have hgroup : ⟨⟨"S"⟩, 5, [0, 1, 2]⟩ ∈ wheel.groups := by simp [hgroups]
  have hw : ∀ i ∈ [0, 1, 2], 0 ≤ wheel.weightAt i := by decide +kernel
  have hthree : wheel.weightAt 1 = 3 := by decide +kernel
  obtain ⟨-, hpick, hcount⟩ :=
    randomRule_proportional (σ := MersenneTwister) hreached hgroup hw (by decide)
  exact ⟨_, hreached, hgroup, hw, by decide, hpick, hthree ▸ hcount 1 (by decide)⟩

end Grammar

end ProbeForge
