import Mathlib
import ProbeForge.Proofs.Consistency.Normalization
import ProbeForge.Proofs.Consistency.Reweighing
import ProbeForge.Random.MersenneTwister

/-!
# Repair reports are true

Over the rationals, and with any function as the radius of expected productions, repair gives a
report for every grammar and the report says how the grammar was left: the weights and the radius
belong together at every exit, because each attempt is either kept with its matrices or taken back
with them.
-/

namespace ProbeForge

open Grammar

namespace Repair

variable {n r : Nat} {g : Grammar}

/-! ### The choice of a rule -/

/-- A fold that takes each element or keeps what it has ends with one of the elements. -/
theorem foldl_chooses {β : Type} {f : Option β → β → Option β}
    (hf : ∀ best k, f best k = some k ∨ best.isSome ∧ f best k = best) {l : List β} (hl : l ≠ []) :
    ∃ k, k ∈ l ∧ l.foldl f none = some k := by
  have hrest : ∀ (l : List β) (k : β), ∃ k', k' ∈ k :: l ∧ l.foldl f (some k) = some k' := by
    intro l
    induction l with
    | nil => exact fun k => ⟨k, List.mem_cons_self, rfl⟩
    | cons next l ih =>
      intro k
      rw [List.foldl_cons]
      rcases hf (some k) next with h | ⟨-, h⟩ <;> rw [h]
      · obtain ⟨k', hk', hfold⟩ := ih next
        exact ⟨k', List.mem_cons_of_mem _ hk', hfold⟩
      · obtain ⟨k', hk', hfold⟩ := ih k
        refine ⟨k', ?_, hfold⟩
        rcases List.mem_cons.mp hk' with rfl | hk'
        · exact List.mem_cons_self
        · exact List.mem_cons_of_mem _ (List.mem_cons_of_mem _ hk')
  cases l with
  | nil => exact absurd rfl hl
  | cons k l =>
    rw [List.foldl_cons]
    rcases hf none k with h | ⟨hsome, -⟩
    · rw [h]
      exact hrest l k
    · cases hsome

/-- The rules of nonterminal `i` that have a share in `expected i j`. -/
def contributing (g : Grammar) (m : ProductionMatrices ℚ n r) (i j : Fin n) : List (Fin r) :=
  (List.finRange r).filter fun k =>
    ((g.groups[i.val]?.map (·.rules)).getD []).contains k.val &&
      !Scalar.isZero (m.choice.entry i k * m.yield.entry k j)

theorem mem_contributing {m : ProductionMatrices ℚ n r} {i j : Fin n} {k : Fin r} :
    k ∈ contributing g m i j ↔ (∃ group, g.groups[i.val]? = some group ∧ k.val ∈ group.rules) ∧
      m.choice.entry i k * m.yield.entry k j ≠ 0 := by
  cases hgroup : g.groups[i.val]? <;> simp [contributing, hgroup]

theorem worst?_chooses {m : ProductionMatrices ℚ n r} {i j : Fin n}
    (h : contributing g m i j ≠ []) :
    ∃ k, k ∈ contributing g m i j ∧ worst? g m i j = some k := by
  refine foldl_chooses (fun best k => ?_) h
  cases best with
  | none => exact .inl rfl
  | some b =>
    dsimp only
    split
    · exact .inr ⟨rfl, rfl⟩
    · exact .inl rfl

theorem worst?_mem {m : ProductionMatrices ℚ n r} {i j : Fin n} {k : Fin r}
    (h : worst? g m i j = some k) : k ∈ contributing g m i j := by
  have hne : contributing g m i j ≠ [] := by
    intro hnil
    have hnone : worst? g m i j = none := congrArg (List.foldl _ none) hnil
    simp [hnone] at h
  obtain ⟨k', hk', hworst⟩ := worst?_chooses hne
  cases h.symm.trans hworst
  exact hk'

/-- Where some rule contributes to an expected production, one that does is chosen. -/
theorem worst?_some (hg : g.Coherent) (hw : ∀ entry ∈ g.table, 1 ≤ entry.weight) {i j : Fin n}
    (h : ∃ k : Fin r, g.Contributes i j k) :
    ∃ k, worst? g (g.exactMatrices n r) i j = some k ∧ g.Contributes i j k := by
  have hmem : ∀ k, k ∈ contributing g (g.exactMatrices n r) i j ↔ g.Contributes i j k := by
    intro k
    rw [mem_contributing, share_ne_zero_iff hg hw]
    exact ⟨fun h => h.2, fun h => ⟨h.rewrites, h⟩⟩
  obtain ⟨k, hk⟩ := h
  exact (worst?_chooses (List.ne_nil_of_mem ((hmem k).mpr hk))).imp
    fun k hchosen => ⟨hchosen.2, (hmem k).mp hchosen.1⟩

theorem mem_adjustable {a : Grid ℚ n n} {i j : Fin n} :
    (i, j) ∈ adjustable g a ↔
      (g.groups[i.val]?.map (·.rules.length)).getD 1 ≠ 1 ∧ a.entry i j ≠ 0 := by
  simp only [adjustable, List.mem_flatMap, List.mem_finRange, true_and]
  constructor
  · rintro ⟨i', hi'⟩
    split at hi'
    · cases hi'
    case isFalse hmany =>
      obtain ⟨j', hj', hpair⟩ := List.mem_map.mp hi'
      cases hpair
      exact ⟨hmany, by simpa using hj'⟩
  · rintro ⟨hmany, hentry⟩
    refine ⟨i, ?_⟩
    rw [if_neg hmany]
    exact List.mem_map.mpr ⟨j, by simpa using hentry, rfl⟩

/-- The pairs that repair works on each have a contributing rule. -/
theorem contributes_of_adjustable (hg : g.Coherent) (hw : ∀ entry ∈ g.table, 1 ≤ entry.weight)
    {i j : Fin n} (h : (i, j) ∈ adjustable g (g.exactMatrices n r).expected) :
    ∃ k : Fin r, g.Contributes i j k :=
  exists_contributes hg hw (mem_adjustable.mp h).2

/-! ### Single attempts -/

variable {base : Grammar} {first : Fin n × Fin n} {rest : List (Fin n × Fin n)}

theorem contributes_of_drawable (hbase : base.Grouped) (hg : base.Fits g)
    (h : adjustable g (g.exactMatrices n r).expected = first :: rest) :
    ∀ pair ∈ first :: rest, ∃ k : Fin r, base.Contributes pair.1 pair.2 k := by
  intro pair hpair
  obtain ⟨k, hk⟩ := contributes_of_adjustable (hg.coherent hbase) hg.one_le_weight (h ▸ hpair)
  exact ⟨k, hg.contributes_iff.mp hk⟩

/-- The pair that is drawn has a rule that contributes most. -/
theorem worst?_drawn {ρ : Type} [RandomSource ρ] (hbase : base.Grouped)
    (hpairs : ∀ pair ∈ first :: rest, ∃ k : Fin r, base.Contributes pair.1 pair.2 k)
    (hg : base.Fits g) (source : ρ) :
    let pair := (RandomSource.choose first rest source).1
    ∃ rule, worst? g (g.exactMatrices n r) pair.1 pair.2 = some rule ∧
      g.Contributes pair.1 pair.2 rule := by
  obtain ⟨k, hk⟩ := hpairs _ (RandomSource.choose_mem first rest source)
  exact worst?_some (hg.coherent hbase) hg.one_le_weight ⟨k, hg.contributes_iff.mpr hk⟩

theorem matricesOf_fits (hbase : base.Grouped) (hg : base.Fits g) (n r : Nat) :
    g.matricesOf n r = .ok (g.exactMatrices n r) :=
  matricesOf_rat (fun _ hgroup => by
    have := (hg.coherent hbase).one_le_total hg.one_le_weight hgroup
    omega) n r

/-- A rule's weight can be written, and with it the row of its nonterminal, and taken back. -/
theorem set_and_back (hbase : base.Grouped) (hg : base.Fits g) {i : Fin n} {k : Nat}
    (hk : ∃ group, g.groups[i.val]? = some group ∧ k ∈ group.rules) {weight : Int}
    (hweight : 1 ≤ weight) :
    ∃ lowered, g.setRuleWeight k (.int weight) = .ok lowered ∧ base.Fits lowered ∧
      refresh lowered (g.exactMatrices n r) i = .ok (lowered.exactMatrices n r) ∧
      lowered.setRuleWeight k (.int (g.weightAt k)) = .ok g := by
  obtain ⟨group, hgroup, hmem⟩ := hk
  have hcoherent := hg.coherent hbase
  have hlt := hcoherent.grouped.lt_of_mem_rules (Array.mem_of_getElem? hgroup) hmem
  have hlength := g.length_set_weights k weight
  have hfits := hg.set k hweight
  have htotals : ∀ group ∈ (g.replaceWeights (g.weights.set k weight)).groups, group.total ≠ 0 := by
    intro group hgroup
    have := (hfits.coherent hbase).one_le_total hfits.one_le_weight hgroup
    omega
  refine ⟨_, hcoherent.setRuleWeight_eq hlt weight, hfits,
    refresh_rat hcoherent hgroup hmem htotals, ?_⟩
  rw [(hfits.coherent hbase).setRuleWeight_eq (by rwa [ruleCount_replaceWeights hlength]),
    weights_replaceWeights hlength, List.set_set, replaceWeights_replaceWeights hlength]
  have hback : g.weights.set k (g.weightAt k) = g.weights := by
    rw [weightAt_eq_getElem (by rwa [length_weights]), List.set_getElem_self]
  rw [hback, hcoherent.replaceWeights_self]

theorem shrunk_rat (weight : Int) (shrink : ℚ) :
    ∃ lower, shrunk weight shrink = .ok lower ∧ 1 ≤ lower :=
  ⟨_, rfl, le_max_right _ _⟩

/-! ### True reports -/

/-- A report says how the grammar was left. It is compared with the normalised grammar that the
repair began with. -/
structure Truthful (f : Grid ℚ n n → ℚ) (r : Nat) (normal : Grammar) (bound : ℚ) (budget : Int)
    (report : RepairReport ℚ) (final : Grammar) : Prop where
  weights : report.weights = final.weights
  positive : ∀ w ∈ final.weights, 1 ≤ w
  total : ∀ group ∈ final.groups, group.total = final.weightSum group.rules
  radius : ∃ m, final.matricesOf n r = .ok m ∧ report.radius = f m.expected
  withinBound : report.withinBound = true ↔ report.radius < bound
  /-- A negative budget allows no attempt. -/
  attempts : report.attempts ≤ max budget 0
  lowered : ∃ m, normal.matricesOf n r = .ok m ∧ report.radius ≤ f m.expected

variable {ρ : Type} {f : Grid ℚ n n → ℚ} {normal : Grammar} {bound radius : ℚ} {budget : Int}
  {top : Int} {s : Tuning ρ}

theorem report_truthful (hbase : base.Grouped) (hnormal : base.Fits normal)
    (hs : base.Fits s.grammar) (hradius : radius = f (s.grammar.exactMatrices n r).expected)
    (hlowered : radius ≤ f (normal.exactMatrices n r).expected) {within : Bool}
    (hwithin : within = true ↔ radius < bound) {attempts : Int}
    (hattempts : attempts ≤ max budget 0) (exhausted : Bool) :
    ∃ truth s', report radius within attempts exhausted s = .ok truth s' ∧
      Truthful f r normal bound budget truth s'.grammar ∧ base.Fits s'.grammar :=
  ⟨_, s, rfl, ⟨rfl, hs.positive, (hs.coherent hbase).total,
    ⟨_, matricesOf_fits hbase hs n r, hradius⟩, hwithin, hattempts,
    ⟨_, matricesOf_fits hbase hnormal n r, hlowered⟩⟩, hs⟩

theorem radiusOf_eq (hbase : base.Grouped) (hs : base.Fits s.grammar) (gauge : Gauge ℚ n)
    (r : Nat) :
    radiusOf gauge r s = .ok (gauge.overall (s.grammar.exactMatrices n r).expected) s := by
  unfold radiusOf
  rw [matricesOf_fits hbase hs]

theorem current_eq (s : Tuning ρ) : Tuning.current s = .ok s.grammar s := rfl

theorem draw_eq {β : Type} {f : ρ → β × ρ} {g : Grammar} {source source' : ρ} {b : β}
    (h : f source = (b, source')) :
    Tuning.draw f ⟨g, source⟩ = .ok b ⟨g, source'⟩ := by
  unfold Tuning.draw
  rw [h]

theorem change_eq {change' : Grammar → Except Fault Grammar} {g : Grammar}
    (h : change' s.grammar = .ok g) : Tuning.change change' s = .ok () { s with grammar := g } := by
  unfold Tuning.change
  rw [h]

theorem finish_truthful (hbase : base.Grouped) (htop : 1 ≤ top) (hnormal : base.Fits normal)
    (hs : base.Fits s.grammar) (hradius : radius = f (s.grammar.exactMatrices n r).expected)
    (hbound : radius < bound) (hover : ¬ f (normal.exactMatrices n r).expected < bound)
    {attempt : Int} (hattempt : attempt ≤ max budget 0) :
    ∃ truth s', finish ⟨f, f⟩ r ⟨.whole top, bound⟩ radius attempt s = .ok truth s' ∧
      Truthful f r normal bound budget truth s'.grammar ∧ base.Fits s'.grammar := by
  obtain ⟨again, hagain, hfits⟩ := normalize_rat (hs.coherent hbase).grouped htop
  have hagainFits := hs.trans hfits
  have hlowered : radius ≤ f (normal.exactMatrices n r).expected :=
    (hbound.trans_le (not_lt.mp hover)).le
  unfold finish
  rw [attempt_bind_eq (current_eq s), attempt_bind_eq (change_eq hagain),
    attempt_bind_eq (radiusOf_eq hbase hagainFits _ r)]
  dsimp only
  split
  case isTrue h =>
    exact report_truthful (s := { s with grammar := again }) hbase hnormal hagainFits rfl
      (h.trans_le (not_lt.mp hover)).le (iff_of_true rfl h) hattempt false
  case isFalse =>
    rw [attempt_bind_eq (change_eq (hs.setWeights_back hagainFits))]
    exact report_truthful hbase hnormal hs hradius hlowered (iff_of_true rfl hbound) hattempt false

/-! ### All attempts -/

variable [RandomSource ρ]

theorem attempts_truthful (hbase : base.Grouped) (htop : 1 ≤ top) (hnormal : base.Fits normal)
    (hover : ¬ f (normal.exactMatrices n r).expected < bound)
    (hpairs : ∀ pair ∈ first :: rest, ∃ k : Fin r, base.Contributes pair.1 pair.2 k) {left : Nat}
    {done : Int} {shrink : ℚ} (hs : base.Fits s.grammar)
    (hbound : ¬ f (s.grammar.exactMatrices n r).expected < bound)
    (hlowered : f (s.grammar.exactMatrices n r).expected ≤ f (normal.exactMatrices n r).expected)
    (hleft : done + left ≤ max budget 0) :
    ∃ truth s', attempts ⟨f, f⟩ ⟨.whole top, bound⟩ budget first rest left done
        (s.grammar.exactMatrices n r) (f (s.grammar.exactMatrices n r).expected) shrink s =
          .ok truth s' ∧
      Truthful f r normal bound budget truth s'.grammar ∧ base.Fits s'.grammar := by
  induction left generalizing s done shrink with
  | zero =>
    exact report_truthful hbase hnormal hs rfl hlowered
      (iff_of_false Bool.false_ne_true hbound) (le_max_left _ _) true
  | succ left ih =>
    obtain ⟨k, hworst, hrule⟩ := worst?_drawn hbase hpairs hs s.source
    obtain ⟨g, source⟩ := s
    dsimp only at hs hbound hlowered hworst hrule ⊢
    rcases hchosen : RandomSource.choose first rest source with ⟨⟨i, j⟩, source'⟩
    rw [hchosen] at hworst hrule
    -- its weight is lowered, and the matrices are refreshed for the new weights
    obtain ⟨lower, hlower, hone⟩ := shrunk_rat (g.weightAt k) shrink
    obtain ⟨lowered, hset, hfits, hrefresh, hback⟩ :=
      set_and_back (n := n) (r := r) hbase hs hrule.rewrites hone
    unfold attempts
    rw [attempt_bind_eq (draw_eq hchosen)]
    dsimp only
    rw [attempt_bind_eq (current_eq _), hworst]
    dsimp only
    rw [attempt_bind_eq (current_eq _), attempt_bind_eq (attempt_lift_eq hlower),
      attempt_bind_eq (change_eq hset), attempt_bind_eq (current_eq _),
      attempt_bind_eq (attempt_lift_eq hrefresh)]
    dsimp only
    push_cast at hleft
    split
    case isTrue hmet =>
      exact finish_truthful (s := ⟨lowered, source'⟩) hbase htop hnormal hfits rfl hmet hover
        (by omega)
    case isFalse hmissed =>
      split
      case isTrue hraised =>
        -- the old weight comes back, and the old matrices were never dropped
        rw [attempt_bind_eq (change_eq hback)]
        exact ih (s := ⟨g, source'⟩) hs hbound hlowered (by omega)
      case isFalse hkept =>
        exact ih (s := ⟨lowered, source'⟩) hfits hmissed ((not_lt.mp hkept).trans hlowered)
          (by omega)

/-- Every way out of a repair. -/
theorem run_ok (hbase : base.Grouped) (htop : 1 ≤ top) (f : Grid ℚ n n → ℚ) (r : Nat) (bound : ℚ)
    (budget : Int) (adjust : Bool) (source : ρ) :
    ∃ normal truth s, base.normalize (.whole top : Quantity ℚ) = .ok normal ∧
      run ⟨f, f⟩ r ⟨.ok (.whole top), .ok bound, .ok budget, adjust⟩ ⟨base, source⟩ = .ok truth s ∧
      Truthful f r normal bound budget truth s.grammar ∧ base.Fits s.grammar := by
  obtain ⟨normal, hnormalize, hnormal⟩ := normalize_rat hbase htop
  refine ⟨normal, ?_⟩
  -- the report of a repair that ends before its first attempt
  have hreport := fun (within : Bool)
      (hwithin : within = true ↔ f (normal.exactMatrices n r).expected < bound) =>
    report_truthful (s := ⟨normal, source⟩) hbase hnormal hnormal rfl le_rfl hwithin
      (le_max_right budget 0) false
  suffices h : ∃ truth s,
      run ⟨f, f⟩ r ⟨.ok (.whole top), .ok bound, .ok budget, adjust⟩ ⟨base, source⟩ = .ok truth s ∧
        Truthful f r normal bound budget truth s.grammar ∧ base.Fits s.grammar by
    obtain ⟨truth, s, hrun, htruth⟩ := h
    exact ⟨truth, s, hnormalize, hrun, htruth⟩
  unfold run
  rw [attempt_bind_eq (attempt_lift_eq rfl), attempt_bind_eq (change_eq hnormalize),
    attempt_bind_eq (radiusOf_eq (s := ⟨normal, source⟩) hbase hnormal _ r),
    attempt_bind_eq (attempt_lift_eq rfl)]
  dsimp only
  split
  case isTrue hmet => exact hreport true (iff_of_true rfl hmet)
  case isFalse hover =>
    have hunmet := hreport false (iff_of_false Bool.false_ne_true hover)
    split
    case isTrue => exact hunmet
    case isFalse =>
      rw [attempt_bind_eq (current_eq _),
        attempt_bind_eq (attempt_lift_eq (matricesOf_fits hbase hnormal n r)),
        attempt_bind_eq (current_eq _)]
      dsimp only
      cases hpairs : adjustable normal (normal.exactMatrices n r).expected with
      | nil => exact hunmet
      | cons first rest =>
        dsimp only
        rw [attempt_bind_eq (attempt_lift_eq rfl)]
        exact attempts_truthful (s := ⟨normal, source⟩) hbase htop hnormal hover
          (contributes_of_drawable hbase hnormal hpairs) hnormal hover le_rfl (by omega)

end Repair

namespace Grammar

open Repair

variable {g imported : Grammar} {weights : Json} {top : Int} {ρ : Type} [RandomSource ρ]

theorem grouped_of_import (hg : g.Grouped)
    (h : (if weights.isNull then .ok g else g.importValue weights false) = .ok imported) :
    imported.Grouped := by
  split at h
  · cases h
    exact hg
  · obtain ⟨values, -, h⟩ := bind_ok.mp h
    obtain ⟨read, hlength, -, rfl⟩ := importWeights_ok h
    exact (hg.replaceWeights hlength).grouped

/-- Whatever the radius of expected productions is taken to be, a repair of imported weights gives a
report, and the report is true of the grammar it leaves. -/
theorem repairBy_truthful (hg : g.Grouped)
    (himport : (if weights.isNull then .ok g else g.importValue weights false) = .ok imported)
    (htop : 1 ≤ top) (radius : (n : Nat) → Grid ℚ n n → ℚ) (bound : ℚ) (budget : Int)
    (adjust : Bool) (source : ρ) :
    ∃ normal truth s, imported.normalize (.whole top : Quantity ℚ) = .ok normal ∧
      g.repairBy (fun n => ⟨radius n, radius n⟩) weights
        ⟨.ok (.whole top), .ok bound, .ok budget, adjust⟩ source = (.ok truth, s) ∧
      Truthful (radius imported.nonterminalCount) imported.ruleCount normal bound budget truth
        s.grammar := by
  obtain ⟨normal, truth, s, hnormal, hrun, htruth, -⟩ := run_ok (grouped_of_import hg himport) htop
    (radius imported.nonterminalCount) imported.ruleCount bound budget adjust source
  refine ⟨normal, truth, s, hnormal, ?_, htruth⟩
  unfold repairBy
  rw [himport]
  dsimp only
  rw [hrun]

/-- A symbol that is doubled or ends. -/
def branching : Grammar :=
  let rule (right : List String) (weight : Int) : RuleEntry :=
    ⟨⟨⟨"S"⟩, right.map (⟨·⟩)⟩, weight, .null, .null⟩
  { Grammar.empty .null with
    table := #[rule ["S", "S"] 3, rule ["a"] 1]
    groups := #[⟨⟨"S"⟩, 4, [0, 1]⟩] }

theorem repairBy_truthful_branching :
    ∃ imported normal truth s,
      branching.importValue (.list [.int 5, .int (-2)]) false = .ok imported ∧
      imported.normalize (.whole 1000 : Quantity ℚ) = .ok normal ∧
      branching.repairBy (fun _ => ⟨Grid.spectralRadius .standard, Grid.spectralRadius .standard⟩)
        (.list [.int 5, .int (-2)]) ⟨.ok (.whole 1000), .ok 1, .ok 20000, true⟩
        (RandomSource.seeded 1 : MersenneTwister) = (.ok truth, s) ∧
      Truthful (Grid.spectralRadius .standard : Grid ℚ imported.nonterminalCount _ → ℚ)
        imported.ruleCount normal 1 20000 truth s.grammar := by
  have hgrouped : branching.Grouped := ⟨by decide, by decide, by decide, by decide⟩
  have himport : (if (Json.list [.int 5, .int (-2)]).isNull then .ok branching
      else branching.importValue (.list [.int 5, .int (-2)]) false) =
      .ok (branching.replaceWeights [5, -2]) := rfl
  obtain ⟨normal, truth, s, h⟩ := repairBy_truthful hgrouped himport (by decide : (1 : Int) ≤ 1000)
    (fun _ => Grid.spectralRadius .standard) 1 20000 true (RandomSource.seeded 1 : MersenneTwister)
  exact ⟨_, normal, truth, s, rfl, h⟩

end Grammar

end ProbeForge
