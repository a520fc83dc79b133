import Mathlib
import ProbeForge.Consistency.Normalization
import ProbeForge.Proofs.Grammar.Reweighing
import ProbeForge.Proofs.Numeric.Rational

/-!
# Normalisation over the rationals

With a target of at least one every rule gets a weight of at least one, so the normal weights are
never refused, whatever the weights were before. The largest weight of each nonterminal is then the
target, no rule overtakes another of its nonterminal, and normalising again changes nothing.
-/

namespace ProbeForge

/-! ### Rounding -/

namespace Numeric

theorem roundRat_intCast (n : ℤ) : roundRat n = n := by
  simp [roundRat]

theorem floor_le_roundRat (x : ℚ) : ⌊x⌋ ≤ roundRat x := by
  simp only [roundRat]
  split_ifs <;> omega

theorem roundRat_le_floor_add_one (x : ℚ) : roundRat x ≤ ⌊x⌋ + 1 := by
  simp only [roundRat]
  split_ifs <;> omega

theorem roundRat_mono : Monotone roundRat := by
  intro x y hxy
  rcases (Int.floor_mono hxy).lt_or_eq with hlt | hsame
  · calc roundRat x ≤ ⌊x⌋ + 1 := roundRat_le_floor_add_one x
      _ ≤ ⌊y⌋ := hlt
      _ ≤ roundRat y := floor_le_roundRat y
  · -- between the same two integers, what rounds the smaller one up rounds the greater one up
    simp only [roundRat, hsame]
    split_ifs <;> grind

end Numeric

namespace Grammar

variable {g normal : Grammar} {top : ℤ} {weights : List ℤ} {weight : ℤ}

/-! ### The new weight of a rule -/

def leastNormal (top : ℤ) : ℤ := max ⌈(1 / 100 : ℚ) * top⌉ 1

/-- The new weight of a rule in a group with these weights. -/
def normalWeight (top : ℤ) (weights : List ℤ) (weight : ℤ) : ℤ :=
  let biggest := weights.max?.getD 0
  if weights.length = 1 ∨ biggest ≤ 0 then top
  else max (Numeric.roundRat (weight * (top / biggest))) (leastNormal top)

theorem leastNormal_eq (top : ℤ) : leastNormal top = max 1 ⌈(top / 100 : ℚ)⌉ := by
  rw [leastNormal, max_comm, one_div_mul_eq_div]

theorem one_le_leastNormal (top : ℤ) : 1 ≤ leastNormal top := le_max_right _ _

theorem leastNormal_le (htop : 1 ≤ top) : leastNormal top ≤ top := by
  refine max_le (Int.ceil_le.mpr ?_) htop
  have : (1 : ℚ) ≤ top := mod_cast htop
  linarith

theorem leastNormal_le_normalWeight (htop : 1 ≤ top) (weights : List ℤ) (weight : ℤ) :
    leastNormal top ≤ normalWeight top weights weight := by
  simp only [normalWeight]
  split
  · exact leastNormal_le htop
  · exact le_max_right _ _

theorem normalWeight_mono (htop : 1 ≤ top) (weights : List ℤ) :
    Monotone (normalWeight top weights) := by
  intro weight weight' hle
  simp only [normalWeight]
  split
  case isTrue => rfl
  case isFalse hscaled =>
    have hratio : (0 : ℚ) ≤ top / weights.max?.getD 0 := by
      have hbiggest : 0 < weights.max?.getD 0 := not_le.mp (not_or.mp hscaled).2
      have htop' : (0 : ℚ) ≤ top := mod_cast (zero_le_one.trans htop)
      exact div_nonneg htop' (mod_cast hbiggest.le)
    refine max_le_max_right _ (Numeric.roundRat_mono ?_)
    exact mul_le_mul_of_nonneg_right (mod_cast hle) hratio

theorem normalWeight_max {biggest : ℤ} (htop : 1 ≤ top) (h : weights.max? = some biggest) :
    normalWeight top weights biggest = top := by
  simp only [normalWeight, h, Option.getD_some]
  split
  case isTrue => rfl
  case isFalse hscaled =>
    have hbiggest : (biggest : ℚ) ≠ 0 := by
      have := not_le.mp (not_or.mp hscaled).2
      exact mod_cast this.ne'
    rw [mul_div_cancel₀ _ hbiggest, Numeric.roundRat_intCast, max_eq_left (leastNormal_le htop)]

/-- Weights between the least and the target, the target among them, are normal already. -/
theorem normalWeight_self (hmem : top ∈ weights) (hle : ∀ w ∈ weights, w ≤ top)
    (hweight : weight ∈ weights) (hleast : leastNormal top ≤ weight) :
    normalWeight top weights weight = weight := by
  have hmax : weights.max? = some top := List.max?_eq_some_iff.mpr ⟨hmem, hle⟩
  simp only [normalWeight, hmax, Option.getD_some]
  split
  case isTrue h =>
    rcases h with hsingle | htop
    · obtain ⟨only, rfl⟩ := List.length_eq_one_iff.mp hsingle
      rw [List.mem_singleton.mp hmem, List.mem_singleton.mp hweight]
    · have := (one_le_leastNormal top).trans (hleast.trans (hle _ hweight))
      omega
  case isFalse h =>
    have htop : (top : ℚ) ≠ 0 := by
      have := not_le.mp (not_or.mp h).2
      exact mod_cast this.ne'
    rw [div_self htop, mul_one, Numeric.roundRat_intCast, max_eq_left hleast]

/-! ### The new weights of a grammar -/

theorem scaleGroup_rat (top : ℤ) (weights : List ℤ) :
    scaleGroup (top : ℚ) (leastNormal top) weights =
      .ok (weights.map (normalWeight top weights)) := by
  have hround : Scalar.round (top : ℚ) = .ok top :=
    congrArg Except.ok (Numeric.roundRat_intCast top)
  unfold scaleGroup
  split
  case h_1 only =>
    refine bind_ok.mpr ⟨top, hround, ?_⟩
    simp [normalWeight, pure, Except.pure]
  case h_2 hmany =>
    have hlength : weights.length ≠ 1 := by
      intro hsingle
      obtain ⟨only, rfl⟩ := List.length_eq_one_iff.mp hsingle
      exact hmany only rfl
    dsimp only
    split
    case isTrue hnone =>
      refine bind_ok.mpr ⟨top, hround, congrArg Except.ok (List.map_congr_left fun w _ => ?_)⟩
      rw [normalWeight, if_pos (.inr hnone)]
    case isFalse hsome =>
      refine bind_ok.mpr ⟨_, Scalar.ofInt_rat _, mapM_eq_map fun w _ => ?_⟩
      simp only [normalWeight, hlength, hsome, or_self, if_false]
      rfl

/-- The new weight of a rule of a group. -/
def normalAt (g : Grammar) (top : ℤ) (group : RuleGroup) (i : ℕ) : ℤ :=
  normalWeight top (group.rules.map g.weightAt) (g.weightAt i)

def normalPlaces (g : Grammar) (top : ℤ) : List (ℕ × ℤ) :=
  g.groups.toList.flatMap fun group => group.rules.map fun i => (i, g.normalAt top group i)

theorem scaledWeights_rat (g : Grammar) (top : ℤ) :
    g.scaledWeights (top : ℚ) = .ok (g.normalPlaces top) := by
  refine bind_ok.mpr ⟨leastNormal top, rfl, bind_ok.mpr ⟨_, mapM_eq_map fun group _ => ?_, rfl⟩⟩
  refine bind_ok.mpr ⟨_, scaleGroup_rat top _, ?_⟩
  rw [List.map_map, ← List.map_prod_left_eq_zip]
  rfl

theorem lookup_eq_of_forall {entries : List (ℕ × ℤ)} {i : ℕ} {w : ℤ} (hmem : (i, w) ∈ entries)
    (hall : ∀ w', (i, w') ∈ entries → w' = w) : entries.lookup i = some w := by
  cases hlookup : entries.lookup i with
  | none => simpa using List.lookup_eq_none_iff.mp hlookup _ hmem
  | some w' =>
    obtain ⟨before, after, rfl, -⟩ := List.lookup_eq_some_iff.mp hlookup
    rw [hall w' (by simp)]

/-- A place belongs to one group, so it has one new weight. -/
theorem Grouped.lookup_normalPlaces (hg : g.Grouped) {group : RuleGroup} (hgroup : group ∈ g.groups)
    {i : ℕ} (hi : i ∈ group.rules) :
    (g.normalPlaces top).lookup i = some (g.normalAt top group i) := by
  refine lookup_eq_of_forall ?_ fun w hw => ?_
  · exact List.mem_flatMap.mpr ⟨group, Array.mem_toList_iff.mpr hgroup, List.mem_map_of_mem hi⟩
  · obtain ⟨other, hother, hw⟩ := List.mem_flatMap.mp hw
    obtain ⟨k, hk, hpair⟩ := List.mem_map.mp hw
    cases hpair
    rw [hg.eq_of_mem_rules hgroup hi (Array.mem_toList_iff.mp hother) hk]

theorem normalWeights_rat (hg : g.Grouped) (top : ℤ) :
    ∃ weights, g.normalWeights (.whole top : Quantity ℚ) = .ok weights ∧
      weights.length = g.ruleCount ∧
      ∀ group ∈ g.groups, ∀ i ∈ group.rules, weights[i]? = some (g.normalAt top group i) := by
  refine ⟨_, bind_ok.mpr ⟨_, Scalar.ofInt_rat top, bind_ok.mpr ⟨_, scaledWeights_rat g top, rfl⟩⟩,
    ?_, fun group hgroup i hi => ?_⟩
  · rw [List.length_mapIdx, length_weights]
  · have hlt : i < g.weights.length := g.length_weights ▸ hg.lt_of_mem_rules hgroup hi
    rw [List.getElem?_mapIdx, List.getElem?_eq_getElem hlt, Option.map_some,
      hg.lookup_normalPlaces hgroup hi, Option.getD_some]

/-- Normalising is never refused, and it writes the new weight of every rule. -/
theorem normalize_eq (hg : g.Grouped) (htop : 1 ≤ top) :
    ∃ normal, g.normalize (.whole top : Quantity ℚ) = .ok normal ∧ g.Fits normal ∧
      ∀ group ∈ g.groups, ∀ i ∈ group.rules, normal.weightAt i = g.normalAt top group i := by
  obtain ⟨weights, hweights, hlength, hplaces⟩ := normalWeights_rat hg top
  have hpositive : ∀ w ∈ weights, 1 ≤ w := by
    intro w hw
    obtain ⟨i, hi⟩ := List.getElem?_of_mem hw
    have hlt : i < g.ruleCount := hlength ▸ (List.getElem?_eq_some_iff.mp hi).1
    obtain ⟨group, hgroup, hmem⟩ := hg.exists_group hlt
    cases hi.symm.trans (hplaces group hgroup i hmem)
    exact (one_le_leastNormal top).trans (leastNormal_le_normalWeight htop _ _)
  refine ⟨_, bind_ok.mpr ⟨weights, hweights, setWeights_of_pos hlength hpositive⟩,
    fits_replaceWeights hlength hpositive, fun group hgroup i hi => ?_⟩
  rw [weightAt_eq, weights_replaceWeights hlength, List.getD_eq_getElem?_getD,
    hplaces group hgroup i hi, Option.getD_some]

theorem normalize_rat (hg : g.Grouped) (htop : 1 ≤ top) :
    ∃ normal, g.normalize (.whole top : Quantity ℚ) = .ok normal ∧ g.Fits normal := by
  obtain ⟨normal, hnormal, hfits, -⟩ := normalize_eq hg htop
  exact ⟨normal, hnormal, hfits⟩

/-! ### Laws -/

/-- What normal weights are like, beside the weights that they were made of. -/
structure Normalized (g normal : Grammar) (top : ℤ) : Prop where
  fits : g.Fits normal
  largest : ∀ group ∈ g.groups, IsGreatest (normal.weightAt '' {i | i ∈ group.rules}) top
  least : ∀ w ∈ normal.weights, max 1 ⌈(top / 100 : ℚ)⌉ ≤ w
  ordered : ∀ group ∈ g.groups, ∀ i ∈ group.rules, ∀ j ∈ group.rules,
    g.weightAt i ≤ g.weightAt j → normal.weightAt i ≤ normal.weightAt j

theorem isGreatest_normal (htop : 1 ≤ top) {group : RuleGroup} (hinhabited : group.rules ≠ [])
    (hnormal : ∀ i ∈ group.rules, normal.weightAt i = g.normalAt top group i) :
    IsGreatest (normal.weightAt '' {i | i ∈ group.rules}) top := by
  obtain ⟨biggest, hbiggest⟩ : ∃ biggest, (group.rules.map g.weightAt).max? = some biggest := by
    cases hmax : (group.rules.map g.weightAt).max? with
    | none => simp [hinhabited] at hmax
    | some biggest => exact ⟨biggest, rfl⟩
  obtain ⟨hmem, hle⟩ := List.max?_eq_some_iff.mp hbiggest
  have hnew := normalWeight_max htop hbiggest
  constructor
  · obtain ⟨i, hi, rfl⟩ := List.mem_map.mp hmem
    exact ⟨i, hi, (hnormal i hi).trans hnew⟩
  · rintro - ⟨i, hi, rfl⟩
    calc normal.weightAt i = g.normalAt top group i := hnormal i hi
      _ ≤ normalWeight top (group.rules.map g.weightAt) biggest :=
        normalWeight_mono htop _ (hle _ (List.mem_map_of_mem hi))
      _ = top := hnew

theorem normalized_of_eq (hg : g.Grouped) (htop : 1 ≤ top) (hfits : g.Fits normal)
    (hnormal : ∀ group ∈ g.groups, ∀ i ∈ group.rules,
      normal.weightAt i = g.normalAt top group i) : Normalized g normal top where
  fits := hfits
  largest group hgroup := isGreatest_normal htop (hg.inhabited group hgroup) (hnormal group hgroup)
  least w hw := by
    obtain ⟨i, hlt, hi⟩ := List.mem_iff_getElem.mp hw
    obtain ⟨group, hgroup, hmem⟩ := hg.exists_group (hfits.length ▸ hlt)
    rw [← leastNormal_eq, ← hi, ← weightAt_eq_getElem, hnormal group hgroup i hmem]
    exact leastNormal_le_normalWeight htop _ _
  ordered group hgroup i hi j hj hle := by
    rw [hnormal group hgroup i hi, hnormal group hgroup j hj]
    exact normalWeight_mono htop _ hle

theorem Normalized.normalAt_eq (h : Normalized g normal top) {group : RuleGroup}
    (hgroup : group ∈ g.groups) {i : ℕ} (hi : i ∈ group.rules) (hlt : i < normal.ruleCount) :
    normal.normalAt top group i = normal.weightAt i := by
  obtain ⟨⟨k, hk, htop⟩, hle⟩ := h.largest group hgroup
  have hleast : leastNormal top ≤ normal.weightAt i := by
    rw [leastNormal_eq, weightAt_eq_getElem (by rwa [length_weights])]
    exact h.least _ (List.getElem_mem _)
  refine normalWeight_self ?_ (fun w hw => ?_) (List.mem_map_of_mem hi) hleast
  · rw [← htop]
    exact List.mem_map_of_mem hk
  · obtain ⟨l, hl, rfl⟩ := List.mem_map.mp hw
    exact hle ⟨l, hl, rfl⟩

theorem Fits.eq_of_weights (h : g.Fits normal) {other : Grammar} (hother : g.Fits other)
    (hweights : other.weights = normal.weights) : other = normal := by
  rw [← h.same, ← hother.same, hweights]

/-- Normal weights are a fixed point. -/
theorem Normalized.normalize_self (hg : g.Grouped) (htop : 1 ≤ top) (h : Normalized g normal top) :
    normal.normalize (.whole top : Quantity ℚ) = .ok normal := by
  have hnormal := h.fits.coherent hg
  obtain ⟨again, hagain, hfits, hnew⟩ := normalize_eq hnormal.grouped htop
  rw [hagain]
  refine congrArg Except.ok (h.fits.eq_of_weights (h.fits.trans hfits) ?_)
  refine List.ext_getElem (hfits.length.trans normal.length_weights.symm) fun i hi hi' => ?_
  have hlt : i < normal.ruleCount := normal.length_weights ▸ hi'
  obtain ⟨group, hgroup, hmem⟩ := hnormal.grouped.exists_group hlt
  obtain ⟨k, hk⟩ := Array.getElem?_of_mem hgroup
  obtain ⟨old, hold, hrules⟩ := h.fits.exists_rules_eq hk
  have hsame : normal.normalAt top group i = normal.normalAt top old i := by
    rw [normalAt, normalAt, hrules]
  calc again.weights[i] = again.weightAt i := (weightAt_eq_getElem hi).symm
    _ = normal.normalAt top old i := (hnew group hgroup i hmem).trans hsame
    _ = normal.weightAt i := h.normalAt_eq (Array.mem_of_getElem? hold) (hrules ▸ hmem) hlt
    _ = normal.weights[i] := weightAt_eq_getElem hi'

/-- Weights of any sign can be normalised. Then every nonterminal's largest weight is the target,
no weight is below a hundredth of it or below one, rules keep their order, and normalising once
more changes nothing. -/
theorem normalize_normalized (hg : g.Grouped) (htop : 1 ≤ top) :
    ∃ normal, g.normalize (.whole top : Quantity ℚ) = .ok normal ∧ Normalized g normal top ∧
      normal.normalize (.whole top : Quantity ℚ) = .ok normal := by
  obtain ⟨normal, hnormal, hfits, hnew⟩ := normalize_eq hg htop
  have h := normalized_of_eq hg htop hfits hnew
  exact ⟨normal, hnormal, h, h.normalize_self hg htop⟩

/-- One nonterminal gets weights of all signs, one none above zero, and one has a single rule. -/
def lopsided : List (Rule × Int) :=
  let rule (left : String) (right : List String) : Rule := ⟨⟨left⟩, right.map (⟨·⟩)⟩
  [(rule "S" ["S", "T"], 1), (rule "S" ["T"], 1), (rule "S" ["U"], 1), (rule "S" [], 1),
    (rule "T" ["a"], 1), (rule "T" ["b"], 1), (rule "U" ["a"], 1)]

theorem normalize_normalized_lopsided :
    ∃ g normal,
      (ofRules .null lopsided).bind (·.setWeights [7, 2, 0, -5, -1, 0, -3] false) = .ok g ∧
      g.Grouped ∧ g.normalize (.whole 250 : Quantity ℚ) = .ok normal ∧ Normalized g normal 250 ∧
      normal.normalize (.whole 250 : Quantity ℚ) = .ok normal := by
  obtain ⟨g, hg⟩ := exists_of_isOk (x := (ofRules .null lopsided).bind
    (·.setWeights [7, 2, 0, -5, -1, 0, -3] false)) (by decide +kernel)
  obtain ⟨built, hbuilt, hset⟩ := bind_ok.mp hg
  have hgrouped := ((coherent_ofRules hbuilt).1.setWeights hset).grouped
  obtain ⟨normal, h⟩ := normalize_normalized hgrouped (by decide : (1 : ℤ) ≤ 250)
  exact ⟨g, normal, hg, hgrouped, h⟩

example : [7, 2, 0, -5].map (normalWeight 250 [7, 2, 0, -5]) = [250, 71, 3, 3] := by
  decide +kernel

end Grammar

end ProbeForge
