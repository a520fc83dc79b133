import Mathlib
import ProbeForge.Proofs.Consistency.Cycles
import ProbeForge.Proofs.Consistency.Repair

/-!
# Repair without recomputation

An attempt at a repair renews one row of the matrices that it is handed and finds the radius without
a test for cycles. It would do the same if it computed all matrices of the current weights and
tested them: which rules contribute to which expected productions is a matter of the rules alone, so
no weight above zero makes an entry zero or takes the cycle away that the first grid has.
-/

namespace ProbeForge

open Grammar Relation

namespace Grammar

variable {base g : Grammar} {n r : Nat}

/-! ### Entries that stay -/

/-- Which entries are above zero is a matter of the rules. -/
theorem Fits.edge_eq (hbase : base.Grouped) (hg : base.Fits g) :
    (g.exactMatrices n r).expected.Edge =
      fun i j : Fin n => ∃ k : Fin r, base.Contributes i j k := by
  funext i j
  refine propext ((expected_pos_iff (hg.coherent hbase) hg.one_le_weight).trans ?_)
  exact exists_congr fun k => hg.contributes_iff

theorem Fits.expected_ne_zero_iff (hbase : base.Grouped) (hg : base.Fits g) {i j : Fin n} :
    (g.exactMatrices n r).expected.entry i j ≠ 0 ↔ ∃ k : Fin r, base.Contributes i j k := by
  have hedge : (g.exactMatrices n r).expected.Edge i j ↔ ∃ k : Fin r, base.Contributes i j k :=
    iff_of_eq (congrFun (congrFun (hg.edge_eq hbase) i) j)
  refine ⟨fun h => ?_, fun h => (hedge.mpr h).ne'⟩
  obtain ⟨k, hk⟩ := exists_contributes (hg.coherent hbase) hg.one_le_weight h
  exact ⟨k, hg.contributes_iff.mp hk⟩

end Grammar

namespace Grid

variable {n : Nat} {a : Grid ℚ n n} {p : Precision ℚ}

/-- On a grid with a cycle the test for nilpotency can be left out. -/
theorem iteratedRadius_of_cycle (h : ∃ i, TransGen a.Edge i i) :
    iteratedRadius p a = spectralRadius p a := by
  obtain ⟨i, hcycle⟩ := h
  unfold spectralRadius
  rw [if_neg fun hnil => acyclic_of_isNilpotent hnil i hcycle]

theorem exists_cycle {bound : ℚ} (hbound : 0 < bound) (hover : ¬ spectralRadius p a < bound) :
    ∃ i, TransGen a.Edge i i := by
  by_contra hnone
  have hnil : a.isNilpotent = true := isNilpotent_of_acyclic (not_exists.mp hnone)
  have hzero : spectralRadius p a = 0 := by
    unfold spectralRadius
    rw [if_pos hnil]
  exact hover (hzero ▸ hbound)

end Grid

namespace Repair

variable {n r : Nat} {ρ : Type} {base : Grammar} {p : Grid.Precision ℚ}

/-! ### Upkeep -/

/-- What one attempt hands to the next. -/
structure Standing (n r : Nat) where
  matrices : ProductionMatrices ℚ n r
  radius : ℚ
  shrink : ℚ

/-- How attempts come by their matrices and radii. -/
structure Upkeep (n r : Nat) where
  /-- The matrices that an attempt begins with, from those that it was handed. -/
  begun : Grammar → ProductionMatrices ℚ n r → Except Fault (ProductionMatrices ℚ n r)
  /-- The matrices after a rule of a nonterminal was lowered. -/
  lowered : Grammar → ProductionMatrices ℚ n r → Fin n → Except Fault (ProductionMatrices ℚ n r)
  radius : Grid ℚ n n → ℚ

/-- Matrices are carried on, and only the row of the nonterminal is renewed. -/
def Upkeep.incremental (p : Grid.Precision ℚ) : Upkeep n r where
  begun _ m := .ok m
  lowered := refresh
  radius := Grid.iteratedRadius p

/-- All matrices are computed whenever they are needed, and every grid is tested for cycles. -/
def Upkeep.complete (p : Grid.Precision ℚ) : Upkeep n r where
  begun g _ := g.matricesOf n r
  lowered g _ _ := g.matricesOf n r
  radius := Grid.spectralRadius p

/-- The upkeep finds the matrices and the radii of all grammars with the rules of the base. -/
structure Upkeep.Right (base : Grammar) (p : Grid.Precision ℚ) (upkeep : Upkeep n r) : Prop where
  begun {g : Grammar} (hg : base.Fits g) :
    upkeep.begun g (g.exactMatrices n r) = .ok (g.exactMatrices n r)
  lowered {g g' : Grammar} {i : Fin n} {k : Nat} {weight : Int} (hg : base.Fits g)
    (hk : ∃ group, g.groups[i.val]? = some group ∧ k ∈ group.rules) (hweight : 1 ≤ weight)
    (hset : g.setRuleWeight k (.int weight) = .ok g') :
    upkeep.lowered g' (g.exactMatrices n r) i = .ok (g'.exactMatrices n r)
  radius {g : Grammar} (hg : base.Fits g) :
    upkeep.radius (g.exactMatrices n r).expected =
      Grid.spectralRadius p (g.exactMatrices n r).expected

/-- Rules lead from some nonterminal back to it. -/
def Cyclic (n r : Nat) (base : Grammar) : Prop :=
  ∃ i : Fin n, TransGen (fun i j : Fin n => ∃ k : Fin r, base.Contributes i j k) i i

theorem exists_cycle_iff {g : Grammar} (hbase : base.Grouped) (hg : base.Fits g) :
    (∃ i, TransGen (g.exactMatrices n r).expected.Edge i i) ↔ Cyclic n r base := by
  rw [hg.edge_eq hbase, Cyclic]

theorem right_incremental (hbase : base.Grouped) (hcycle : Cyclic n r base) :
    (.incremental p : Upkeep n r).Right base p where
  begun _ := rfl
  lowered hg hk hweight hset := by
    obtain ⟨lowered, hset', -, hrefresh, -⟩ := set_and_back hbase hg hk hweight
    cases hset.symm.trans hset'
    exact hrefresh
  radius hg := Grid.iteratedRadius_of_cycle ((exists_cycle_iff hbase hg).mpr hcycle)

theorem right_complete (hbase : base.Grouped) : (.complete p : Upkeep n r).Right base p where
  begun hg := matricesOf_fits hbase hg n r
  lowered hg hk hweight hset := by
    obtain ⟨lowered, hset', hfits, -⟩ := set_and_back (n := n) (r := r) hbase hg hk hweight
    cases hset.symm.trans hset'
    exact matricesOf_fits hbase hfits n r
  radius _ := rfl

/-! ### The end of an attempt -/

/-- An attempt meets the bound with some radius, or another attempt begins. -/
inductive Ending (n r : Nat) where
  | met (radius : ℚ)
  | again (next : Standing n r)

open Tuning

/-- What comes of a lowered weight: an attempt that raised the radius is taken back. -/
def conclude (bound : ℚ) (st : Standing n r) (rule : Fin r) (weight : Int)
    (lowered : Standing n r) : Attempt (Tuning ρ) (Ending n r) := do
  if lowered.radius < bound then return .met lowered.radius
  else if st.radius < lowered.radius then
    change (·.setRuleWeight rule (.int weight))
    return .again { st with shrink := strengthen st.shrink }
  else return .again { lowered with shrink := relax st.shrink }

/-- The matrices that are handed on are those of the current weights, and so is the radius. -/
structure Abreast (base : Grammar) (p : Grid.Precision ℚ) (st : Standing n r) (s : Tuning ρ) :
    Prop where
  fits : base.Fits s.grammar
  matrices : st.matrices = s.grammar.exactMatrices n r
  radius : st.radius = Grid.spectralRadius p (s.grammar.exactMatrices n r).expected

theorem Abreast.of_shrink {st : Standing n r} {s : Tuning ρ} (h : Abreast base p st s)
    (shrink : ℚ) : Abreast base p { st with shrink } s := ⟨h.fits, h.matrices, h.radius⟩

theorem conclude_abreast (bound : ℚ) {g changed : Grammar} {source : ρ} {rule : Fin r}
    {weight : Int} {st lowered : Standing n r} (hst : Abreast base p st ⟨g, source⟩)
    (hlowered : Abreast base p lowered ⟨changed, source⟩)
    (hback : changed.setRuleWeight rule (.int weight) = .ok g) :
    ∃ ending s', conclude bound st rule weight lowered ⟨changed, source⟩ = .ok ending s' ∧
      ∀ next, ending = .again next → Abreast base p next s' := by
  unfold conclude
  split
  · exact ⟨_, _, rfl, fun next hnext => (nomatch hnext)⟩
  · split
    · rw [attempt_bind_eq (change_eq (s := ⟨changed, source⟩) hback)]
      refine ⟨_, _, rfl, ?_⟩
      rintro next ⟨⟩
      exact hst.of_shrink _
    · refine ⟨_, _, rfl, ?_⟩
      rintro next ⟨⟩
      exact hlowered.of_shrink _

/-! ### Single attempts -/

variable [RandomSource ρ]

def attempt (upkeep : Upkeep n r) (bound : ℚ) (first : Fin n × Fin n) (rest : List (Fin n × Fin n))
    (st : Standing n r) : Attempt (Tuning ρ) (Ending n r) := do
  let (i, j) ← draw (RandomSource.choose first rest)
  let g ← current
  let m ← upkeep.begun g st.matrices
  match worst? g m i j with
  | none => throw .unacceptable
  | some rule =>
    let weight := (← current).weightAt rule
    let lower ← shrunk weight st.shrink
    change (·.setRuleWeight rule (.int lower))
    let lowered ← upkeep.lowered (← current) m i
    conclude bound { st with matrices := m } rule weight
      ⟨lowered, upkeep.radius lowered.expected, st.shrink⟩

variable {bound : ℚ} {first : Fin n × Fin n} {rest : List (Fin n × Fin n)} {st : Standing n r}
  {s : Tuning ρ}

section Attempts

variable (hbase : base.Grouped)
  (hpairs : ∀ pair ∈ first :: rest, ∃ k : Fin r, base.Contributes pair.1 pair.2 k)

include hbase hpairs

/-- From matrices of the current weights every right upkeep makes the same of an attempt, and what
the attempt hands on is again of the current weights. -/
theorem attempt_right (bound : ℚ) (h : Abreast base p st s) :
    ∃ ending s', (∀ upkeep : Upkeep n r, upkeep.Right base p →
        attempt upkeep bound first rest st s = .ok ending s') ∧
      ∀ next, ending = .again next → Abreast base p next s' := by
  obtain ⟨rule, hworst, hrule⟩ := worst?_drawn (r := r) hbase hpairs h.fits s.source
  obtain ⟨hfits, hmatrices, hradius⟩ := h
  obtain ⟨m, old, shrink⟩ := st
  obtain ⟨g, source⟩ := s
  dsimp only at hfits hmatrices hradius hworst hrule
  subst hmatrices
  rcases hchosen : RandomSource.choose first rest source with ⟨⟨i, j⟩, source'⟩
  rw [hchosen] at hworst hrule
  obtain ⟨lower, hlower, hone⟩ := shrunk_rat (g.weightAt rule) shrink
  obtain ⟨lowered, hset, hlowered, -, hback⟩ :=
    set_and_back (n := n) (r := r) hbase hfits hrule.rewrites hone
  have hbefore : Abreast base p ⟨g.exactMatrices n r, old, shrink⟩
      (⟨g, source'⟩ : Tuning ρ) := ⟨hfits, rfl, hradius⟩
  have hafter : Abreast base p ⟨lowered.exactMatrices n r, _, shrink⟩
      (⟨lowered, source'⟩ : Tuning ρ) := ⟨hlowered, rfl, rfl⟩
  obtain ⟨ending, s', hconclude, habreast⟩ := conclude_abreast bound hbefore hafter hback
  refine ⟨ending, s', fun upkeep hright => ?_, habreast⟩
  -- every step before the conclusion is the same for each right upkeep
  unfold attempt
  rw [attempt_bind_eq (draw_eq hchosen)]
  dsimp only
  rw [attempt_bind_eq (current_eq _), attempt_bind_eq (attempt_lift_eq (hright.begun hfits)),
    hworst]
  dsimp only
  rw [attempt_bind_eq (current_eq _), attempt_bind_eq (attempt_lift_eq hlower),
    attempt_bind_eq (change_eq hset), attempt_bind_eq (current_eq _),
    attempt_bind_eq (attempt_lift_eq (hright.lowered hfits hrule.rewrites hone hset)),
    hright.radius hlowered]
  exact hconclude

end Attempts

/-! ### All attempts -/

/-- Up to `left` further attempts. -/
def loop (upkeep : Upkeep n r) (gauge : Gauge ℚ n) (goal : RepairGoal ℚ) (budget : Int)
    (first : Fin n × Fin n) (rest : List (Fin n × Fin n)) :
    Nat → Int → Standing n r → Attempt (Tuning ρ) (RepairReport ℚ)
  | 0, _, st => report st.radius false budget true
  | left + 1, done, st => do
    match ← attempt upkeep goal.bound first rest st with
    | .met radius => finish gauge r goal radius (done + 1)
    | .again next => loop upkeep gauge goal budget first rest left (done + 1) next

theorem attempt_lift_pure {σ α : Type} (a : α) :
    (liftM (.ok a : Except Fault α) : Attempt σ α) = pure a := rfl

/-- The attempts of a repair are attempts with incremental upkeep. -/
theorem attempts_eq_loop (p : Grid.Precision ℚ) (overall : Grid ℚ n n → ℚ) (goal : RepairGoal ℚ)
    (budget : Int) (first : Fin n × Fin n) (rest : List (Fin n × Fin n)) (left : Nat) (done : Int)
    (m : ProductionMatrices ℚ n r) (old shrink : ℚ) :
    (attempts ⟨overall, Grid.iteratedRadius p⟩ goal budget first rest left done m old shrink :
      Attempt (Tuning ρ) (RepairReport ℚ)) =
      loop (.incremental p) ⟨overall, Grid.iteratedRadius p⟩ goal budget first rest left done
        ⟨m, old, shrink⟩ := by
  induction left generalizing done m old shrink with
  | zero => rfl
  | succ left ih =>
    -- both draw a pair, look for its worst rule, and lower that
    unfold attempts loop attempt
    rw [bind_assoc]
    refine bind_congr fun pair => ?_
    dsimp only [Upkeep.incremental]
    rw [bind_assoc]
    refine bind_congr fun g => ?_
    rw [attempt_lift_pure, pure_bind]
    cases worst? g m pair.1 pair.2 with
    | none => rfl
    | some rule =>
      simp only [conclude, bind_assoc]
      refine bind_congr fun _ => ?_
      refine bind_congr fun lower => ?_
      refine bind_congr fun _ => ?_
      refine bind_congr fun _ => ?_
      refine bind_congr fun lowered => ?_
      split
      · rw [pure_bind]
      · split
        · rw [bind_assoc]
          refine bind_congr fun _ => ?_
          rw [pure_bind]
          exact ih _ _ _ _
        · rw [pure_bind]
          exact ih _ _ _ _

/-- Right upkeeps make the same of all attempts. -/
theorem loop_right (hbase : base.Grouped)
    (hpairs : ∀ pair ∈ first :: rest, ∃ k : Fin r, base.Contributes pair.1 pair.2 k)
    {upkeep upkeep' : Upkeep n r} (hright : upkeep.Right base p) (hright' : upkeep'.Right base p)
    (gauge : Gauge ℚ n) (goal : RepairGoal ℚ) (budget : Int) (left : Nat) (done : Int)
    (h : Abreast base p st s) :
    loop upkeep gauge goal budget first rest left done st s =
      loop upkeep' gauge goal budget first rest left done st s := by
  induction left generalizing done st s with
  | zero => rfl
  | succ left ih =>
    obtain ⟨ending, s', hrun, habreast⟩ := attempt_right hbase hpairs goal.bound h
    unfold loop
    rw [attempt_bind_eq (hrun upkeep hright), attempt_bind_eq (hrun upkeep' hright')]
    cases ending with
    | met radius => rfl
    | again next => exact ih (done + 1) (habreast next rfl)

/-- The attempts that begin in a repair, with what they are handed. -/
inductive Begins (p : Grid.Precision ℚ) (bound : ℚ) (first : Fin n × Fin n)
    (rest : List (Fin n × Fin n)) (entry : Standing n r) (s₀ : Tuning ρ) :
    Nat → Standing n r → Tuning ρ → Prop where
  | first : Begins p bound first rest entry s₀ 0 entry s₀
  | next {k : Nat} {st next : Standing n r} {s s' : Tuning ρ}
    (before : Begins p bound first rest entry s₀ k st s)
    (run : attempt (.incremental p) bound first rest st s = .ok (.again next) s') :
    Begins p bound first rest entry s₀ (k + 1) next s'

theorem Begins.abreast (hbase : base.Grouped) (hcycle : Cyclic n r base)
    (hpairs : ∀ pair ∈ first :: rest, ∃ k : Fin r, base.Contributes pair.1 pair.2 k)
    {entry : Standing n r} {s₀ : Tuning ρ} (hentry : Abreast base p entry s₀) {k : Nat}
    (h : Begins p bound first rest entry s₀ k st s) : Abreast base p st s := by
  induction h with
  | first => exact hentry
  | next _ hagain ih =>
    obtain ⟨ending, s', hrun, habreast⟩ := attempt_right hbase hpairs bound ih
    cases (hrun _ (right_incremental hbase hcycle)).symm.trans hagain
    exact habreast _ rfl

/-- What is true when an attempt begins. -/
structure UpToDate (p : Grid.Precision ℚ) (first : Fin n × Fin n) (rest : List (Fin n × Fin n))
    (entry st : Standing n r) (s : Tuning ρ) : Prop where
  matrices : s.grammar.matricesOf n r = .ok st.matrices
  /-- The same entries are nonzero as at the beginning. -/
  pattern : ∀ i j, st.matrices.expected.entry i j ≠ 0 ↔ entry.matrices.expected.entry i j ≠ 0
  /-- There is a rule to lower for the pair that is drawn. -/
  contributes : let pair := (RandomSource.choose first rest s.source).1
    ∃ rule, worst? s.grammar st.matrices pair.1 pair.2 = some rule ∧
      st.matrices.choice.entry pair.1 rule * st.matrices.yield.entry rule pair.2 ≠ 0
  cycle : ∃ i, TransGen st.matrices.expected.Edge i i
  untested : Grid.iteratedRadius p st.matrices.expected =
    Grid.spectralRadius p st.matrices.expected
  radius : st.radius = Grid.spectralRadius p st.matrices.expected

theorem Abreast.upToDate (hbase : base.Grouped) (hcycle : Cyclic n r base)
    (hpairs : ∀ pair ∈ first :: rest, ∃ k : Fin r, base.Contributes pair.1 pair.2 k)
    {entry : Standing n r} {s₀ : Tuning ρ} (hentry : Abreast base p entry s₀)
    (h : Abreast base p st s) : UpToDate p first rest entry st s := by
  have hedges := (exists_cycle_iff (n := n) (r := r) hbase h.fits).mpr hcycle
  have hworst := worst?_drawn (r := r) hbase hpairs h.fits s.source
  obtain ⟨m, old, shrink⟩ := st
  obtain ⟨hfits, rfl, hradius⟩ := h
  refine ⟨matricesOf_fits hbase hfits n r, fun i j => ?_, ?_, hedges,
    Grid.iteratedRadius_of_cycle hedges, hradius⟩
  · rw [hentry.matrices, hfits.expected_ne_zero_iff hbase, hentry.fits.expected_ne_zero_iff hbase]
  · obtain ⟨rule, hrule, hcontributes⟩ := hworst
    exact ⟨rule, hrule, (share_ne_zero_iff (hfits.coherent hbase) hfits.one_le_weight).mpr
      hcontributes⟩

/-- The result of a repair that begins its attempts. -/
theorem run_eq_attempts (gauge : Gauge ℚ n) {normal : Grammar} {target : Quantity ℚ}
    (hnormal : base.normalize target = .ok normal) {m : ProductionMatrices ℚ n r}
    (hm : normal.matricesOf n r = .ok m) (hover : ¬ gauge.overall m.expected < bound)
    (hpairs : adjustable normal m.expected = first :: rest) (budget : Int) (source : ρ) :
    run gauge r ⟨.ok target, .ok bound, .ok budget, true⟩ ⟨base, source⟩ =
      attempts gauge ⟨target, bound⟩ budget first rest budget.toNat 0 m
        (gauge.overall m.expected) weakest ⟨normal, source⟩ := by
  have hradius : radiusOf gauge r (⟨normal, source⟩ : Tuning ρ) =
      .ok (gauge.overall m.expected) ⟨normal, source⟩ := by
    unfold radiusOf
    rw [hm]
  unfold run
  rw [attempt_bind_eq (attempt_lift_eq rfl),
    attempt_bind_eq (change_eq (s := ⟨base, source⟩) hnormal), attempt_bind_eq hradius,
    attempt_bind_eq (attempt_lift_eq rfl)]
  rw [if_neg hover]
  dsimp only
  rw [if_neg (by decide), attempt_bind_eq (current_eq _),
    attempt_bind_eq (attempt_lift_eq hm), attempt_bind_eq (current_eq _), hpairs]
  dsimp only
  rw [attempt_bind_eq (attempt_lift_eq rfl)]

end Repair

namespace Grammar

open Repair

variable {ρ : Type} [RandomSource ρ]

theorem fits_of_normalize {g normal : Grammar} {target : Quantity ℚ}
    (h : g.normalize target = .ok normal) : g.Fits normal := by
  obtain ⟨weights, -, hset⟩ := bind_ok.mp h
  obtain ⟨read, hlength, hpositive, rfl⟩ := setWeights_ok hset
  exact fits_replaceWeights hlength (hpositive rfl)

/-- What a repair gives back, with the grammar and the source it leaves. -/
def answer {α : Type} : EStateM.Result Fault (Tuning ρ) α → Except Fault α × Tuning ρ
  | .ok a s => (.ok a, s)
  | .error fault s => (.error fault, s)

theorem repairBy_eq_answer {g imported : Grammar} {weights : Json}
    (himport : (if weights.isNull then .ok g else g.importValue weights false) = .ok imported)
    (gauge : (n : Nat) → Gauge ℚ n) (plan : RepairPlan ℚ) (source : ρ) :
    g.repairBy gauge weights plan source =
      answer
        (run (gauge imported.nonterminalCount) imported.ruleCount plan ⟨imported, source⟩) := by
  unfold repairBy
  rw [himport]
  dsimp only
  cases run (gauge imported.nonterminalCount) imported.ruleCount plan ⟨imported, source⟩ <;> rfl

/-- A repair that renews single rows and leaves out the test for cycles ends like one that computes
everything afresh, and whenever an attempt begins, what it is handed is what would be computed. -/
theorem repairBy_incremental {g imported normal : Grammar} (hg : g.Grouped) {weights : Json}
    (himport : (if weights.isNull then .ok g else g.importValue weights false) = .ok imported)
    {target : Quantity ℚ} (hnormal : imported.normalize target = .ok normal) {bound : ℚ}
    (hbound : 0 < bound) (p : Grid.Precision ℚ) (budget : Int) (source : ρ) :
    ∃ m, normal.matricesOf imported.nonterminalCount imported.ruleCount = .ok m ∧
      (¬ Grid.spectralRadius p m.expected < bound →
        ∀ first rest, adjustable normal m.expected = first :: rest →
          let entry : Standing _ _ := ⟨m, Grid.spectralRadius p m.expected, weakest⟩
          (∀ upkeep : Upkeep _ _, upkeep = .incremental p ∨ upkeep = .complete p →
            g.repairBy (fun _ => ⟨Grid.spectralRadius p, Grid.iteratedRadius p⟩) weights
                ⟨.ok target, .ok bound, .ok budget, true⟩ source =
              answer (loop upkeep ⟨Grid.spectralRadius p, Grid.iteratedRadius p⟩ ⟨target, bound⟩
                budget first rest budget.toNat 0 entry ⟨normal, source⟩)) ∧
          ∀ k st s, Begins p bound first rest entry ⟨normal, source⟩ k st s →
            UpToDate p first rest entry st s) := by
  have hbase := grouped_of_import hg himport
  have hfits := fits_of_normalize hnormal
  have hm := matricesOf_fits hbase hfits imported.nonterminalCount imported.ruleCount
  refine ⟨_, hm, fun hover first rest hadjustable => ?_⟩
  -- a radius that is not below a positive bound needs a cycle, so its test may be left out
  have hcycle : Cyclic _ _ imported :=
    (exists_cycle_iff hbase hfits).mp (Grid.exists_cycle hbound hover)
  have hpairs := contributes_of_drawable (r := imported.ruleCount) hbase hfits hadjustable
  have hentry : Abreast (n := imported.nonterminalCount) (r := imported.ruleCount) imported p
      ⟨normal.exactMatrices _ _, Grid.spectralRadius p (normal.exactMatrices _ _).expected, weakest⟩
      (⟨normal, source⟩ : Tuning ρ) := ⟨hfits, rfl, rfl⟩
  refine ⟨fun upkeep hupkeep => ?_, fun k st s hbegins => ?_⟩
  · have hright : upkeep.Right imported p := by
      rcases hupkeep with rfl | rfl
      · exact right_incremental hbase hcycle
      · exact right_complete hbase
    rw [repairBy_eq_answer himport, run_eq_attempts ⟨Grid.spectralRadius p, Grid.iteratedRadius p⟩
      hnormal hm hover hadjustable, attempts_eq_loop,
      loop_right hbase hpairs (right_incremental hbase hcycle) hright _ _ _ _ _ hentry]
  · exact Abreast.upToDate hbase hcycle hpairs hentry
      (hbegins.abreast hbase hcycle hpairs hentry)

theorem normalize_branching :
    branching.normalize (.whole 3 : Quantity ℚ) = .ok (branching.replaceWeights [3, 1]) := by
  have hweights : branching.normalWeights (.whole 3 : Quantity ℚ) = .ok [3, 1] := by
    decide +kernel
  exact bind_ok.mpr ⟨_, hweights, setWeights_of_pos rfl (by decide)⟩

/-- The attempts of a repair begin, for the one pair that there is. -/
theorem adjustable_branching {m : ProductionMatrices ℚ 1 2}
    (hm : (branching.replaceWeights [3, 1]).matricesOf 1 2 = .ok m) :
    ¬ Grid.spectralRadius .standard m.expected < 1 ∧
      adjustable (branching.replaceWeights [3, 1]) m.expected = [(0, 0)] := by
  have hgrouped : branching.Grouped := ⟨by decide, by decide, by decide, by decide⟩
  cases hm.symm.trans (matricesOf_fits hgrouped (fits_of_normalize normalize_branching) 1 2)
  exact ⟨by decide +kernel, by decide +kernel⟩

theorem repairBy_incremental_branching :
    ∃ (normal : Grammar) (m : ProductionMatrices ℚ 1 2) (first : Fin 1 × Fin 1)
        (rest : List (Fin 1 × Fin 1)),
      branching.normalize (.whole 3 : Quantity ℚ) = .ok normal ∧
      normal.matricesOf 1 2 = .ok m ∧ ¬ Grid.spectralRadius .standard m.expected < 1 ∧
      adjustable normal m.expected = first :: rest ∧
      ∀ k st s, Begins .standard 1 first rest
          ⟨m, Grid.spectralRadius .standard m.expected, weakest⟩
          (⟨normal, RandomSource.seeded 1⟩ : Tuning MersenneTwister) k st s →
        UpToDate .standard first rest ⟨m, Grid.spectralRadius .standard m.expected, weakest⟩ st
          s := by
  have hgrouped : branching.Grouped := ⟨by decide, by decide, by decide, by decide⟩
  have himport : (if Json.null.isNull then .ok branching
      else branching.importValue .null false) = .ok branching := rfl
  obtain ⟨(m : ProductionMatrices ℚ 1 2), hm, h⟩ :=
    repairBy_incremental hgrouped himport normalize_branching one_pos .standard 20000
      (RandomSource.seeded 1 : MersenneTwister)
  obtain ⟨hover, hadjustable⟩ := adjustable_branching hm
  exact ⟨_, m, (0, 0), [], normalize_branching, hm, hover, hadjustable,
    (h hover _ _ hadjustable).2⟩

end Grammar

end ProbeForge
