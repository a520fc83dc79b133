import ProbeForge.Proofs.Evolution.Distributions

/-!
# Scores

A score tells how near the nearest exemplar is. It is highest for a candidate that meets an exemplar
and lowest, which is one, for a candidate without results, as nothing is further away.
-/

namespace ProbeForge.Scorer

open ProbeForge.Distribution

variable {μ ν : Type} {read : Measure ν ℝ} {results : OrderedMap String ν} {s : Scorer ℝ}

theorem maxDistance_real : (maxDistance : ℝ) = √2 := by
  rw [maxDistance, Scalar.ratio_real, Nat.cast_ofNat, Nat.cast_one, div_one]
  rfl

theorem epsilon_pos : 0 < (epsilon : ℝ) := by
  rw [epsilon, Scalar.ratio_real]
  positivity

theorem epsilon_le_maxDistance : (epsilon : ℝ) ≤ maxDistance := by
  calc (epsilon : ℝ) ≤ 1 := by
        rw [epsilon, Scalar.ratio_real]
        norm_num
    _ ≤ √2 := Real.one_le_sqrt.mpr one_le_two
    _ = maxDistance := maxDistance_real.symm

/-! ### The nearest exemplar -/

theorem least_mem {α : Type} [Rooted α] (x : α) (xs : List α) : least x xs ∈ x :: xs := by
  induction xs generalizing x with
  | nil => exact List.mem_cons_self
  | cons y ys ih =>
    change least (Scalar.smaller x y) ys ∈ _
    rcases List.mem_cons.mp (ih (Scalar.smaller x y)) with heq | hmem
    · rw [heq, Scalar.smaller]
      split
      · exact List.mem_cons_of_mem x List.mem_cons_self
      · exact List.mem_cons_self
    · exact List.mem_cons_of_mem x (List.mem_cons_of_mem y hmem)

theorem least_le {x y : ℝ} {xs : List ℝ} (h : y ∈ x :: xs) : least x xs ≤ y := by
  induction xs generalizing x y with
  | nil => exact (List.mem_singleton.mp h).ge
  | cons z zs ih =>
    change least (Scalar.smaller x z) zs ≤ y
    rw [Scalar.smaller_real]
    have hfirst : least (min x z) zs ≤ min x z := ih List.mem_cons_self
    rcases List.mem_cons.mp h with rfl | h
    · exact hfirst.trans (min_le_left y z)
    rcases List.mem_cons.mp h with rfl | h
    · exact hfirst.trans (min_le_right x y)
    · exact ih (List.mem_cons_of_mem _ h)

/-- There are exemplars, and each is made of parts of a whole. -/
structure Sound (s : Scorer ℝ) : Prop where
  some : s.exemplars ≠ []
  parts : ∀ e ∈ s.exemplars, Parts e

theorem make_sound {exemplars : List (Distribution ℝ)} (h : ∀ e ∈ exemplars, Parts e)
    (codes : List String) : (make exemplars codes).Sound := by
  unfold make
  split
  case isTrue =>
    refine ⟨List.cons_ne_nil _ _, fun e he => ?_⟩
    rw [List.mem_singleton.mp he]
    exact parts_singleton "ok"
  case isFalse hsome => exact ⟨mt List.isEmpty_iff.mpr hsome, h⟩

theorem exists_ofCounts {exemplars : List (OrderedMap String ν)} {specialCodes : Json}
    {codes : List String} (hcodes : specialCodes.toTexts = .ok codes)
    (h : ∀ e ∈ exemplars, Counts read e) :
    ∃ s, ofCounts read exemplars specialCodes = .ok s ∧ s.Sound := by
  refine ⟨make (exemplars.map (normalized read)) codes, ?_, make_sound (fun d hd => ?_) codes⟩
  · rw [ofCounts, hcodes, mapM_eq_map fun e he => (h e he).normalize_eq]
    rfl
  · obtain ⟨e, he, rfl⟩ := List.mem_map.mp hd
    exact (h e he).parts_normalized

/-- How far away the nearest exemplar is: where nothing was observed, as far as can be. -/
inductive Nearest (s : Scorer ℝ) (observed : Distribution ℝ) : ℝ → Prop where
  | nothing (empty : observed.isEmpty = true) : Nearest s observed maxDistance
  | exemplar {e : Distribution ℝ} (some : observed.isEmpty = false) (mem : e ∈ s.exemplars)
      (nearest : ∀ e' ∈ s.exemplars, √(squares observed e) ≤ √(squares observed e')) :
      Nearest s observed √(squares observed e)

theorem Sound.exists_nearest (hs : s.Sound) (h : Counts read results) :
    ∃ d, s.nearestDistance read results = .ok d ∧ s.Nearest (normalized read results) d := by
  rw [nearestDistance, h.normalize_eq]
  let observed := normalized read results
  change ∃ d, (if observed.isEmpty then Except.ok maxDistance else _) = _ ∧ s.Nearest observed d
  split
  case isTrue hempty => exact ⟨maxDistance, rfl, .nothing hempty⟩
  case isFalse hsome =>
    let far (e : Distribution ℝ) : ℝ := √(squares observed e)
    have hdistances : s.exemplars.mapM (distance observed) = .ok (s.exemplars.map far) :=
      mapM_eq_map fun e _ => distance_eq observed e
    rw [hdistances]
    obtain ⟨e, es, hexemplars⟩ := List.exists_cons_of_ne_nil hs.some
    -- the least of the distances is one of them
    have hmem : least (far e) (es.map far) ∈ s.exemplars.map far := by
      rw [hexemplars]
      exact least_mem _ _
    have hleast : ∀ e' ∈ s.exemplars, least (far e) (es.map far) ≤ far e' := fun e' he' =>
      least_le (List.mem_map_of_mem (f := far) (hexemplars ▸ he'))
    refine ⟨least (far e) (es.map far), by rw [hexemplars]; rfl, ?_⟩
    obtain ⟨nearest, hnearest, heq⟩ := List.mem_map.mp hmem
    rw [← heq] at hleast ⊢
    exact .exemplar (Bool.eq_false_iff.mpr hsome) hnearest hleast

variable {observed : Distribution ℝ} {d d' x : ℝ}

theorem Nearest.nonneg (h : s.Nearest observed d) : 0 ≤ d := by
  cases h with
  | nothing => exact maxDistance_real ▸ Real.sqrt_nonneg 2
  | exemplar => exact Real.sqrt_nonneg _

theorem Nearest.le_maxDistance (h : s.Nearest observed d) (hs : s.Sound) (hparts : Parts observed) :
    d ≤ maxDistance := by
  cases h with
  | nothing => exact le_rfl
  | exemplar _ hmem =>
    rw [maxDistance_real]
    exact Real.sqrt_le_sqrt (hparts.squares_le_two (hs.parts _ hmem))

theorem Nearest.eq_maxDistance (h : s.Nearest observed d) (hempty : observed.isEmpty = true) :
    d = maxDistance := by
  cases h with
  | nothing => rfl
  | exemplar hsome => cases hempty.symm.trans hsome

/-! ### Scores by distance -/

/-- What a distance to the nearest exemplar scores. -/
noncomputable def scoreAt (d : ℝ) : ℝ := maxDistance / max d epsilon

theorem score_eq (h : s.nearestDistance read results = .ok d) :
    s.score read results = .ok (scoreAt d) := by
  rw [score, h, scoreAt, ← Scalar.larger_real]
  rfl

theorem scoreAt_maxDistance : scoreAt maxDistance = 1 := by
  rw [scoreAt, max_eq_left epsilon_le_maxDistance]
  exact div_self (epsilon_pos.trans_le epsilon_le_maxDistance).ne'

theorem scoreAt_anti (h : d ≤ d') : scoreAt d' ≤ scoreAt d := by
  have hpos : 0 < max d epsilon := lt_max_of_lt_right epsilon_pos
  exact div_le_div_of_nonneg_left (epsilon_pos.trans_le epsilon_le_maxDistance).le hpos
    (max_le_max_right epsilon h)

theorem scoreAt_strict (h : d < d') (habove : epsilon < d') :
    scoreAt d' < scoreAt d := by
  have hpos : 0 < max d epsilon := lt_max_of_lt_right epsilon_pos
  have hlt : max d epsilon < max d' epsilon := lt_max_of_lt_left (max_lt h habove)
  exact div_lt_div_of_pos_left (epsilon_pos.trans_le epsilon_le_maxDistance) hpos hlt

theorem scoreAt_le (d : ℝ) : scoreAt d ≤ maxDistance / epsilon :=
  div_le_div_of_nonneg_left (epsilon_pos.trans_le epsilon_le_maxDistance).le epsilon_pos
    (le_max_right d epsilon)

theorem one_le_scoreAt (h : d ≤ maxDistance) : 1 ≤ scoreAt d :=
  scoreAt_maxDistance.symm.trans_le (scoreAt_anti h)

/-- How far the nearest exemplar is, and the score for it. -/
structure Rates (s : Scorer ℝ) (read : Measure ν ℝ) (results : OrderedMap String ν)
    (d x : ℝ) : Prop where
  nearest : s.nearestDistance read results = .ok d
  score : s.score read results = .ok x

theorem Rates.eq_scoreAt (h : s.Rates read results d x) : x = scoreAt d :=
  Except.ok.inj (h.score.symm.trans (score_eq h.nearest))

/-- No two normalised distributions are further apart than two that have nothing in common. So a
scorer finds its nearest exemplar no further away than that, and every score lies between one, which
candidates without results get, and the score of an exact match. For any scorer at all, what is
nearer never scores lower, and it scores higher unless both distances are too small to tell. -/
theorem scores_bounded_and_ordered {exemplars : List (OrderedMap String μ)}
    {readExemplar : Measure μ ℝ} {specialCodes : Json} {codes : List String}
    (hcodes : specialCodes.toTexts = .ok codes)
    (hexemplars : ∀ e ∈ exemplars, Counts readExemplar e) (read : Measure ν ℝ) :
    (∀ e results, Counts readExemplar e → Counts read results → ∃ d d' q,
      normalize read results = .ok d ∧ normalize readExemplar e = .ok d' ∧
        squaredDistance (fun x => .ok (.real x)) d d' = .ok q ∧
        q.value = squares d d' ∧ q.value ≤ 2) ∧
    (∃ s, ofCounts readExemplar exemplars specialCodes = .ok s ∧
      ∀ results, Counts read results → ∃ d x, s.Rates read results d x ∧
        s.Nearest (normalized read results) d ∧ 0 ≤ d ∧ d ≤ maxDistance ∧
        1 ≤ x ∧ x ≤ maxDistance / epsilon ∧
        ((∀ v ∈ results.values, amount read v = 0) → x = 1)) ∧
    ∀ (s : Scorer ℝ) results others d d' x x',
      s.Rates read results d x → s.Rates read others d' x' →
        (d ≤ d' → x' ≤ x) ∧ (d < d' → epsilon < d' → x' < x) := by
  refine ⟨fun e results he hresults => ?_, ?_, fun s results others d d' x x' h h' => ?_⟩
  · obtain ⟨q, hq, hvalue⟩ :=
      exists_squaredDistance (normalized read results) (normalized readExemplar e)
    refine ⟨_, _, q, hresults.normalize_eq, he.normalize_eq, hq, hvalue, ?_⟩
    rw [hvalue]
    exact hresults.parts_normalized.squares_le_two he.parts_normalized
  · obtain ⟨s, hmade, hsound⟩ := exists_ofCounts hcodes hexemplars
    refine ⟨s, hmade, fun results hresults => ?_⟩
    obtain ⟨d, hdistance, hnearest⟩ := hsound.exists_nearest hresults
    have hle : d ≤ maxDistance := hnearest.le_maxDistance hsound hresults.parts_normalized
    refine ⟨d, scoreAt d, ⟨hdistance, score_eq hdistance⟩, hnearest, hnearest.nonneg, hle,
      one_le_scoreAt hle, scoreAt_le d, fun hnone => ?_⟩
    rw [hnearest.eq_maxDistance (hresults.isEmpty_normalized.mpr hnone)]
    exact scoreAt_maxDistance
  · rw [h.eq_scoreAt, h'.eq_scoreAt]
    exact ⟨scoreAt_anti, scoreAt_strict⟩

theorem counts_whole {m : OrderedMap String Int} (hdistinct : m.keys.Nodup)
    (h : ∀ n ∈ m.values, 0 ≤ n) : Counts (fun n => .ok (.whole n)) m where
  distinct := hdistinct
  counted n hn := ⟨.whole n, rfl, Int.cast_nonneg (h n hn)⟩

/-- One exemplar shares only some outcomes with the candidate, the other is empty. -/
theorem scores_bounded_and_ordered_overlapping :
    let whole : Measure Int ℝ := fun n => .ok (.whole n)
    let exemplars : List (OrderedMap String Int) :=
      [⟨[("ok", 3), ("QueryCanceled", 1)]⟩, ⟨[("ok", 0)]⟩]
    let results : OrderedMap String Int := ⟨[("SyntaxError", 4), ("ok", 1), ("other", 0)]⟩
    (Json.list []).toTexts = .ok [] ∧ (∀ e ∈ exemplars, Counts whole e) ∧ Counts whole results ∧
      ∃ s, ofCounts whole exemplars (.list []) = .ok s ∧
        ∃ d x, s.Rates whole results d x ∧ d ≤ maxDistance ∧ 1 ≤ x := by
  intro whole exemplars results
  have hexemplars : ∀ e ∈ exemplars, Counts whole e :=
    List.forall_mem_cons.mpr ⟨counts_whole (by decide) (by decide),
      List.forall_mem_singleton.mpr (counts_whole (by decide) (by decide))⟩
  have hresults : Counts whole results := counts_whole (by decide) (by decide)
  have hcodes : (Json.list []).toTexts = .ok [] := rfl
  obtain ⟨-, ⟨s, hmade, hbounded⟩, -⟩ := scores_bounded_and_ordered hcodes hexemplars whole
  obtain ⟨d, x, hrates, -, -, hle, hone, -⟩ := hbounded results hresults
  exact ⟨hcodes, hexemplars, hresults, s, hmade, d, x, hrates, hle, hone⟩

end ProbeForge.Scorer
