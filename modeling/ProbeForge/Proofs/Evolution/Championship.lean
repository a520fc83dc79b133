import ProbeForge.Proofs.Evolution.Standings
import ProbeForge.Proofs.Evolution.Tournament

/-!
# The champion

A tournament gives the best candidate of all its rounds. Of equals it is from the latest round, and
there the first of the population. Nobody plays twice, so it is as it was when it was scored.
-/

namespace ProbeForge.Tournament

open Breeder

variable {α σ ρ : Type} [Scalar α] [RandomSource ρ] {t : Tournament α σ} {c best : Candidate α}
  {population scored ranking : List (Candidate α)} {rounds : List (List (Candidate α))}
  {s s₁ s' : Arena α σ ρ} {round : Int}

/-! ### Single rounds -/

/-- The scores that the judge gives. -/
def Scores (t : Tournament α σ) (score : α) : Prop :=
  ∃ c special, t.judge c = .ok (score, special)

/-- A population in its order after all have played and been scored. -/
def judged (t : Tournament α σ) (round : Int) (population : List (Candidate α)) :
    Attempt (Arena α σ ρ) (List (Candidate α)) := do
  let played ← population.mapM (t.play round)
  played.mapM fun c => t.score c

/-- A round ranks the judged population and crowns the candidate in front. -/
theorem judged_of_playRound (h : t.playRound round population s = .ok ranking s') :
    ∃ scored s₁ best rest, t.judged round population s = .ok scored s₁ ∧
      ranking = standings scored ∧ standings scored = best :: rest ∧
      crown best s₁ = .ok () s' := by
  obtain ⟨played, s₁, hplayed, h⟩ := attempt_bind_ok.mp h
  obtain ⟨scored, s₂, hscored, h⟩ := attempt_bind_ok.mp h
  refine ⟨scored, s₂, ?_⟩
  cases hstandings : standings scored with
  | nil =>
    rw [hstandings] at h
    cases h
  | cons best rest =>
    rw [hstandings] at h
    obtain ⟨⟨⟩, s₃, hcrown, h⟩ := attempt_bind_ok.mp h
    obtain ⟨rfl, rfl⟩ := attempt_pure_ok.mp h
    exact ⟨best, rest, attempt_bind_ok.mpr ⟨played, s₁, hplayed, hscored⟩, rfl, rfl, hcrown⟩

omit [Scalar α] [RandomSource ρ] in
theorem score_ok {d : Candidate α} (h : t.score c = .ok d) :
    d.pedigree = c.pedigree ∧ t.Scores d.score := by
  obtain ⟨⟨score, special⟩, hjudge, h⟩ := bind_ok.mp h
  cases pure_ok.mp h
  exact ⟨rfl, c, special, hjudge⟩

/-- Judging gives scores to a population and changes no numbers. -/
theorem judged_ok (h : t.judged round population s = .ok scored s₁) :
    scored.map (·.pedigree) = population.map (·.pedigree) ∧ (∀ c ∈ scored, t.Scores c.score) ∧
      Stands s s₁ ∧ s₁.nursery.nextId = s.nursery.nextId := by
  obtain ⟨played, s₂, hplayed, h⟩ := attempt_bind_ok.mp h
  obtain ⟨hpopulation, hstands, hnext⟩ := attempt_mapM_map
    (I := fun a : Arena α σ ρ => Stands s a ∧ a.nursery.nextId = s.nursery.nextId)
    (fun c _ _ _ _ hs hrun =>
      have hkept := play_ok hrun
      ⟨hkept.pedigree, hs.1.trans hkept.stands, hkept.next.trans hs.2⟩)
    ⟨⟨rfl, rfl⟩, rfl⟩ hplayed
  obtain ⟨hscores, -⟩ := attempt_mapM_ok (I := fun _ => True)
    (fun c _ _ d _ _ hrun => ⟨(score_ok (attempt_lift_ok.mp hrun).1).2, trivial⟩) trivial h
  obtain ⟨hpedigrees, rfl⟩ := attempt_mapM_map (I := (s₂ = ·))
    (fun c _ a d a' ha hrun =>
      have hscore := attempt_lift_ok.mp hrun
      ⟨(score_ok hscore.1).1, ha.trans hscore.2⟩) rfl h
  exact ⟨hpedigrees.trans hpopulation, hscores, hstands, hnext⟩

/-! ### The best of all rounds -/

/-- The candidate is the best of all rounds. Of equals it is from the latest round, and there the
first. -/
structure Wins (c : Candidate α) (rounds : List (List (Candidate α))) : Prop where
  highest : ∀ scored ∈ rounds, ∀ d ∈ scored, d.score ≤ c.score
  place : ∃ earlier before after later,
    rounds = earlier ++ (before ++ c :: after) :: later ∧
    (∀ d ∈ before, ¬ c.score ≤ d.score) ∧ ∀ scored ∈ later, ∀ d ∈ scored, ¬ c.score ≤ d.score

/-- The best of a round is the best of all rounds if nobody before scored more. -/
theorem Wins.of_last (hbest : FirstBest best scored)
    (h : ∀ earlier ∈ rounds, ∀ d ∈ earlier, d.score ≤ best.score) :
    Wins best (rounds ++ [scored]) where
  highest := List.forall_mem_append.mpr ⟨h, List.forall_mem_singleton.mpr hbest.highest⟩
  place := by
    obtain ⟨before, after, rfl, hbefore⟩ := hbest.first
    exact ⟨rounds, before, after, [], rfl, hbefore, List.forall_mem_nil _⟩

/-- The best of all rounds stays the best if nobody of the next round comes up to it. -/
theorem Wins.concat (h : Wins c rounds) (hle : ∀ d ∈ scored, d.score ≤ c.score)
    (hlt : ∀ d ∈ scored, ¬ c.score ≤ d.score) : Wins c (rounds ++ [scored]) where
  highest := List.forall_mem_append.mpr ⟨h.highest, List.forall_mem_singleton.mpr hle⟩
  place := by
    obtain ⟨earlier, before, after, later, rfl, hbefore, hlater⟩ := h.place
    exact ⟨earlier, before, after, later ++ [scored], by simp, hbefore,
      List.forall_mem_append.mpr ⟨hlater, List.forall_mem_singleton.mpr hlt⟩⟩

/-- The best of all rounds is a candidate of one of them. -/
theorem Wins.mem (h : Wins c rounds) : ∃ scored ∈ rounds, c ∈ scored := by
  obtain ⟨earlier, before, after, later, rfl, -⟩ := h.place
  exact ⟨before ++ c :: after, by simp, by simp⟩

/-- Before the first round there is no champion; after it there is one. -/
def Holds (champion : Option (Candidate α)) (rounds : List (List (Candidate α))) : Prop :=
  champion.elim (rounds = []) fun c => Wins c rounds

omit [RandomSource ρ] in
/-- The champion after a round is the best of the rounds with this one. -/
theorem Holds.crown {rest : List (Candidate α)} (ht : Comparable t.Scores)
    (hrounds : ∀ earlier ∈ rounds, ∀ d ∈ earlier, t.Scores d.score)
    (hscored : ∀ d ∈ scored, t.Scores d.score) (h : Holds s.champion rounds)
    (hstandings : standings scored = best :: rest) (hcrown : Tournament.crown best s = .ok () s') :
    Holds s'.champion (rounds ++ [scored]) := by
  have hfirst := firstBest_of_standings ht hscored hstandings
  have hbest : t.Scores best.score := by
    obtain ⟨before, after, rfl, -⟩ := hfirst.first
    exact hscored best (by simp)
  cases hcrown
  cases hchampion : s.champion with
  | none =>
    rw [hchampion] at h
    cases h
    exact .of_last hfirst (List.forall_mem_nil _)
  | some c =>
    rw [hchampion] at h
    obtain ⟨home, hhome, hmem⟩ := Wins.mem h
    have hc := hrounds home hhome c hmem
    by_cases hle : c.score ≤ best.score
    · -- the title goes to the best of this round
      have hsucceeds : succeeds best (some c) = true := decide_eq_true hle
      rw [if_pos hsucceeds]
      exact .of_last hfirst fun earlier hearlier d hd =>
        ht.trans (hrounds earlier hearlier d hd) hc hbest (Wins.highest h earlier hearlier d hd) hle
    · -- the champion stays, and everybody of this round is below it
      have hbelow : best.score ≤ c.score := (ht.total hbest hc).resolve_right hle
      have hsucceeds : ¬ succeeds best (some c) = true := by simpa [succeeds] using hle
      rw [if_neg hsucceeds]
      refine Wins.concat h (fun d hd => ?_) fun d hd hge => ?_
      · exact ht.trans (hscored d hd) hbest hc (hfirst.highest d hd) hbelow
      · exact hle (ht.trans hc (hscored d hd) hbest hge (hfirst.highest d hd))

/-! ### All rounds -/

/-- The rounds that are played from a population on, each as it was scored. -/
inductive Plays (t : Tournament α σ) : Int → List (Candidate α) → Arena α σ ρ →
    List (List (Candidate α)) → Arena α σ ρ → Prop where
  | last {round : Int} {population scored ranking : List (Candidate α)} {s s₁ s' : Arena α σ ρ}
      (judged : t.judged round population s = .ok scored s₁)
      (played : t.playRound round population s = .ok ranking s') :
      Plays t round population s [scored] s'
  | next {round : Int} {population scored ranking bred : List (Candidate α)}
      {s s₁ s₂ s₃ s' : Arena α σ ρ} {rounds : List (List (Candidate α))}
      (judged : t.judged round population s = .ok scored s₁)
      (played : t.playRound round population s = .ok ranking s₂)
      (breeds : inNursery (t.breeder.breed ranking t.breeder.population) s₂ = .ok bred s₃)
      (rest : Plays t (round + 1) bred s₃ rounds s') :
      Plays t round population s (scored :: rounds) s'

theorem plays_of_playRounds {left : Nat}
    (h : t.playRounds round left population s = .ok () s') :
    ∃ rounds, Plays t round population s rounds s' ∧ rounds.length = left + 1 := by
  induction left generalizing round population s with
  | zero =>
    obtain ⟨ranking, s₁, hround, h⟩ := attempt_bind_ok.mp h
    obtain ⟨-, rfl⟩ := attempt_pure_ok.mp h
    obtain ⟨scored, s₂, -, -, hjudged, -⟩ := judged_of_playRound hround
    exact ⟨[scored], .last hjudged hround, rfl⟩
  | succ left ih =>
    obtain ⟨ranking, s₁, hround, h⟩ := attempt_bind_ok.mp h
    obtain ⟨bred, s₂, hbreed, h⟩ := attempt_bind_ok.mp h
    obtain ⟨rounds, hplays, hlength⟩ := ih h
    obtain ⟨scored, s₃, -, -, hjudged, -⟩ := judged_of_playRound hround
    exact ⟨scored :: rounds, .next hjudged hround hbreed hplays, by rw [List.length_cons, hlength]⟩

theorem playRound_next (h : t.playRound round population s = .ok ranking s') :
    s'.nursery.nextId = s.nursery.nextId := by
  obtain ⟨scored, s₁, best, rest, hjudged, -, -, hcrown⟩ := judged_of_playRound h
  cases hcrown
  exact (judged_ok hjudged).2.2.2

theorem Holds.playRound (ht : Comparable t.Scores)
    (hrounds : ∀ earlier ∈ rounds, ∀ d ∈ earlier, t.Scores d.score) (h : Holds s.champion rounds)
    (hjudged : t.judged round population s = .ok scored s₁)
    (hround : t.playRound round population s = .ok ranking s') :
    (∀ d ∈ scored, t.Scores d.score) ∧ Holds s'.champion (rounds ++ [scored]) := by
  obtain ⟨scored', s₂, best, rest, hjudged', -, hstandings, hcrown⟩ := judged_of_playRound hround
  cases hjudged.symm.trans hjudged'
  obtain ⟨-, hscores, hstands, -⟩ := judged_ok hjudged
  exact ⟨hscores, Holds.crown ht hrounds hscores (hstands.champion ▸ h) hstandings hcrown⟩

/-- All candidates of all rounds have different numbers, given one after another. -/
theorem Plays.numbered {n : Nat} (hids : population.map (·.id) = List.range' n population.length)
    (hnext : s.nursery.nextId = n + population.length)
    (h : Plays t round population s rounds s') :
    rounds.flatten.map (·.id) = List.range' n rounds.flatten.length := by
  induction h generalizing n with
  | last hjudged _ =>
    have hsame := map_id_of_pedigree (judged_ok hjudged).1
    have hlength := congrArg List.length hsame
    rw [List.length_map, List.length_map] at hlength
    rw [List.flatten_singleton, hsame, hids, hlength]
  | @next round population scored ranking bred s s₁ s₂ s₃ s' rounds hjudged hround hbreed _ ih =>
    have hsame := map_id_of_pedigree (judged_ok hjudged).1
    have hlength := congrArg List.length hsame
    rw [List.length_map, List.length_map] at hlength
    obtain ⟨nursery, hbred, rfl⟩ := attempt_on_ok.mp hbreed
    -- the bred generation takes the numbers that follow
    have henrols := breed_enrols hbred
    have hlast : s₂.nursery.nextId = n + population.length := (playRound_next hround).trans hnext
    have hrest := ih (hlast ▸ henrols.ids) (hlast ▸ henrols.next)
    rw [List.flatten_cons, List.map_append, hsame, hids, hrest, List.length_append, hlength,
      List.range'_append_1]

theorem Plays.holds (h : Plays t round population s rounds s') (ht : Comparable t.Scores)
    {earlier : List (List (Candidate α))}
    (hearlier : ∀ scored ∈ earlier, ∀ d ∈ scored, t.Scores d.score)
    (hs : Holds s.champion earlier) :
    Holds s'.champion (earlier ++ rounds) := by
  induction h generalizing earlier with
  | last hjudged hround => exact (Holds.playRound ht hearlier hs hjudged hround).2
  | next hjudged hround hbreed _ ih =>
    obtain ⟨hscores, hholds⟩ := Holds.playRound ht hearlier hs hjudged hround
    obtain ⟨-, hstands⟩ := inNursery_ok hbreed
    have hall : ∀ scored ∈ earlier ++ [_], ∀ d ∈ scored, t.Scores d.score :=
      List.forall_mem_append.mpr ⟨hearlier, List.forall_mem_singleton.mpr hscores⟩
    have hrest := ih hall (hstands.champion ▸ hholds)
    rwa [List.append_assoc] at hrest

/-! ### Whole tournaments -/

theorem initialPopulation_enrols {s s' : Nursery ρ}
    (h : t.initialPopulation s = .ok population s') : Enrols s s' population := by
  obtain ⟨size, s₁, hsize, h⟩ := attempt_bind_ok.mp h
  obtain ⟨-, rfl⟩ := attempt_lift_ok.mp hsize
  obtain ⟨spawned, s₂, hspawned, h⟩ := attempt_bind_ok.mp h
  obtain ⟨hpedigrees, hnext⟩ := mutateGeneration_pedigrees h
  exact (spawnMany_enrols hspawned).kept (map_id_of_pedigree hpedigrees) hnext

/-- A tournament of at least one round gives the best candidate of the rounds it played, as it was
scored there. No two of the candidates that were scored are the same. -/
theorem run_champion (ht : Comparable t.Scores) {n : Int} (hrounds : t.rounds = .ok n)
    (hn : 1 ≤ n) (hs : s.champion = none) {champion : Option (Candidate α)}
    (h : t.run s = .ok champion s') :
    ∃ population s₁ rounds s₂ c, inNursery t.initialPopulation s = .ok population s₁ ∧
      Plays t 1 population s₁ rounds s₂ ∧ rounds.length = n.toNat ∧ champion = some c ∧
      Wins c rounds ∧ (rounds.flatten.map (·.id)).Nodup := by
  obtain ⟨population, s₁, hfirst, h⟩ := attempt_bind_ok.mp h
  obtain ⟨m, s₂, hm, h⟩ := attempt_bind_ok.mp h
  obtain ⟨hasked, rfl⟩ := attempt_lift_ok.mp hm
  cases hrounds.symm.trans hasked
  obtain ⟨k, hk⟩ : ∃ k, n.toNat = k + 1 := ⟨n.toNat - 1, by omega⟩
  rw [hk] at h
  obtain ⟨⟨⟩, s₂, hplayed, h⟩ := attempt_bind_ok.mp h
  obtain ⟨rfl, -⟩ := award_ok h
  obtain ⟨rounds, hplays, hlength⟩ := plays_of_playRounds hplayed
  obtain ⟨nursery, henrols, rfl⟩ := attempt_on_ok.mp hfirst
  have henrols := initialPopulation_enrols henrols
  have hstart : Holds s.champion ([] : List (List (Candidate α))) := by
    rw [hs]
    rfl
  have hholds := hplays.holds ht (List.forall_mem_nil _) hstart
  rw [List.nil_append] at hholds
  cases hchampion : s₂.champion with
  | none =>
    -- there is none only before the first round
    rw [hchampion] at hholds
    cases hholds
    cases hlength
  | some c =>
    rw [hchampion] at hholds
    refine ⟨population, _, rounds, s₂, c, hfirst, hplays, hlength.trans hk.symm, rfl, hholds, ?_⟩
    rw [hplays.numbered henrols.ids henrols.next]
    exact List.nodup_range'

/-- A tournament in which all candidates tie. -/
def level : Tournament Tenths Unit := { trial with judge := fun _ => .ok (⟨0⟩, false) }

/-- An arena without files, where the last best candidate is the champion. -/
def arenaOf (nextId drawn : Nat) (history : List (Candidate Tenths)) : Arena Tenths Unit Turns :=
  ⟨⟨nextId, ⟨drawn⟩⟩, Files.empty, (), history.getLast?, history⟩

theorem comparable_tenths (P : Tenths → Prop) : Comparable P :=
  ⟨fun _ _ => Int.le_total _ _, fun _ _ _ => Int.le_trans⟩

theorem assemble_level :
    level.breeder.assemble (kept 1 55 []) [kept 2 55 []] (.whole 2) ⟨3, (⟨4⟩ : Turns)⟩ =
      .ok [kept 3 55 [2], kept 4 55 [2]] ⟨5, ⟨5⟩⟩ := by
  cbv

theorem breed_level : ∃ weight drawn,
    level.breeder.breed [kept 1 55 [], kept 2 55 []] (.whole 2) ⟨3, (⟨4⟩ : Turns)⟩ =
      .ok [kept 3 weight [2], kept 4 weight [2]] ⟨5, ⟨drawn⟩⟩ := by
  rcases mutateGeneration_turns level.breeder [kept 3 55 [2], kept 4 55 [2]] with hall | hnone
  · refine ⟨60, 8, attempt_bind_ok.mpr ⟨_, _, assemble_level, ?_⟩⟩
    rw [hall]
    cbv
  · refine ⟨55, 5, attempt_bind_ok.mpr ⟨_, _, assemble_level, ?_⟩⟩
    rw [hnone]
    rfl

theorem playRound_level :
    level.playRound 1 [kept 1 55 [], kept 2 55 []] (arenaOf 3 4 []) =
      .ok [kept 1 55 [], kept 2 55 []] (arenaOf 3 4 [kept 1 55 []]) := by
  cbv

theorem playRounds_level : ∃ weight s',
    level.playRounds 1 1 [kept 1 55 [], kept 2 55 []] (arenaOf 3 4 []) = .ok () s' ∧
      s'.champion = some (kept 3 weight [2]) := by
  obtain ⟨weight, drawn, hbreed⟩ := breed_level
  have hnext : inNursery (level.breeder.breed [kept 1 55 [], kept 2 55 []] (.whole 2))
      (arenaOf 3 4 [kept 1 55 []]) =
        .ok [kept 3 weight [2], kept 4 weight [2]] (arenaOf 5 drawn [kept 1 55 []]) :=
    attempt_on_ok.mpr ⟨_, hbreed, rfl⟩
  have hsecond : level.playRound 2 [kept 3 weight [2], kept 4 weight [2]]
      (arenaOf 5 drawn [kept 1 55 []]) =
        .ok [kept 3 weight [2], kept 4 weight [2]]
          (arenaOf 5 drawn [kept 1 55 [], kept 3 weight [2]]) := by
    cbv
  exact ⟨weight, _, attempt_bind_ok.mpr ⟨_, _, playRound_level, attempt_bind_ok.mpr ⟨_, _, hnext,
    attempt_bind_ok.mpr ⟨_, _, hsecond, rfl⟩⟩⟩, rfl⟩

/-- The first candidate of the second round is the champion. -/
theorem run_level : ∃ weight s',
    level.run (arenaOf 1 0 []) = .ok (some (kept 3 weight [2])) s' := by
  obtain ⟨weight, s', hplayed, hchampion⟩ := playRounds_level
  have hfirst : inNursery level.initialPopulation (arenaOf 1 0 []) =
      .ok [kept 1 55 [], kept 2 55 []] (arenaOf 3 4 []) :=
    attempt_on_ok.mpr ⟨_, initialPopulation_trial, rfl⟩
  refine ⟨weight, s', attempt_bind_ok.mpr ⟨_, _, hfirst, attempt_bind_ok.mpr ⟨2, _, rfl,
    attempt_bind_ok.mpr ⟨(), s', hplayed, attempt_bind_ok.mpr ⟨s', s', rfl, ?_⟩⟩⟩⟩⟩
  rw [hchampion]
  rfl

theorem run_champion_level : ∃ champion s', Comparable level.Scores ∧
    level.run (arenaOf 1 0 []) = .ok champion s' ∧ champion.map (·.id) = some 3 ∧
    ∃ population s₁ rounds s₂ c,
      inNursery level.initialPopulation (arenaOf 1 0 []) = .ok population s₁ ∧
      Plays level 1 population s₁ rounds s₂ ∧ rounds.length = 2 ∧ champion = some c ∧
      Wins c rounds ∧ (rounds.flatten.map (·.id)).Nodup := by
  obtain ⟨weight, s', hrun⟩ := run_level
  exact ⟨_, s', comparable_tenths _, hrun, rfl,
    run_champion (n := 2) (comparable_tenths _) rfl (by decide) rfl hrun⟩

end ProbeForge.Tournament
