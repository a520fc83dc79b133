import ProbeForge.Proofs.Evolution.Championship

/-!
# The winner of a round

A round enters the first of its best candidates into the history, and the breeder guarantees a place
to the last of them. These are the same candidate if and only if no two candidates are the best.
-/

namespace ProbeForge.Tournament

open Breeder

variable {α σ ρ : Type} [Scalar α] [RandomSource ρ] {t : Tournament α σ} {best winner : Candidate α}
  {population scored ranking next rest tied below : List (Candidate α)} {s s' : Arena α σ ρ}
  {round : Int}

/-- The next generation begins with children of the candidates that have guaranteed places. -/
theorem breed_guaranteed {b : Breeder α} (hlast : (rank ranking).getLast? = some winner)
    {size : Quantity α} {n n' : Nursery ρ} (h : b.breed ranking size n = .ok next n') :
    ∃ places : Int, size.ceil = .ok places ∧
      ((guaranteed (rank ranking) winner).take places.toNat).map (fun c => [c.id]) <+:
        next.map (·.parents) := by
  cases ranking with
  | nil =>
    rw [rank, List.mergeSort_nil] at hlast
    cases hlast
  | cons first others =>
    obtain ⟨bred, n₁, hbred, h⟩ := attempt_bind_ok.mp h
    obtain ⟨hpedigrees, -⟩ := mutateGeneration_pedigrees h
    obtain ⟨-, places, hceil, hprefix⟩ := assemble_ok hbred
    have hparents := congrArg (List.map Prod.snd) hpedigrees
    rw [List.map_map, List.map_map] at hparents
    rw [List.getLastD_eq_getLast?, hlast, Option.getD_some] at hprefix
    exact ⟨places, hceil, hparents ▸ hprefix⟩

omit [RandomSource ρ] in
/-- Without a tie for the first place the first candidate is the last of the best. -/
theorem tied_nil_iff (hsplit : best :: rest = tied ++ winner :: below)
    (hle : best.score ≤ winner.score) (hbelow : ∀ c ∈ below, ¬ best.score ≤ c.score) :
    tied = [] ↔ ∀ c ∈ rest, ¬ best.score ≤ c.score := by
  cases tied with
  | nil =>
    cases hsplit
    exact iff_of_true rfl hbelow
  | cons first tied =>
    cases hsplit
    exact iff_of_false (List.cons_ne_nil _ _) fun h => h winner (by simp) hle

omit [Scalar α] [RandomSource ρ] in
/-- A candidate behind the first one is another one if no two have the same number. -/
theorem eq_iff_tied_nil (hsplit : best :: rest = tied ++ winner :: below)
    (hids : ((best :: rest).map (·.id)).Nodup) : best = winner ↔ tied = [] := by
  cases tied with
  | nil =>
    cases hsplit
    exact iff_of_true rfl rfl
  | cons first tied =>
    cases hsplit
    refine iff_of_false ?_ (List.cons_ne_nil _ _)
    rintro rfl
    exact (List.nodup_cons.mp hids).1 (List.mem_map_of_mem (by simp))

/-- A round records the candidate in front of its ranking, while the breeder takes the last of those
with the same score for the winner, which gets a guaranteed place in the next generation unless it
has one already. They are the same exactly when there is no tie for the first place. -/
theorem best_is_winner_iff (ht : Comparable t.Scores)
    (h : t.playRound round population s = .ok ranking s') :
    ∃ best rest tied winner below,
      ranking = best :: rest ∧ s'.history = s.history ++ [best] ∧
      ranking = tied ++ winner :: below ∧ (rank ranking).getLast? = some winner ∧
      (∀ c ∈ tied, best.score ≤ c.score) ∧ (∀ c ∈ below, ¬ best.score ≤ c.score) ∧
      (∀ (size : Quantity α) (n n' : Nursery ρ) next, t.breeder.breed ranking size n = .ok next n' →
        ∃ places : Int, size.ceil = .ok places ∧
          ((guaranteed (rank ranking) winner).take places.toNat).map (fun c => [c.id]) <+:
            next.map (·.parents)) ∧
      (tied = [] ↔ ∀ c ∈ rest, ¬ best.score ≤ c.score) ∧
      ((population.map (·.id)).Nodup → (best = winner ↔ tied = [])) := by
  obtain ⟨scored, s₁, best, rest, hjudged, rfl, hstandings, hcrown⟩ := judged_of_playRound h
  obtain ⟨hpedigrees, hscores, hstands, -⟩ := judged_ok hjudged
  obtain ⟨tied, winner, below, hsplit, hlast, hle, htied, hbelow⟩ :=
    exists_tied ht hscores hstandings
  have hhistory : s'.history = s.history ++ [best] := by
    cases hcrown
    rw [hstands.history]
  -- scoring and ranking change the order but not the numbers
  have hids : (population.map (·.id)).Nodup → ((best :: rest).map (·.id)).Nodup := fun hids => by
    have hperm : (best :: rest).Perm scored := hstandings ▸ List.mergeSort_perm scored _
    exact (hperm.map _).nodup_iff.mpr (map_id_of_pedigree hpedigrees ▸ hids)
  rw [hstandings]
  exact ⟨best, rest, tied, winner, below, rfl, hhistory, hsplit, hlast, htied, hbelow,
    fun _ _ _ _ hbreed => breed_guaranteed hlast hbreed, tied_nil_iff hsplit hle hbelow,
    fun h => eq_iff_tied_nil hsplit (hids h)⟩

def keptAt (id : Nat) (tenths : Int) : Candidate Tenths :=
  { kept id 55 [] with score := ⟨tenths⟩ }

/-- Without a tie the round's best is the winner. -/
theorem best_is_winner_trial : ∃ ranking s', Comparable trial.Scores ∧
    trial.playRound 1 [kept 1 55 [], kept 2 55 []] (arenaOf 3 4 []) = .ok ranking s' ∧
    ∃ best, s'.history = [best] ∧ (rank ranking).getLast? = some best := by
  have hround : trial.playRound 1 [kept 1 55 [], kept 2 55 []] (arenaOf 3 4 []) =
      .ok [keptAt 2 2, keptAt 1 1] (arenaOf 3 4 [keptAt 2 2]) := by
    cbv
  obtain ⟨_, rest, tied, winner, below, hranking, hhistory, hsplit, hlast, -, -, -, hnil, -⟩ :=
    best_is_winner_iff (comparable_tenths _) hround
  cases hranking
  cases hnil.mpr (by decide)
  cases hsplit
  exact ⟨_, _, comparable_tenths _, hround, _, hhistory, hlast⟩

/-- Of two candidates that tie, the first is the round's best, and the second has the guaranteed
place. -/
theorem best_not_winner : ∃ ranking s' best winner next n',
    level.playRound 1 [kept 1 55 [], kept 2 55 []] (arenaOf 3 4 []) = .ok ranking s' ∧
    s'.history = [best] ∧ (rank ranking).getLast? = some winner ∧ best.id = 1 ∧ winner.id = 2 ∧
    level.breeder.breed ranking (.whole 2) s'.nursery = .ok next n' ∧
    next.head?.map (·.parents) = some [2] := by
  obtain ⟨weight, drawn, hbreed⟩ := breed_level
  exact ⟨_, _, kept 1 55 [], kept 2 55 [], _, _, playRound_level, rfl, by cbv, rfl, rfl, hbreed, rfl⟩

end ProbeForge.Tournament
