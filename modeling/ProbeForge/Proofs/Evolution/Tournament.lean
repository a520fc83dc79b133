import Mathlib
import ProbeForge.Evolution.Tournament
import ProbeForge.Proofs.Evolution.Numbering

/-!
# Tournaments keep viable weights

A tournament that begins with accepted weights, none of them below one, has only such weights in
every generation, and so has its champion.
-/

namespace ProbeForge.Tournament

open Breeder

variable {α σ ρ : Type} {t : Tournament α σ} {b : Breeder α} {c c' : Candidate α}
  {population scored : List (Candidate α)} {s s' : Arena α σ ρ} {round : Int}

/-- The weights that a tournament begins with. -/
def firstWeights (t : Tournament α σ) : List Int :=
  t.initialWeights.getD t.breeder.prototype.weights

/-- Candidates with the grammars of a population, whatever their scores and their order are. -/
def Rescored (population scored : List (Candidate α)) : Prop :=
  ∀ c ∈ scored, ∃ before ∈ population, c.grammar = before.grammar

theorem Rescored.allViable (h : Rescored population scored)
    (hpopulation : b.AllViable population) : b.AllViable scored := by
  intro c hc
  obtain ⟨before, hbefore, hsame⟩ := h c hc
  rw [hsame]
  exact hpopulation before hbefore

/-! ### Arenas -/

/-- Playing and scoring leave the title and the history of an arena as they are. -/
structure Stands (s s' : Arena α σ ρ) : Prop where
  champion : s'.champion = s.champion
  history : s'.history = s.history

theorem Stands.trans {s₁ : Arena α σ ρ} (h : Stands s s₁) (h₁ : Stands s₁ s') : Stands s s' :=
  ⟨h₁.champion.trans h.champion, h₁.history.trans h.history⟩

theorem inNursery_ok {β : Type} {x : Attempt (Nursery ρ) β} {b : β}
    (h : inNursery x s = .ok b s') : (∃ nursery, x s.nursery = .ok b nursery) ∧ Stands s s' := by
  obtain ⟨nursery, hx, rfl⟩ := attempt_on_ok.mp h
  exact ⟨⟨nursery, hx⟩, rfl, rfl⟩

/-- Champion and history have viable weights. -/
structure Honoured (b : Breeder α) (s : Arena α σ ρ) : Prop where
  champion : ∀ c ∈ s.champion, b.Viable c.grammar
  history : ∀ c ∈ s.history, b.Viable c.grammar

theorem Honoured.stands (hs : Honoured b s) (h : Stands s s') : Honoured b s' :=
  ⟨h.champion ▸ hs.champion, h.history ▸ hs.history⟩

theorem saveChampion_ok {champion : Option (Candidate α)}
    (h : t.saveChampion champion s = .ok () s') : Stands s s' := by
  unfold saveChampion at h
  cases champion with
  | none =>
    obtain ⟨-, rfl⟩ := attempt_pure_ok.mp h
    exact ⟨rfl, rfl⟩
  | some c =>
    dsimp only at h
    split at h
    · obtain ⟨folder, s₁, hfolder, h⟩ := attempt_bind_ok.mp h
      obtain ⟨-, rfl⟩ := attempt_lift_ok.mp hfolder
      obtain ⟨path, s₂, hwrite, h⟩ := attempt_bind_ok.mp h
      obtain ⟨files, -, rfl⟩ := attempt_on_ok.mp hwrite
      obtain ⟨-, rfl⟩ := attempt_pure_ok.mp h
      exact ⟨rfl, rfl⟩
    · obtain ⟨-, rfl⟩ := attempt_pure_ok.mp h
      exact ⟨rfl, rfl⟩

/-- A tournament ends by giving the champion of its last round. -/
theorem award_ok {champion : Option (Candidate α)}
    (h : (do
      let champion := (← get).champion
      t.saveChampion champion
      return champion : Attempt (Arena α σ ρ) (Option (Candidate α))) s = .ok champion s') :
    champion = s.champion ∧ Stands s s' := by
  obtain ⟨arena, s₁, hget, h⟩ := attempt_bind_ok.mp h
  cases hget
  obtain ⟨⟨⟩, s₂, hsaved, h⟩ := attempt_bind_ok.mp h
  obtain ⟨rfl, rfl⟩ := attempt_pure_ok.mp h
  exact ⟨rfl, saveChampion_ok hsaved⟩

/-! ### The first generation -/

variable [Scalar α]

/-- What makes a tournament begin well. A prototype that is entered as it is has totals in sync. -/
structure Begins (t : Tournament α σ) : Prop where
  grouped : t.breeder.prototype.Grouped
  coherent : t.initialWeights = none → t.breeder.prototype.Coherent
  positive : ∀ w ∈ t.firstWeights, 1 ≤ w
  accepted : t.breeder.accepts (t.breeder.prototype.replaceWeights t.firstWeights) = .ok true

theorem Begins.viable_spawn (ht : t.Begins) {c : Candidate α} {s s' : Nursery ρ}
    (h : t.breeder.spawn t.initialWeights [] s = .ok c s') : t.breeder.Viable c.grammar := by
  obtain ⟨-, hcoherent, hpositive, haccepted⟩ := ht
  unfold firstWeights at hpositive haccepted
  cases hweights : t.initialWeights with
  | none =>
    -- the prototype is entered as it is, and no weights are written that would set its totals
    rw [hweights] at h hpositive haccepted
    have hp := hcoherent hweights
    cases h
    rw [Option.getD_none, hp.replaceWeights_self] at haccepted
    exact ⟨Grammar.Fits.self hp hpositive, haccepted⟩
  | some weights =>
    rw [hweights] at h hpositive haccepted
    rw [Option.getD_some] at hpositive haccepted
    have hset := spawn_weights_ok h
    have hlength := Grammar.length_of_setWeights hset
    rw [Grammar.setWeights_of_pos hlength hpositive] at hset
    rw [← Except.ok.inj hset]
    exact ⟨Grammar.fits_replaceWeights hlength hpositive, haccepted⟩

theorem Begins.spawnMany (ht : t.Begins) {k : Nat} {s s' : Nursery ρ}
    (h : t.breeder.spawnMany t.initialWeights k s = .ok population s') :
    t.breeder.AllViable population := by
  induction k generalizing population s with
  | zero =>
    obtain ⟨rfl, -⟩ := attempt_pure_ok.mp h
    exact fun c hc => nomatch hc
  | succ k ih =>
    obtain ⟨c, s₁, hc, h⟩ := attempt_bind_ok.mp h
    obtain ⟨rest, s₂, hrest, h⟩ := attempt_bind_ok.mp h
    obtain ⟨rfl, rfl⟩ := attempt_pure_ok.mp h
    exact List.forall_mem_cons.mpr ⟨ht.viable_spawn hc, ih hrest⟩

variable [RandomSource ρ]

theorem Begins.first (ht : t.Begins) {s s' : Nursery ρ}
    (h : t.initialPopulation s = .ok population s') : t.breeder.AllViable population := by
  obtain ⟨size, s₁, -, h⟩ := attempt_bind_ok.mp h
  obtain ⟨spawned, s₂, hspawned, h⟩ := attempt_bind_ok.mp h
  exact allViable_mutateGeneration ht.grouped (ht.spawnMany hspawned) h

/-! ### Rounds -/

omit [Scalar α] in
/-- Probes are generated from a candidate's grammar and leave it as it is. -/
theorem kept_probe (setting : Setting) (count : Nat) (c : Candidate α) (source : ρ) :
    (c.probe setting count source).2.1.grammar = c.grammar ∧
      (c.probe setting count source).2.1.pedigree = c.pedigree := by
  induction count generalizing c source with
  | zero => exact ⟨rfl, rfl⟩
  | succ count ih =>
    unfold Candidate.probe
    dsimp only
    split
    · exact ⟨rfl, rfl⟩
    · exact ih _ _

/-- Playing keeps what a candidate is known by and its weights, and the number that comes next. -/
structure Untouched (c c' : Candidate α) (s s' : Arena α σ ρ) : Prop where
  grammar : c'.grammar = c.grammar
  pedigree : c'.pedigree = c.pedigree
  stands : Stands s s'
  next : s'.nursery.nextId = s.nursery.nextId

theorem probe_ok {probes : List Generation} (h : t.probe round c s = .ok (probes, c') s') :
    Untouched c c' s s' := by
  obtain ⟨count, s₁, hcount, h⟩ := attempt_bind_ok.mp h
  obtain ⟨-, rfl⟩ := attempt_lift_ok.mp hcount
  obtain ⟨⟨probes, probed⟩, s₂, hprobed, h⟩ := attempt_bind_ok.mp h
  -- probing
  have hkept : Untouched c probed s s₂ := by
    obtain ⟨nursery, hrun, rfl⟩ := attempt_on_ok.mp hprobed
    obtain ⟨hgrammar, hpedigree⟩ := kept_probe t.setting count.toNat c.reset s.nursery.source
    unfold Breeder.probed at hrun
    split at hrun
    case h_1 heq =>
      cases hrun
      rw [heq] at hgrammar hpedigree
      exact ⟨hgrammar, hpedigree, ⟨rfl, rfl⟩, rfl⟩
    case h_2 => cases hrun
  -- saving the probes
  dsimp only at h
  split at h
  · obtain ⟨folder, s₃, hfolder, h⟩ := attempt_bind_ok.mp h
    obtain ⟨-, rfl⟩ := attempt_lift_ok.mp hfolder
    obtain ⟨saved, s₄, hsaved, h⟩ := attempt_bind_ok.mp h
    obtain ⟨hpair, rfl⟩ := attempt_pure_ok.mp h
    obtain ⟨files, hsave, rfl⟩ := attempt_on_ok.mp hsaved
    obtain ⟨⟨⟩, _, -, hsave⟩ := attempt_bind_ok.mp hsave
    obtain ⟨rfl, -⟩ := attempt_pure_ok.mp hsave
    cases hpair
    exact ⟨hkept.grammar, hkept.pedigree, ⟨hkept.stands.champion, hkept.stands.history⟩, hkept.next⟩
  · obtain ⟨hpair, rfl⟩ := attempt_pure_ok.mp h
    cases hpair
    exact hkept

theorem play_ok (h : t.play round c s = .ok c' s') : Untouched c c' s s' := by
  obtain ⟨⟨probes, probed⟩, s₁, hprobed, h⟩ := attempt_bind_ok.mp h
  have hkept := probe_ok hprobed
  obtain ⟨counts, s₂, hcounts, h⟩ := attempt_bind_ok.mp h
  have hcounts : Stands s₁ s₂ ∧ s₂.nursery.nextId = s₁.nursery.nextId := by
    unfold outcomes at hcounts
    cases hexecute : t.execute with
    | some execute =>
      rw [hexecute] at hcounts
      obtain ⟨backend, -, rfl⟩ := attempt_on_ok.mp hcounts
      exact ⟨⟨rfl, rfl⟩, rfl⟩
    | none =>
      rw [hexecute] at hcounts
      obtain ⟨-, rfl⟩ := attempt_pure_ok.mp hcounts
      exact ⟨⟨rfl, rfl⟩, rfl⟩
  have hrecorded : (probed.record counts).2.grammar = probed.grammar ∧
      (probed.record counts).2.pedigree = probed.pedigree := ⟨rfl, rfl⟩
  rcases hrecord : probed.record counts with ⟨_ | fault, recorded⟩
  · rw [hrecord] at h hrecorded
    obtain ⟨rfl, rfl⟩ := attempt_pure_ok.mp h
    exact ⟨hrecorded.1.trans hkept.grammar, hrecorded.2.trans hkept.pedigree,
      hkept.stands.trans hcounts.1, hcounts.2.trans hkept.next⟩
  · rw [hrecord] at h
    cases h

/-- A round gives the candidates of the population their scores, and there is at least one. -/
theorem playRound_ok (h : t.playRound round population s = .ok scored s') :
    Rescored population scored ∧ ∃ best ∈ scored,
      (s'.champion = s.champion ∨ s'.champion = some best) ∧ s'.history = s.history ++ [best] := by
  obtain ⟨played, s₁, hplayed, h⟩ := attempt_bind_ok.mp h
  obtain ⟨hplayed, hstands⟩ := attempt_mapM_ok (I := Stands s)
    (P := fun c => ∃ before ∈ population, c.grammar = before.grammar)
    (fun c hc _ _ _ hs hrun =>
      ⟨⟨c, hc, (play_ok hrun).grammar⟩, hs.trans (play_ok hrun).stands⟩)
    ⟨rfl, rfl⟩ hplayed
  obtain ⟨judged, s₂, hjudged, h⟩ := attempt_bind_ok.mp h
  obtain ⟨hjudged, hstands⟩ := attempt_mapM_ok (I := Stands s)
    (P := fun c => ∃ before ∈ population, c.grammar = before.grammar)
    (fun c hc _ scored _ hs hscore => by
      obtain ⟨hjudge, rfl⟩ := attempt_lift_ok.mp hscore
      obtain ⟨verdict, -, hjudge⟩ := bind_ok.mp hjudge
      cases pure_ok.mp hjudge
      exact ⟨hplayed c hc, hs⟩)
    hstands hjudged
  -- the standings are the judged candidates in another order
  have hrescored : Rescored population (standings judged) :=
    fun c hc => hjudged c ((List.mergeSort_perm judged _).mem_iff.mp hc)
  cases hranked : standings judged with
  | nil =>
    rw [hranked] at h
    cases h
  | cons best rest =>
    rw [hranked] at h hrescored
    obtain ⟨⟨⟩, s₃, hcrown, h⟩ := attempt_bind_ok.mp h
    obtain ⟨rfl, rfl⟩ := attempt_pure_ok.mp h
    cases hcrown
    refine ⟨hrescored, best, List.mem_cons_self, ?_, by rw [hstands.history]⟩
    dsimp only
    split
    · exact .inr rfl
    · exact .inl hstands.champion

theorem Honoured.playRound (hs : Honoured b s) (hpopulation : b.AllViable population)
    (h : t.playRound round population s = .ok scored s') :
    Honoured b s' ∧ b.AllViable scored ∧ scored ≠ [] := by
  obtain ⟨hrescored, best, hbest, hchampion, hhistory⟩ := playRound_ok h
  have hscored := hrescored.allViable hpopulation
  refine ⟨⟨fun c hc => ?_, fun c hc => ?_⟩, hscored, List.ne_nil_of_mem hbest⟩
  · rcases hchampion with hsame | hnew
    · exact hs.champion c (hsame ▸ hc)
    · rw [hnew] at hc
      cases hc
      exact hscored best hbest
  · rw [hhistory] at hc
    rcases List.mem_append.mp hc with hc | hc
    · exact hs.history c hc
    · cases List.mem_singleton.mp hc
      exact hscored best hbest

/-! ### Whole tournaments -/

theorem Begins.playRounds (ht : t.Begins) (hs : Honoured t.breeder s)
    (hpopulation : t.breeder.AllViable population) {left : Nat}
    (h : t.playRounds round left population s = .ok () s') : Honoured t.breeder s' := by
  induction left generalizing round population s with
  | zero =>
    obtain ⟨scored, s₁, hround, h⟩ := attempt_bind_ok.mp h
    obtain ⟨-, rfl⟩ := attempt_pure_ok.mp h
    exact (hs.playRound hpopulation hround).1
  | succ left ih =>
    obtain ⟨scored, s₁, hround, h⟩ := attempt_bind_ok.mp h
    obtain ⟨hs₁, hscored, hne⟩ := hs.playRound hpopulation hround
    obtain ⟨next, s₂, hbreed, h⟩ := attempt_bind_ok.mp h
    obtain ⟨⟨nursery, hbreed⟩, hstands⟩ := inNursery_ok hbreed
    exact ih (hs₁.stands hstands) (allViable_breed ht.grouped hne hscored hbreed) h

/-- The champion of a tournament and the best of its rounds have viable weights. -/
theorem Begins.run (ht : t.Begins) (hs : Honoured t.breeder s) {champion : Option (Candidate α)}
    (h : t.run s = .ok champion s') :
    Honoured t.breeder s' ∧ ∀ c ∈ champion, t.breeder.Viable c.grammar := by
  obtain ⟨population, s₁, hfirst, h⟩ := attempt_bind_ok.mp h
  obtain ⟨⟨nursery, hfirst⟩, hstands⟩ := inNursery_ok hfirst
  obtain ⟨rounds, s₂, hrounds, h⟩ := attempt_bind_ok.mp h
  obtain ⟨-, rfl⟩ := attempt_lift_ok.mp hrounds
  have hs₁ := hs.stands hstands
  cases hleft : rounds.toNat with
  | zero =>
    rw [hleft] at h
    obtain ⟨rfl, hstands⟩ := award_ok h
    exact ⟨hs₁.stands hstands, hs₁.champion⟩
  | succ left =>
    rw [hleft] at h
    obtain ⟨⟨⟩, s₂, hplayed, h⟩ := attempt_bind_ok.mp h
    have hs₂ := ht.playRounds hs₁ (ht.first hfirst) hplayed
    obtain ⟨rfl, hstands⟩ := award_ok h
    exact ⟨hs₂.stands hstands, hs₂.champion⟩

/-! ### Every generation -/

/-- The generations of a tournament: the first one, and what is bred from a generation however it
was scored and ordered. -/
inductive Population (ρ : Type) [RandomSource ρ] (t : Tournament α σ) :
    List (Candidate α) → Prop where
  | first {population : List (Candidate α)} {s s' : Nursery ρ}
      (h : t.initialPopulation s = .ok population s') : Population ρ t population
  | next {population scored next : List (Candidate α)} {size : Quantity α} {s s' : Nursery ρ}
      (generation : Population ρ t population) (rescored : Rescored population scored)
      (nonempty : scored ≠ []) (h : t.breeder.breed scored size s = .ok next s') :
      Population ρ t next

theorem Begins.allViable (ht : t.Begins) (h : Population ρ t population) :
    t.breeder.AllViable population := by
  induction h with
  | first h => exact ht.first h
  | next _ rescored nonempty h ih =>
    exact allViable_breed ht.grouped nonempty (rescored.allViable ih) h

/-- In every generation of a tournament that begins well, each candidate is the prototype with as
many weights as it has rules, none of them below one and all of them accepted, and with totals in
sync. -/
theorem population_viable (ht : t.Begins) (h : Population ρ t population) :
    ∀ c ∈ population, c.weights.length = t.breeder.prototype.ruleCount ∧ (∀ w ∈ c.weights, 1 ≤ w) ∧
      (∀ group ∈ c.grammar.groups, group.total = c.grammar.weightSum group.rules) ∧
      c.grammar = t.breeder.prototype.replaceWeights c.weights ∧
      t.breeder.accepts c.grammar = .ok true := by
  intro c hc
  have hviable := ht.allViable h c hc
  exact ⟨hviable.length, hviable.positive, (hviable.coherent ht.grouped).total, hviable.same.symm,
    hviable.accepted⟩

/-- Fixed-point numbers with one digit, where every float counts as one. -/
structure Tenths where
  tenths : Int
deriving DecidableEq

instance : Scalar Tenths where
  zero := ⟨0⟩
  one := ⟨10⟩
  add x y := ⟨x.tenths + y.tenths⟩
  sub x y := ⟨x.tenths - y.tenths⟩
  mul x y := ⟨x.tenths * y.tenths / 10⟩
  div x y := ⟨10 * x.tenths / y.tenths⟩
  lt x y := x.tenths < y.tenths
  le x y := x.tenths ≤ y.tenths
  decidableLT x y := Int.decLt x.tenths y.tenths
  decidableLE x y := Int.decLe x.tenths y.tenths
  ofInt n := .ok ⟨10 * n⟩
  ratio n d := ⟨10 * n / d⟩
  ofFloat _ := ⟨10⟩
  truncate x := .ok (x.tenths.tdiv 10)
  ceil x := .ok (-(-x.tenths / 10))
  round x := .ok ((x.tenths + 5) / 10)
  isFinite _ := true

/-- Bounded draws that take turns. -/
structure Turns where
  drawn : Nat

instance : RandomSource Turns where
  seeded _ := ⟨0⟩
  below n turns := (⟨turns.drawn % (n + 1), Nat.mod_lt _ (Nat.succ_pos n)⟩, ⟨turns.drawn + 1⟩)
  unit turns := (0, turns)
  normal turns := (0, turns)

/-- A symbol that is doubled or ends. -/
def doubling : Grammar :=
  let rule (right : List String) (weight : Int) : RuleEntry :=
    ⟨⟨⟨"S"⟩, right.map (⟨·⟩)⟩, weight, .null, .null⟩
  { Grammar.empty .null with
    table := #[rule ["S", "S"] 20, rule ["a"] 30]
    groups := #[⟨⟨"S"⟩, 50, [0, 1]⟩] }

/-- A tournament in which the first rule may not gain weight. -/
def trial : Tournament Tenths Unit where
  breeder :=
    { prototype := doubling
      accepts := fun g => .ok (g.weights.headD 0 ≤ 20)
      population := .whole 2
      mutation := .rule
      crossover := .nonterminal
      mutationRate := 0
      passThrough := 0 }
  setting := ⟨none, .null⟩
  rounds := .ok 2
  probeCount := .ok 0
  judge c := .ok (⟨c.id⟩, false)
  execute := none
  initialWeights := some [20, 50]
  workDir := .null
  saveFiles := false

theorem begins_trial : trial.Begins where
  grouped := ⟨by decide, by decide, by decide, by decide⟩
  coherent h := nomatch h
  positive := by decide
  accepted := by rfl

def kept (id : Nat) (weight : Int) (parents : List Nat) : Candidate Tenths :=
  .fresh id (doubling.replaceWeights [20, weight]) parents

theorem initialPopulation_trial :
    trial.initialPopulation ⟨1, (⟨0⟩ : Turns)⟩ = .ok [kept 1 55 [], kept 2 55 []] ⟨3, ⟨4⟩⟩ := by
  cbv

/-- A copy of the winner, another copy and a child. -/
theorem assemble_trial :
    trial.breeder.assemble (kept 1 55 []) [kept 2 55 []] (.whole 3) ⟨3, (⟨4⟩ : Turns)⟩ =
      .ok [kept 3 55 [2], kept 4 55 [2], kept 5 55 [2, 1]] ⟨6, ⟨8⟩⟩ := by
  cbv

/-- Where draws between zero and one are all the same, the rate decides for all alike. -/
theorem mutateGeneration_turns (b : Breeder Tenths) (l : List (Candidate Tenths)) :
    b.mutateGeneration (ρ := Turns) false l = b.mutateGeneration true l ∨
      b.mutateGeneration (ρ := Turns) false l = l.mapM pure := by
  have hdraw : draw (isChosen b.mutationRate false) =
      (pure (decide ((0 : Float) < b.mutationRate)) : Attempt (Nursery Turns) Bool) := rfl
  unfold mutateGeneration mutateSome
  rw [hdraw]
  cases decide ((0 : Float) < b.mutationRate) with
  | true => exact .inl rfl
  | false => exact .inr rfl

theorem breed_trial :
    ∃ next s, trial.breeder.breed [kept 1 55 [], kept 2 55 []] (.whole 3) ⟨3, (⟨4⟩ : Turns)⟩ =
      .ok next s ∧ next.map (·.id) = [3, 4, 5] := by
  rcases mutateGeneration_turns trial.breeder [kept 3 55 [2], kept 4 55 [2], kept 5 55 [2, 1]]
    with hall | hnone
  · refine ⟨[kept 3 60 [2], kept 4 60 [2], kept 5 60 [2, 1]], ⟨6, ⟨14⟩⟩,
      attempt_bind_ok.mpr ⟨_, _, assemble_trial, ?_⟩, rfl⟩
    rw [hall]
    cbv
  · refine ⟨[kept 3 55 [2], kept 4 55 [2], kept 5 55 [2, 1]], ⟨6, ⟨8⟩⟩,
      attempt_bind_ok.mpr ⟨_, _, assemble_trial, ?_⟩, rfl⟩
    rw [hnone]
    rfl

theorem population_viable_trial :
    ∃ next, trial.Begins ∧ Population Turns trial next ∧ next.map (·.id) = [3, 4, 5] ∧
      ∀ c ∈ next, c.weights.length = 2 ∧ (∀ w ∈ c.weights, 1 ≤ w) ∧
        (∀ group ∈ c.grammar.groups, group.total = c.grammar.weightSum group.rules) ∧
        c.grammar = doubling.replaceWeights c.weights ∧
        trial.breeder.accepts c.grammar = .ok true := by
  obtain ⟨next, s, hbreed, hids⟩ := breed_trial
  have hnext : Population Turns trial next :=
    .next (.first initialPopulation_trial) (fun c hc => ⟨c, hc, rfl⟩) (List.cons_ne_nil _ _) hbreed
  exact ⟨next, begins_trial, hnext, hids, population_viable begins_trial hnext⟩

end ProbeForge.Tournament
