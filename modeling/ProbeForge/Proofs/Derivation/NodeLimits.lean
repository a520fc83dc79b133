import ProbeForge.Proofs.Derivation.Depth
import ProbeForge.Proofs.Derivation.Runs

/-!
# What the node limit does

A growth always ends, soon after its tree is over the limit if not before, and never because its
turns are used up. The limit does nothing but cut growths off: one that comes to its end under a
limit takes the same turns under every larger one.
-/

namespace ProbeForge

/-- The most nodes that a growth has and the most turns that it takes. -/
def Job.reach (job : Job) : Int := max 1 (job.limit + job.grammar.longestRight)

theorem Job.reach_le_turns (job : Job) : job.reach ≤ job.turns := by
  unfold reach turns
  omega

/-- The job with another limit. -/
def Job.within (job : Job) (limit : Int) : Job := { job with limit }

namespace Growth

variable {ρ : Type} [RandomSource ρ] {job : Job} {i : Nat} {s s' r : Growth ρ} {taken : List Nat}
  {symbol : Symbol} {source : ρ}

/-! ### Bounds -/

theorem size_visit_le {pending : List Nat} (hs : s.tree.size ≤ job.reach)
    (h : visit job i { s with pending } = (none, s')) : s'.tree.size ≤ job.reach := by
  obtain ⟨new, -, hsize, hfits⟩ := pending_visit h
  by_cases hnew : new = 0
  · rwa [hsize, hnew]
  · obtain ⟨hwithin, hright⟩ := hfits hnew
    unfold Job.reach
    omega

omit [RandomSource ρ] in
theorem size_start_le (job : Job) (symbol : Symbol) (source : ρ) :
    (start symbol source).tree.size ≤ job.reach := le_max_left _ _

theorem Reaches.size_le {n : Nat} (h : Reaches job (.start symbol source) n r) :
    r.tree.size ≤ job.reach :=
  h.invariant (P := fun r => r.tree.size ≤ job.reach) (size_start_le job symbol source)
    fun _ _ _ _ _ hvisit hr => size_visit_le hr hvisit

theorem Runs.size_le_reach {outcome : Option Halt × Growth ρ} (h : Runs job s taken outcome)
    (hs : s.tree.size ≤ job.reach) : outcome.2.tree.size ≤ job.reach := by
  induction h with
  | complete => exact hs
  | halted _ visited => exact size_visit_halted visited ▸ hs
  | turn _ visited _ ih => exact ih (size_visit_le hs visited)

/-! ### Ends -/

theorem run_ne_unfinished (hg : job.grammar.Grouped) {halt : Option Halt}
    (h : run job job.turns (.start symbol source) = (halt, r)) : halt ≠ some .unfinished := by
  rintro rfl
  obtain ⟨n, s, i, pending, -, -, hvisit⟩ := run_halted hg h
  exact visit_ne_unfinished hvisit rfl

/-- A growth ends by itself, at a nonterminal when its tree is over the limit, or at a fault of a
generator. -/
theorem run_ended (hg : job.grammar.Coherent) (hw : ∀ entry ∈ job.grammar.table, 1 ≤ entry.weight)
    {halt : Option Halt} (h : run job job.turns (.start symbol source) = (halt, r)) :
    halt = none ∨ (∃ failure, halt = some (.failure failure)) ∧ job.limit < r.tree.size ∨
      ∃ fault, halt = some (.fault fault) ∧ job.grammar.Misbehaves fault := by
  cases halt with
  | none => exact .inl rfl
  | some halt =>
    obtain ⟨n, s, i, pending, hreached, hwaits, hvisit⟩ := run_halted hg.grouped h
    have hs := hwaits ▸ hreached.derives hg.grouped
    rcases misbehaves_visit (s := { s with pending }) hg hw hs hvisit with
      ⟨fault, rfl, hfault⟩ | ⟨⟨failure, rfl⟩, hover⟩
    · exact .inr (.inr ⟨fault, rfl, hfault⟩)
    · exact .inr (.inl ⟨⟨failure, rfl⟩, size_visit_halted hvisit ▸ hover⟩)

/-! ### Larger limits -/

/-- A turn that goes on does the same under a larger limit. -/
theorem visit_within {limit : Int} (hlimit : job.limit ≤ limit)
    (h : visit job i s = (none, s')) : visit (job.within limit) i s = (none, s') := by
  have hgrammar : (job.within limit).grammar = job.grammar := rfl
  unfold visit at h ⊢
  rw [hgrammar]
  cases hnode : s.tree.nodes[i]? with
  | none =>
    rw [hnode] at h
    cases h
  | some node =>
    rw [hnode] at h
    dsimp only at h ⊢
    cases hgroup : job.grammar.group? node.symbol with
    | none =>
      rw [hgroup] at h
      exact h
    | some group =>
      rw [hgroup] at h
      dsimp only at h ⊢
      split at h
      case isTrue => cases h
      case isFalse hfits =>
        have hfits' : ¬ (s.tree.size : Int) > limit := by omega
        exact (if_neg hfits').trans h

theorem Runs.within {limit : Int} (hlimit : job.limit ≤ limit) (h : Runs job s taken (none, r)) :
    Runs (job.within limit) s taken (none, r) := by
  generalize houtcome : (none, r) = outcome at h
  induction h with
  | complete done =>
    cases houtcome
    exact .complete done
  | halted => cases houtcome
  | turn waits visited _ ih => exact .turn waits (visit_within hlimit visited) (ih houtcome)

/-! ### The whole growth -/

/-- Whatever is drawn, a growth is a run that takes no node twice, with no more turns and no more
nodes than the limit and one right side, and it ends by itself, over the limit, or at a fault of a
generator. If it ends by itself it is the same run, with the same tree and the same draws left, under
every larger limit. -/
theorem run_bounded (job : Job) (hg : job.grammar.Coherent)
    (hw : ∀ entry ∈ job.grammar.table, 1 ≤ entry.weight) (symbol : Symbol) (source : ρ) :
    ∃ taken halt r, Runs job (.start symbol source) taken (halt, r) ∧
      run job job.turns (.start symbol source) = (halt, r) ∧
      taken.length ≤ job.reach ∧ taken.Nodup ∧ r.tree.size ≤ job.reach ∧
      (∀ n s, Reaches job (.start symbol source) n s → s.tree.size ≤ job.reach) ∧
      (halt = none ∨ (∃ failure, halt = some (.failure failure)) ∧ job.limit < r.tree.size ∨
        ∃ fault, halt = some (.fault fault) ∧ job.grammar.Misbehaves fault) ∧
      ((∀ entry ∈ job.grammar.table, ∃ generator, Generator.resolve entry.generator = .ok generator) →
        ∀ fault, halt = some (.fault fault) → ∃ misuse, fault = .misuse misuse) ∧
      (halt = none → ∀ limit, job.limit ≤ limit →
        Runs (job.within limit) (.start symbol source) taken (none, r) ∧
        run (job.within limit) (job.within limit).turns (.start symbol source) = (none, r)) := by
  obtain ⟨⟨halt, r⟩, hrun⟩ : ∃ outcome, run job job.turns (.start symbol source) = outcome :=
    ⟨_, rfl⟩
  obtain ⟨taken, hruns, -⟩ := runs_of_run hrun (run_ne_unfinished hg.grouped hrun)
  have hqueued := queued_start symbol source
  have hsize := hruns.size_le_reach (size_start_le job symbol source)
  have hlength := hruns.length_le hqueued
  dsimp only at hsize hlength
  refine ⟨taken, halt, r, hruns, hrun, by omega, (hruns.taken_once hqueued).1, hsize,
    fun n s hreached => hreached.size_le, run_ended hg hw hrun, ?_, ?_⟩
  · rintro hresolved fault rfl
    rcases run_ended hg hw hrun with h | ⟨⟨_, h⟩, -⟩ | ⟨_, h, hfault⟩ <;> cases h
    cases hfault with
    | unknown mem failed =>
      obtain ⟨generator, hresolve⟩ := hresolved _ mem
      cases failed.symm.trans hresolve
    | misused misuse => exact ⟨misuse, rfl⟩
  · rintro rfl limit hlimit
    -- the run is within every larger limit, which leaves it turns enough
    have hwide := hruns.within hlimit
    have hreach : job.reach ≤ (job.within limit).reach := by
      unfold Job.reach Job.within
      dsimp only
      omega
    have hturns := (job.within limit).reach_le_turns
    exact ⟨hwide, hwide.run_eq (by omega)⟩

/-- The symbol that is nested, with one nesting, which takes five nodes. A limit of four is just
enough. -/
theorem run_bounded_nesting : ∃ taken r,
    Runs ⟨nesting, .empty, 4, ⟨false, true, false⟩⟩ (.start ⟨"S"⟩ (⟨[0, 2]⟩ : Draws)) taken
      (none, r) ∧
    taken.Nodup ∧ taken.length ≤ 7 ∧ r.tree.size = 5 ∧
    run ⟨nesting, .empty, 100, ⟨false, true, false⟩⟩ 103 (.start ⟨"S"⟩ ⟨[0, 2]⟩) = (none, r) := by
  have hg : nesting.Coherent := ⟨by decide, by decide, by decide, by decide, by decide⟩
  obtain ⟨taken, halt, r, hruns, hrun, hlength, honce, -, -, -, -, hwider⟩ :=
    run_bounded ⟨nesting, .empty, 4, ⟨false, true, false⟩⟩ hg (by decide) ⟨"S"⟩
      (⟨[0, 2]⟩ : Draws)
  have hhalt : (run ⟨nesting, .empty, 4, ⟨false, true, false⟩⟩ 7
      (.start ⟨"S"⟩ (⟨[0, 2]⟩ : Draws))).1 = none := Option.isNone_iff_eq_none.mp (by decide +kernel)
  have hsize : (run ⟨nesting, .empty, 4, ⟨false, true, false⟩⟩ 7
      (.start ⟨"S"⟩ (⟨[0, 2]⟩ : Draws))).2.tree.size = 5 := by decide +kernel
  have hturns : Job.turns ⟨nesting, .empty, 4, ⟨false, true, false⟩⟩ = 7 := by decide
  rw [hturns] at hrun
  rw [hrun] at hhalt hsize
  obtain rfl : halt = none := hhalt
  exact ⟨taken, r, hruns, honce, Int.ofNat_le.mp (hlength.trans (by decide)), hsize,
    (hwider rfl 100 (by decide)).2⟩

end Growth

end ProbeForge
