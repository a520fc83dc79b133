import ProbeForge.Evolution.Breeder
import ProbeForge.Proofs.Evolution.Operators

/-!
# Generations

Copying, crossover and mutation make viable candidates out of viable ones, so what is bred from
viable candidates is viable: whatever is drawn, however candidates are scored and in whatever order
they stand.
-/

namespace ProbeForge

namespace Breeder

variable {α ρ : Type} {c child : Candidate α} {s s' : Nursery ρ}

/-! ### Selection -/

theorem draw_ok {β : Type} {f : ρ → β × ρ} {x : β} (h : draw f s = .ok x s') :
    x = (f s.source).1 := by
  cases h
  rfl

theorem mem_fitness {ranked : List (Candidate α)} (h : c ∈ fitness ranked) : c ∈ ranked := by
  obtain ⟨copies, hcopies, hc⟩ := List.mem_flatten.mp h
  obtain ⟨i, hi, rfl⟩ := List.mem_mapIdx.mp hcopies
  cases List.eq_of_mem_replicate hc
  exact List.getElem_mem hi

theorem mem_guaranteed {ranked : List (Candidate α)} {winner : Candidate α}
    (h : c ∈ guaranteed ranked winner) : c ∈ ranked ∨ c = winner := by
  rcases List.mem_append.mp h with hspecial | hwinner
  · exact .inl (List.mem_filter.mp hspecial).1
  · split at hwinner
    · cases hwinner
    · exact .inr (List.mem_singleton.mp hwinner)

theorem mem_rank [Scalar α] {candidates : List (Candidate α)} :
    c ∈ rank candidates ↔ c ∈ candidates :=
  (List.mergeSort_perm candidates _).mem_iff

section Draws

variable [RandomSource ρ]

theorem drawOther_mem (mother first : Candidate α) (rest : List (Candidate α)) (tries : Nat)
    (source : ρ) : (drawOther mother first rest tries source).1 ∈ mother :: first :: rest := by
  induction tries generalizing source with
  | zero =>
    unfold drawOther
    cases hfind : (first :: rest).find? (·.id ≠ mother.id) with
    | none => exact List.mem_cons_self
    | some c => exact List.mem_cons_of_mem _ (List.mem_of_find?_eq_some hfind)
  | succ tries ih =>
    unfold drawOther
    dsimp only
    split
    · exact ih _
    · exact List.mem_cons_of_mem _ (RandomSource.choose_mem first rest source)

theorem pickFather_mem (mother first : Candidate α) (rest : List (Candidate α)) (source : ρ) :
    (pickFather mother first rest source).1 ∈ mother :: first :: rest := by
  unfold pickFather
  split
  · exact List.mem_cons_self
  · exact drawOther_mem mother first rest _ source

end Draws

/-! ### Single candidates -/

variable {b : Breeder α}

/-- All candidates have viable weights. -/
def AllViable (b : Breeder α) (population : List (Candidate α)) : Prop :=
  ∀ c ∈ population, b.Viable c.grammar

/-- An operator changes the grammar of a candidate and the source of the nursery. -/
theorem tuned_ok {β : Type} {operator : Attempt (Tuning ρ) β} {x : β}
    (h : tuned c operator s = .ok (x, child) s') :
    ∃ t, operator ⟨c.grammar, s.source⟩ = .ok x t ∧ child = { c with grammar := t.grammar } ∧
      s' = { s with source := t.source } := by
  unfold tuned tune at h
  cases hrun : operator ⟨c.grammar, s.source⟩ with
  | ok y t =>
    rw [hrun] at h
    cases h
    exact ⟨t, rfl, rfl, rfl⟩
  | error fault t =>
    rw [hrun] at h
    cases h

theorem viable_tuned {β : Type} {operator : Attempt (Tuning ρ) β}
    (hoperator : ∀ s x s', b.Viable s.grammar → operator s = .ok x s' → b.Viable s'.grammar)
    (hc : b.Viable c.grammar) {x : β} (h : tuned c operator s = .ok (x, child) s') :
    b.Viable child.grammar := by
  obtain ⟨t, hrun, rfl, -⟩ := tuned_ok h
  exact hoperator _ _ _ hc hrun

variable [Scalar α]

/-- A candidate that is spawned with weights has them. -/
theorem spawn_weights_ok {weights : List Int} {parents : List Nat}
    (h : b.spawn (some weights) parents s = .ok c s') :
    b.prototype.setWeights weights true = .ok c.grammar := by
  obtain ⟨g, s₁, hlifted, h⟩ := attempt_bind_ok.mp h
  obtain ⟨hset, rfl⟩ := attempt_lift_ok.mp hlifted
  cases h
  exact hset

/-- A candidate's weights give its grammar again. -/
theorem viable_spawn (hc : b.Viable c.grammar) {parents : List Nat}
    (h : b.spawn (some c.weights) parents s = .ok child s') : b.Viable child.grammar := by
  have hset : b.prototype.setWeights c.grammar.weights true = .ok c.grammar := by
    rw [Grammar.setWeights_of_pos hc.length hc.positive, hc.same]
  have hsame : child.grammar = c.grammar := Except.ok.inj ((spawn_weights_ok h).symm.trans hset)
  rwa [hsame]

variable [RandomSource ρ]

theorem viable_mutateSome (hp : b.prototype.Grouped) {rate : Float} {force : Bool}
    (hc : b.Viable c.grammar) (h : b.mutateSome rate force c s = .ok child s') :
    b.Viable child.grammar := by
  obtain ⟨chosen, s₁, -, h⟩ := attempt_bind_ok.mp h
  cases chosen with
  | true =>
    obtain ⟨⟨outcome, mutant⟩, s₂, htuned, h⟩ := attempt_bind_ok.mp h
    obtain ⟨rfl, -⟩ := attempt_pure_ok.mp h
    exact viable_tuned (fun _ _ _ hs hrun => viable_mutate hp hs hrun) hc htuned
  | false =>
    obtain ⟨rfl, -⟩ := attempt_pure_ok.mp h
    exact hc

theorem viable_cross (hp : b.prototype.Grouped) {mother father : Candidate α}
    (hmother : b.Viable mother.grammar) (hfather : b.Viable father.grammar) {outcome : Outcome}
    (h : b.cross mother father s = .ok (outcome, child) s') : b.Viable child.grammar := by
  -- a child begins as a copy of its mother, and stays one if no crossover is accepted
  obtain ⟨newborn, s₁, hspawn, h⟩ := attempt_bind_ok.mp h
  have hnewborn := viable_spawn hmother hspawn
  exact viable_tuned (fun _ _ _ hs hrun => viable_crossing hp hfather.toFits hs hrun) hnewborn h

/-! ### Stages of a generation -/

section Stages

variable {first : Candidate α} {rest population : List (Candidate α)}

theorem drawCopies_succ {k : Nat} (h : b.drawCopies first rest (k + 1) s = .ok population s') :
    ∃ drawn copied others s₁ s₂, draw (RandomSource.choose first rest) s = .ok drawn s₁ ∧
      b.copy drawn s₁ = .ok copied s₂ ∧ b.drawCopies first rest k s₂ = .ok others s' ∧
      population = copied :: others := by
  obtain ⟨drawn, s₁, hdrawn, h⟩ := attempt_bind_ok.mp h
  obtain ⟨copied, s₂, hcopied, h⟩ := attempt_bind_ok.mp h
  obtain ⟨others, s₃, hothers, h⟩ := attempt_bind_ok.mp h
  obtain ⟨rfl, rfl⟩ := attempt_pure_ok.mp h
  exact ⟨drawn, copied, others, s₁, s₂, hdrawn, hcopied, hothers, rfl⟩

theorem drawChildren_succ {k : Nat}
    (h : b.drawChildren first rest (k + 1) s = .ok population s') :
    ∃ mother father outcome child others s₁ s₂ s₃,
      draw (RandomSource.choose first rest) s = .ok mother s₁ ∧
      draw (pickFather mother first rest) s₁ = .ok father s₂ ∧
      b.cross mother father s₂ = .ok (outcome, child) s₃ ∧
      b.drawChildren first rest k s₃ = .ok others s' ∧ population = child :: others := by
  obtain ⟨mother, s₁, hmother, h⟩ := attempt_bind_ok.mp h
  obtain ⟨father, s₂, hfather, h⟩ := attempt_bind_ok.mp h
  obtain ⟨⟨outcome, child⟩, s₃, hchild, h⟩ := attempt_bind_ok.mp h
  obtain ⟨others, s₄, hothers, h⟩ := attempt_bind_ok.mp h
  obtain ⟨rfl, rfl⟩ := attempt_pure_ok.mp h
  exact ⟨mother, father, outcome, child, others, s₁, s₂, s₃, hmother, hfather, hchild, hothers, rfl⟩

/-- The guaranteed places go to copies first. Without any fitness the generation ends there, and
otherwise copies that are drawn and children follow. -/
theorem assemble_stages {size : Quantity α}
    (h : b.assemble first rest size s = .ok population s') :
    ∃ (places : Int) (kept : List (Candidate α)) (s₁ : Nursery ρ), size.ceil = .ok places ∧
      ((guaranteed (rank (first :: rest)) ((rank (first :: rest)).getLastD first)).take
        places.toNat).mapM b.copy s = .ok kept s₁ ∧
      (population = kept ∧ s' = s₁ ∨
        ∃ fittest others, fitness (rank (first :: rest)) = fittest :: others ∧
          ∃ copied children s₂ k n, b.drawCopies fittest others k s₁ = .ok copied s₂ ∧
            b.drawChildren fittest others n s₂ = .ok children s' ∧
            population = kept ++ copied ++ children) := by
  unfold assemble at h
  obtain ⟨places, s₁, hplaces, h⟩ := attempt_bind_ok.mp h
  obtain ⟨hceil, rfl⟩ := attempt_lift_ok.mp hplaces
  obtain ⟨kept, s₂, hkept, h⟩ := attempt_bind_ok.mp h
  -- how many are left for the draws changes nothing in the nursery
  obtain ⟨remaining, s₃, hremaining, h⟩ := attempt_bind_ok.mp h
  obtain ⟨-, rfl⟩ := attempt_lift_ok.mp hremaining
  obtain ⟨copies, s₄, hcopies, h⟩ := attempt_bind_ok.mp h
  obtain ⟨-, rfl⟩ := attempt_lift_ok.mp hcopies
  refine ⟨places, kept, _, hceil, hkept, ?_⟩
  cases hfitness : fitness (rank (first :: rest)) with
  | nil =>
    rw [hfitness] at h
    obtain ⟨rfl, rfl⟩ := attempt_pure_ok.mp h
    exact .inl ⟨rfl, rfl⟩
  | cons fittest others =>
    rw [hfitness] at h
    obtain ⟨copied, s₅, hcopied, h⟩ := attempt_bind_ok.mp h
    obtain ⟨children, s₆, hchildren, h⟩ := attempt_bind_ok.mp h
    obtain ⟨rfl, rfl⟩ := attempt_pure_ok.mp h
    exact .inr ⟨fittest, others, rfl, copied, children, s₅, _, _, hcopied, hchildren, rfl⟩

end Stages

/-! ### Generations -/

variable {first : Candidate α} {rest population next : List (Candidate α)}

theorem allViable_mutateGeneration (hp : b.prototype.Grouped) {force : Bool}
    (hpopulation : b.AllViable population)
    (h : b.mutateGeneration force population s = .ok next s') : b.AllViable next :=
  (attempt_mapM_ok (I := fun _ => True)
    (fun c hc _ _ _ _ hrun => ⟨viable_mutateSome hp (hpopulation c hc) hrun, trivial⟩) trivial h).1

theorem allViable_drawCopies (hpool : b.AllViable (first :: rest)) {k : Nat}
    (h : b.drawCopies first rest k s = .ok population s') : b.AllViable population := by
  induction k generalizing population s with
  | zero =>
    obtain ⟨rfl, -⟩ := attempt_pure_ok.mp h
    exact fun c hc => nomatch hc
  | succ k ih =>
    obtain ⟨drawn, copied, others, s₁, s₂, hdrawn, hcopied, hothers, rfl⟩ := drawCopies_succ h
    have hchosen := hpool drawn (draw_ok hdrawn ▸ RandomSource.choose_mem first rest _)
    exact List.forall_mem_cons.mpr ⟨viable_spawn hchosen hcopied, ih hothers⟩

theorem allViable_drawChildren (hp : b.prototype.Grouped) (hpool : b.AllViable (first :: rest))
    {k : Nat} (h : b.drawChildren first rest k s = .ok population s') :
    b.AllViable population := by
  induction k generalizing population s with
  | zero =>
    obtain ⟨rfl, -⟩ := attempt_pure_ok.mp h
    exact fun c hc => nomatch hc
  | succ k ih =>
    obtain ⟨mother, father, outcome, child, others, s₁, s₂, s₃, hmother, hfather, hchild, hothers,
      rfl⟩ := drawChildren_succ h
    have hm := hpool mother (draw_ok hmother ▸ RandomSource.choose_mem first rest _)
    have hf : b.Viable father.grammar := by
      have hmem := draw_ok hfather ▸ pickFather_mem mother first rest s₁.source
      exact (List.mem_cons.mp hmem).elim (fun hsame => hsame ▸ hm) (hpool father)
    exact List.forall_mem_cons.mpr ⟨viable_cross hp hm hf hchild, ih hothers⟩

theorem allViable_assemble (hp : b.prototype.Grouped) (hpool : b.AllViable (first :: rest))
    {size : Quantity α} (h : b.assemble first rest size s = .ok population s') :
    b.AllViable population := by
  have hranked : b.AllViable (rank (first :: rest)) := fun c hc => hpool c (mem_rank.mp hc)
  have hwinner : b.Viable ((rank (first :: rest)).getLastD first).grammar := by
    rw [List.getLastD_eq_getLast?]
    cases hlast : (rank (first :: rest)).getLast? with
    | none => exact hpool first List.mem_cons_self
    | some c => exact hranked c (List.mem_of_getLast? hlast)
  obtain ⟨places, kept, s₁, -, hkept, hrest⟩ := assemble_stages h
  have hkept : b.AllViable kept := by
    refine (attempt_mapM_ok (I := fun _ => True)
      (fun c hc s copied s' _ hcopied => ⟨viable_spawn ?_ hcopied, trivial⟩) trivial hkept).1
    rcases mem_guaranteed (List.mem_of_mem_take hc) with hc | rfl
    · exact hranked c hc
    · exact hwinner
  rcases hrest with ⟨rfl, -⟩ | ⟨fittest, others, hfitness, copied, children, s₂, k, n, hcopied,
    hchildren, rfl⟩
  · exact hkept
  · have hfit : b.AllViable (fittest :: others) := fun c hc => hranked c (mem_fitness (hfitness ▸ hc))
    exact List.forall_mem_append.mpr ⟨List.forall_mem_append.mpr
      ⟨hkept, allViable_drawCopies hfit hcopied⟩, allViable_drawChildren hp hfit hchildren⟩

theorem allViable_breed (hp : b.prototype.Grouped) {scored : List (Candidate α)}
    (hne : scored ≠ []) (hscored : b.AllViable scored) {size : Quantity α}
    (h : b.breed scored size s = .ok next s') : b.AllViable next := by
  cases scored with
  | nil => exact absurd rfl hne
  | cons first others =>
    obtain ⟨bred, s₁, hbred, h⟩ := attempt_bind_ok.mp h
    exact allViable_mutateGeneration hp (allViable_assemble hp hscored hbred) h

end Breeder

end ProbeForge
