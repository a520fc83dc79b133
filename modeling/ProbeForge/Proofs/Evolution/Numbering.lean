import ProbeForge.Proofs.Evolution.Generations

/-!
# Numbers and parents

Candidates are numbered one after another as they are enrolled. Crossover and mutation change the
weights of a candidate, but neither its number nor its parents.
-/

namespace ProbeForge

/-- What a candidate keeps while its weights change. -/
def Candidate.pedigree {α : Type} (c : Candidate α) : Nat × List Nat := (c.id, c.parents)

namespace Breeder

variable {α ρ : Type} {b : Breeder α} {c child : Candidate α} {s s₁ s' : Nursery ρ}
  {population others next : List (Candidate α)}

/-- The candidates have the next numbers of the nursery, in turn. -/
structure Enrols (s s' : Nursery ρ) (population : List (Candidate α)) : Prop where
  ids : population.map (·.id) = List.range' s.nextId population.length
  next : s'.nextId = s.nextId + population.length

theorem Enrols.nil (h : s'.nextId = s.nextId) : Enrols s s' ([] : List (Candidate α)) :=
  ⟨rfl, h⟩

theorem Enrols.append (h : Enrols s s₁ population) (h' : Enrols s₁ s' others) :
    Enrols s s' (population ++ others) where
  ids := by
    rw [List.map_append, h.ids, h'.ids, h.next, List.length_append, ← List.range'_append_1]
  next := by rw [h'.next, h.next, List.length_append, Nat.add_assoc]

theorem Enrols.cons (h : Enrols s s₁ [c]) (h' : Enrols s₁ s' others) :
    Enrols s s' (c :: others) :=
  h.append h'

/-- Numbers that were given before stay given when nobody is enrolled. -/
theorem Enrols.kept (h : Enrols s s₁ population) (hids : others.map (·.id) = population.map (·.id))
    (hnext : s'.nextId = s₁.nextId) : Enrols s s' others := by
  have hlength : others.length = population.length := by
    simpa using congrArg List.length hids
  exact ⟨by rw [hids, h.ids, hlength], by rw [hnext, h.next, hlength]⟩

theorem map_id_of_pedigree (h : others.map (·.pedigree) = population.map (·.pedigree)) :
    others.map (·.id) = population.map (·.id) := by
  have hfirst := congrArg (List.map Prod.fst) h
  rwa [List.map_map, List.map_map] at hfirst

/-- A number is given to each result of a traversal that enrols one candidate per element. -/
theorem enrols_mapM {ι : Type} {l : List ι} {f : ι → Attempt (Nursery ρ) (Candidate α)}
    (step : ∀ i ∈ l, ∀ s c s', f i s = .ok c s' → Enrols s s' [c])
    (h : l.mapM f s = .ok population s') : Enrols s s' population := by
  induction l generalizing s population with
  | nil =>
    rw [List.mapM_nil, attempt_pure_ok] at h
    obtain ⟨rfl, rfl⟩ := h
    exact .nil rfl
  | cons i l ih =>
    rw [List.mapM_cons, attempt_bind_ok] at h
    obtain ⟨c, s₁, hc, h⟩ := h
    obtain ⟨others, s₂, hothers, h⟩ := attempt_bind_ok.mp h
    obtain ⟨rfl, rfl⟩ := attempt_pure_ok.mp h
    exact .cons (step i List.mem_cons_self s c s₁ hc)
      (ih (fun j hj => step j (List.mem_cons_of_mem _ hj)) hothers)

/-! ### Single candidates -/

theorem draw_next {β : Type} {f : ρ → β × ρ} {x : β} (h : draw f s = .ok x s') :
    s'.nextId = s.nextId := by
  cases h
  rfl

theorem tuned_pedigree {β : Type} {operator : Attempt (Tuning ρ) β} {x : β}
    (h : tuned c operator s = .ok (x, child) s') :
    child.pedigree = c.pedigree ∧ s'.nextId = s.nextId := by
  obtain ⟨t, -, rfl, rfl⟩ := tuned_ok h
  exact ⟨rfl, rfl⟩

variable [Scalar α]

theorem enrol_ok {g : Grammar} {parents : List Nat} (h : enrol g parents s = .ok c s') :
    c.parents = parents ∧ Enrols s s' [c] := by
  cases h
  exact ⟨rfl, rfl, rfl⟩

theorem spawn_ok {weights : Option (List Int)} {parents : List Nat}
    (h : b.spawn weights parents s = .ok c s') : c.parents = parents ∧ Enrols s s' [c] := by
  cases weights with
  | none => exact enrol_ok h
  | some weights =>
    obtain ⟨g, s₁, hlifted, h⟩ := attempt_bind_ok.mp h
    obtain ⟨-, rfl⟩ := attempt_lift_ok.mp hlifted
    exact enrol_ok h

theorem spawnMany_enrols {weights : Option (List Int)} {k : Nat}
    (h : b.spawnMany weights k s = .ok population s') : Enrols s s' population := by
  induction k generalizing population s with
  | zero =>
    obtain ⟨rfl, rfl⟩ := attempt_pure_ok.mp h
    exact .nil rfl
  | succ k ih =>
    obtain ⟨c, s₁, hc, h⟩ := attempt_bind_ok.mp h
    obtain ⟨others, s₂, hothers, h⟩ := attempt_bind_ok.mp h
    obtain ⟨rfl, rfl⟩ := attempt_pure_ok.mp h
    exact .cons (spawn_ok hc).2 (ih hothers)

variable [RandomSource ρ]

theorem mutateSome_pedigree {rate : Float} {force : Bool}
    (h : b.mutateSome rate force c s = .ok child s') :
    child.pedigree = c.pedigree ∧ s'.nextId = s.nextId := by
  obtain ⟨chosen, s₁, hchosen, h⟩ := attempt_bind_ok.mp h
  have hdrawn := draw_next hchosen
  cases chosen with
  | true =>
    obtain ⟨⟨outcome, mutant⟩, s₂, htuned, h⟩ := attempt_bind_ok.mp h
    obtain ⟨rfl, rfl⟩ := attempt_pure_ok.mp h
    obtain ⟨hpedigree, hnext⟩ := tuned_pedigree htuned
    exact ⟨hpedigree, hnext.trans hdrawn⟩
  | false =>
    obtain ⟨rfl, rfl⟩ := attempt_pure_ok.mp h
    exact ⟨rfl, hdrawn⟩

theorem cross_ok {mother father : Candidate α} {outcome : Outcome}
    (h : b.cross mother father s = .ok (outcome, child) s') :
    child.parents = [mother.id, father.id] ∧ Enrols s s' [child] := by
  obtain ⟨newborn, s₁, hspawn, h⟩ := attempt_bind_ok.mp h
  obtain ⟨hparents, henrols⟩ := spawn_ok hspawn
  obtain ⟨hpedigree, hnext⟩ := tuned_pedigree h
  exact ⟨(congrArg Prod.snd hpedigree).trans hparents,
    henrols.kept (congrArg (fun p : Nat × List Nat => [p.1]) hpedigree) hnext⟩

/-! ### Generations -/

theorem mutateGeneration_pedigrees {force : Bool}
    (h : b.mutateGeneration force population s = .ok next s') :
    next.map (·.pedigree) = population.map (·.pedigree) ∧ s'.nextId = s.nextId :=
  attempt_mapM_map (I := fun n : Nursery ρ => n.nextId = s.nextId)
    (fun _ _ _ _ _ hn hrun => ⟨(mutateSome_pedigree hrun).1, (mutateSome_pedigree hrun).2.trans hn⟩)
    rfl h

theorem drawCopies_enrols {first : Candidate α} {rest : List (Candidate α)} {k : Nat}
    (h : b.drawCopies first rest k s = .ok population s') : Enrols s s' population := by
  induction k generalizing population s with
  | zero =>
    obtain ⟨rfl, rfl⟩ := attempt_pure_ok.mp h
    exact .nil rfl
  | succ k ih =>
    obtain ⟨drawn, copied, others, s₁, s₂, hdrawn, hcopied, hothers, rfl⟩ := drawCopies_succ h
    have hnone : Enrols s s₁ ([] : List (Candidate α)) := .nil (draw_next hdrawn)
    exact (hnone.append (spawn_ok hcopied).2).append (ih hothers)

theorem drawChildren_enrols {first : Candidate α} {rest : List (Candidate α)} {k : Nat}
    (h : b.drawChildren first rest k s = .ok population s') : Enrols s s' population := by
  induction k generalizing population s with
  | zero =>
    obtain ⟨rfl, rfl⟩ := attempt_pure_ok.mp h
    exact .nil rfl
  | succ k ih =>
    obtain ⟨mother, father, outcome, child, others, s₁, s₂, s₃, hmother, hfather, hchild, hothers,
      rfl⟩ := drawChildren_succ h
    have hnone : Enrols s s₂ ([] : List (Candidate α)) :=
      .nil ((draw_next hfather).trans (draw_next hmother))
    exact (hnone.append (cross_ok hchild).2).append (ih hothers)

/-- The guaranteed places come first, in their order; each goes to a copy. -/
theorem assemble_ok {first : Candidate α} {size : Quantity α}
    (h : b.assemble first others size s = .ok next s') :
    Enrols s s' next ∧ ∃ places : Int, size.ceil = .ok places ∧
      ((guaranteed (rank (first :: others)) ((rank (first :: others)).getLastD first)).take
        places.toNat).map (fun c => [c.id]) <+: next.map (·.parents) := by
  obtain ⟨places, kept, s₁, hceil, hkept, hrest⟩ := assemble_stages h
  have hkeptEnrols := enrols_mapM (fun _ _ _ _ _ hcopied => (spawn_ok hcopied).2) hkept
  have hparents := (attempt_mapM_map (I := fun _ => True) (g := (·.parents)) (k := fun c => [c.id])
    (fun _ _ _ _ _ _ hcopied => ⟨(spawn_ok hcopied).1, trivial⟩) trivial hkept).1
  rcases hrest with ⟨rfl, rfl⟩ | ⟨fittest, rest, -, copied, children, s₂, k, n, hcopied, hchildren,
    rfl⟩
  · exact ⟨hkeptEnrols, places, hceil, hparents ▸ List.prefix_rfl⟩
  · refine ⟨(hkeptEnrols.append (drawCopies_enrols hcopied)).append (drawChildren_enrols hchildren),
      places, hceil, ?_⟩
    rw [List.append_assoc, List.map_append, hparents]
    exact List.prefix_append _ _

theorem breed_enrols {scored : List (Candidate α)} {size : Quantity α}
    (h : b.breed scored size s = .ok next s') : Enrols s s' next := by
  cases scored with
  | nil =>
    obtain ⟨n, s₁, hn, h⟩ := attempt_bind_ok.mp h
    obtain ⟨-, rfl⟩ := attempt_lift_ok.mp hn
    exact spawnMany_enrols h
  | cons first others =>
    obtain ⟨bred, s₁, hbred, h⟩ := attempt_bind_ok.mp h
    obtain ⟨hpedigrees, hnext⟩ := mutateGeneration_pedigrees h
    exact (assemble_ok hbred).1.kept (map_id_of_pedigree hpedigrees) hnext

end Breeder

end ProbeForge
