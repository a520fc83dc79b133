import ProbeForge.Proofs.Evolution.Setbacks
import ProbeForge.Proofs.Evolution.Tournament
import ProbeForge.Proofs.Grammar.Genes

/-!
# Crossovers

A child has the weights of its mother, but for one part that is its father's: the rules of a cyclic
segment of the table, or all rules of some nonterminals. If no such weights are accepted, the child
is a copy of its mother.
-/

namespace ProbeForge

namespace Grammar

/-- The child has the father's weights at the rules of a cyclic segment, at most half of the table
but at least one rule, and the mother's elsewhere. -/
def TakesSegment (prototype mother father child : Grammar) : Prop :=
  ∃ start length, start < prototype.ruleCount ∧ 1 ≤ length ∧
    length ≤ max (prototype.ruleCount / 2) 1 ∧ ∀ i < prototype.ruleCount, child.weightAt i =
      if ∃ k < length, (start + k) % prototype.ruleCount = i then father.weightAt i
      else mother.weightAt i

/-- The child has the father's weights at all rules of some nonterminals, just more than half of
them, and the mother's elsewhere. -/
def TakesGenes (prototype mother father child : Grammar) : Prop :=
  ∃ symbols : List Symbol, symbols.Nodup ∧ symbols ⊆ prototype.nonterminals ∧
    symbols.length = min prototype.nonterminalCount (prototype.nonterminalCount / 2 + 1) ∧
    ∀ (i : Nat) (entry : RuleEntry), prototype.table[i]? = some entry → child.weightAt i =
      if entry.rule.left ∈ symbols then father.weightAt i else mother.weightAt i

def Inherits (prototype : Grammar) (mother father child : Grammar) : GeneMode → Prop
  | .rule => prototype.TakesSegment mother father child
  | .nonterminal => prototype.TakesGenes mother father child

end Grammar

namespace Breeder

open Tuning Grammar

variable {α ρ : Type} {prototype g donor : Grammar} {start length n i : Nat}
  {weights others : List Int}

/-! ### Segments -/

/-- The places behind a start, where the first place comes after the last one. -/
theorem mod_lt_iff (hstart : start < n) (hi : i < n) (hlength : length ≤ n) :
    (i + n - start) % n < length ↔ ∃ k < length, (start + k) % n = i := by
  constructor
  · intro h
    refine ⟨(i + n - start) % n, h, ?_⟩
    have hsum : start + (i + n - start) = i + n := by omega
    rw [Nat.add_mod_mod, hsum, Nat.add_mod_right, Nat.mod_eq_of_lt hi]
  · rintro ⟨k, hk, rfl⟩
    by_cases hwrap : start + k < n
    · have hsum : start + k + n - start = k + n := by omega
      rwa [Nat.mod_eq_of_lt hwrap, hsum, Nat.add_mod_right, Nat.mod_eq_of_lt (by omega)]
    · have hmod : (start + k) % n = start + k - n := by
        rw [Nat.mod_eq_sub_mod (by omega), Nat.mod_eq_of_lt (by omega)]
      have hsum : start + k - n + n - start = k := by omega
      rwa [hmod, hsum, Nat.mod_eq_of_lt (by omega)]

theorem getElem?_swapSegment (start length : Nat) (weights donor : List Int) (i : Nat) :
    (swapSegment start length weights donor)[i]? = weights[i]?.map fun weight =>
      if (i + weights.length - start) % weights.length < length then donor.getD i weight
      else weight := by
  simp [swapSegment, List.getElem?_mapIdx]

theorem length_swapSegment (start length : Nat) (weights donor : List Int) :
    (swapSegment start length weights donor).length = weights.length := by
  simp [swapSegment]

theorem mem_swapSegment {w : Int} (h : w ∈ swapSegment start length weights others) :
    w ∈ weights ∨ w ∈ others := by
  obtain ⟨i, hi⟩ := List.getElem?_of_mem h
  rw [getElem?_swapSegment] at hi
  obtain ⟨weight, hweight, rfl⟩ := Option.map_eq_some_iff.mp hi
  have hmem := List.mem_of_getElem? hweight
  split
  · rw [List.getD_eq_getElem?_getD]
    cases hother : others[i]? with
    | none => exact .inl hmem
    | some other => exact .inr (List.mem_of_getElem? hother)
  · exact .inl hmem

theorem takesSegment_swapSegment (hg : prototype.Fits g) (hdonor : prototype.Fits donor)
    (hstart : start < prototype.ruleCount) (hone : 1 ≤ length)
    (hlongest : length ≤ max (prototype.ruleCount / 2) 1) :
    prototype.TakesSegment g donor
      (prototype.replaceWeights (swapSegment start length g.weights donor.weights)) := by
  refine ⟨start, length, hstart, hone, hlongest, fun i hi => ?_⟩
  have hsame : (swapSegment start length g.weights donor.weights).length = prototype.ruleCount := by
    rw [length_swapSegment, hg.length]
  have hgi : i < g.weights.length := by rwa [hg.length]
  have hdonori : i < donor.weights.length := by rwa [hdonor.length]
  have hiff := mod_lt_iff hstart hi (show length ≤ prototype.ruleCount by omega)
  simp only [weightAt_eq, weights_replaceWeights hsame, List.getD_eq_getElem?_getD,
    getElem?_swapSegment, hg.length, hiff, List.getElem?_eq_getElem hgi,
    List.getElem?_eq_getElem hdonori, Option.map_some, Option.getD_some]

theorem fits_swapSegment (hg : prototype.Fits g) (hdonor : prototype.Fits donor)
    (start length : Nat) : prototype.Fits
      (prototype.replaceWeights (swapSegment start length g.weights donor.weights)) := by
  refine fits_replaceWeights (by rw [length_swapSegment, hg.length]) fun w hw => ?_
  exact (mem_swapSegment hw).elim (hg.positive w) (hdonor.positive w)

/-! ### Operators -/

variable [Scalar α] [RandomSource ρ]

theorem swapLength_ok {source : ρ} (h : (swapLength α n source).1 = .ok length) :
    1 ≤ length ∧ length ≤ max (n / 2) 1 := by
  obtain ⟨drawn, -, rfl⟩ := map_ok.mp h
  omega

variable {b : Breeder α}

theorem crossRules_ends (hmode : b.crossover = .rule) (hg : prototype.Fits g)
    (hdonor : prototype.Fits donor) (source : ρ) :
    Ends (fun fault _ => b.Setback ρ prototype fault)
      (fun _ s => prototype.Fits s.grammar ∧ prototype.TakesSegment g donor s.grammar)
      (crossRules α donor) ⟨g, source⟩ := by
  have hcount : g.weights.length = prototype.ruleCount := hg.length
  unfold crossRules
  refine ends_current_bind (ends_drawOrFail_bind (fun fault _ hfault => ?_)
    fun length _ hlength => ?_)
  · rw [hcount] at hfault
    exact .length hfault
  · rw [hcount] at hlength
    obtain ⟨hone, hlongest⟩ := swapLength_ok hlength
    -- a length is drawn even if there is no place to start from
    split
    case h_1 hnone => exact .ruleless (hcount.symm.trans hnone) (.inl hmode)
    case h_2 k hsome =>
      refine ends_draw_bind fun start rest => ?_
      have hfits := fits_swapSegment hg hdonor start length
      have hset : g.replaceWeights (swapSegment start length g.weights donor.weights) =
          prototype.replaceWeights (swapSegment start length g.weights donor.weights) :=
        hg.replaceWeights_eq _
      refine ends_setWeights (by rw [length_swapSegment, length_weights]) (fun w hw => ?_) ?_
      · exact (mem_swapSegment hw).elim (hg.positive w) (hdonor.positive w)
      · dsimp only
        rw [hset]
        exact ⟨hfits, takesSegment_swapSegment hg hdonor (by omega) hone hlongest⟩

theorem crossNonterminals_ends (hp : prototype.Grouped) (hg : prototype.Fits g)
    (hdonor : prototype.Fits donor) (source : ρ) :
    Ends (fun fault _ => b.Setback ρ prototype fault)
      (fun _ s => prototype.Fits s.grammar ∧ prototype.TakesGenes g donor s.grammar)
      (crossNonterminals donor) ⟨g, source⟩ := by
  have hnonterminals := hg.nonterminals_eq
  have hcount : prototype.nonterminals.length = prototype.nonterminalCount :=
    prototype.length_nonterminals
  have hmost : crossedNonterminals g.nonterminals.length ≤ g.nonterminals.length := min_le_left _ _
  unfold crossNonterminals
  refine ends_current_bind (ends_sample_bind hmost fun drawn rest hdrawn => ?_)
  obtain ⟨hlength, hsub⟩ := RandomSource.sample_ok hdrawn
  have hskeleton : donor.skeleton = g.skeleton := hdonor.skeleton.trans hg.skeleton.symm
  have hmixed := length_mixed (length_weights_of_skeleton hskeleton) drawn
  refine ends_of_ok (transfer_eq (hg.coherent hp) hskeleton
    (fun symbol hsymbol => mem_nonterminals.mp (hsub.subset hsymbol)) rest) ⟨?_, ?_⟩
  · exact hg.replaceWeights hmixed fun w hw =>
      (mem_mixed hw).elim (hg.positive w) (hdonor.positive w)
  · refine ⟨drawn, ?_, ?_, ?_, fun i entry hentry => ?_⟩
    · exact RandomSource.nodup_sample hdrawn (hg.coherent hp).grouped.nodup_nonterminals
    · exact fun symbol hsymbol => hnonterminals ▸ hsub.subset hsymbol
    · rw [hlength, hnonterminals, hcount, crossedNonterminals]
    · obtain ⟨weight, hentry⟩ := hg.exists_entry hentry
      have hweight := weightAt_mixed hskeleton drawn hentry
      exact hweight

/-! ### Children -/

/-- A change that was tried leaves the weights as they were, or accepted weights as the operator
makes them. -/
theorem retry_relates {operator : Attempt (Tuning ρ) Unit} {R : Grammar → Prop}
    (hg : b.prototype.Fits g)
    (hoperator : ∀ source, Ends (fun fault _ => b.Setback ρ b.prototype fault)
      (fun _ s => b.prototype.Fits s.grammar ∧ R s.grammar) operator ⟨g, source⟩)
    (label : String) (source : ρ) :
    Ends (fun fault _ => b.Setback ρ b.prototype fault)
      (fun outcome s => b.prototype.Fits s.grammar ∧
        (outcome.changed = true → b.accepts s.grammar = .ok true ∧ R s.grammar) ∧
        (outcome.changed = false → s.grammar = g))
      (b.retry label operator) ⟨g, source⟩ := by
  have hback : Revocable operator g := fun source s hran =>
    hg.setWeights_back ((hoperator source).ok hran).1
  have hretry := retry_ends hback label source (fun _ hfault => .attempts hfault) fun source =>
    (hoperator source).also fun _ s _ hmade fault hfault => .undecided hmade.1 hfault
  refine hretry.also fun outcome s _ htried => ?_
  cases haccepted : outcome.accepted with
  | none =>
    have hsame := htried.unchanged haccepted
    simp [Outcome.changed, haccepted, hsame, hg]
  | some k =>
    obtain ⟨_, rest, -, -, hran, hyes⟩ := htried.changed k haccepted
    obtain ⟨hfits, hrelated⟩ := (hoperator rest).ok hran
    simp [Outcome.changed, haccepted, hfits, hyes, hrelated]

theorem crossing_ends (hp : b.prototype.Grouped) (hg : b.prototype.Fits g)
    (hdonor : b.prototype.Fits donor) (source : ρ) :
    Ends (fun fault _ => b.Setback ρ b.prototype fault)
      (fun outcome s => b.prototype.Fits s.grammar ∧
        (outcome.changed = true → b.accepts s.grammar = .ok true ∧
          b.prototype.Inherits g donor s.grammar b.crossover) ∧
        (outcome.changed = false → s.grammar = g))
      (b.crossing donor) ⟨g, source⟩ := by
  unfold crossing
  refine retry_relates (R := (b.prototype.Inherits g donor · b.crossover)) hg
    (fun source => ?_) "crossover" source
  cases hmode : b.crossover with
  | rule => exact crossRules_ends hmode hg hdonor source
  | nonterminal => exact crossNonterminals_ends hp hg hdonor source

omit [RandomSource ρ] in
/-- A candidate that fits the prototype is spawned again as it is. -/
theorem spawn_eq {c : Candidate α} (hc : b.prototype.Fits c.grammar) (parents : List Nat)
    (s : Nursery ρ) : b.spawn (some c.weights) parents s =
      .ok (.fresh s.nextId c.grammar parents) { s with nextId := s.nextId + 1 } := by
  have hset : b.prototype.setWeights c.weights true = .ok c.grammar := by
    rw [Candidate.weights, setWeights_of_pos hc.length hc.positive, hc.same]
  exact attempt_bind_eq (attempt_lift_eq hset) _

omit [Scalar α] [RandomSource ρ] in
theorem ends_tuned {β : Type} {c : Candidate α} {operator : Attempt (Tuning ρ) β} {s : Nursery ρ}
    {P : Fault → Prop} {Q : β → Grammar → Prop}
    (h : Ends (fun fault _ => P fault) (fun x t => Q x t.grammar) operator ⟨c.grammar, s.source⟩) :
    Ends (fun fault _ => P fault)
      (fun y s' => y.2 = { c with grammar := y.2.grammar } ∧ s'.nextId = s.nextId ∧
        Q y.1 y.2.grammar) (tuned c operator) s := by
  unfold Ends tuned tune
  unfold Ends at h
  cases hrun : operator ⟨c.grammar, s.source⟩ with
  | ok x t =>
    rw [hrun] at h
    exact ⟨rfl, rfl, h⟩
  | error fault t =>
    rw [hrun] at h
    exact h

theorem cross_ends {mother father : Candidate α} (hp : b.prototype.Grouped)
    (hmother : b.prototype.Fits mother.grammar) (hfather : b.prototype.Fits father.grammar)
    (s : Nursery ρ) : Ends (fun fault _ => b.Setback ρ b.prototype fault)
      (fun (outcome, child) s' =>
        (child = .fresh s.nextId child.grammar [mother.id, father.id] ∧ s'.nextId = s.nextId + 1) ∧
        b.prototype.Fits child.grammar ∧
        (outcome.changed = true → b.accepts child.grammar = .ok true ∧
          b.prototype.Inherits mother.grammar father.grammar child.grammar b.crossover) ∧
        (outcome.changed = false → child.grammar = mother.grammar))
      (b.cross mother father) s := by
  unfold cross
  -- the child is a copy of its mother when the crossover begins
  refine ends_bind_of_ok (spawn_eq hmother _ s) ?_
  have hcrossing := crossing_ends hp hmother hfather s.source
  refine (ends_tuned (c := .fresh s.nextId mother.grammar [mother.id, father.id])
    (Q := fun outcome g => b.prototype.Fits g ∧
      (outcome.changed = true → b.accepts g = .ok true ∧
        b.prototype.Inherits mother.grammar father.grammar g b.crossover) ∧
      (outcome.changed = false → g = mother.grammar)) hcrossing).also ?_
  rintro ⟨outcome, child⟩ s'' - ⟨hchild, hnext, hinherits⟩
  exact ⟨⟨hchild, hnext⟩, hinherits⟩

/-- The child of two candidates of one prototype is a new candidate of the prototype with both as
its parents. If some weights were accepted, the child has them, and they are the mother's except for
one segment or some genes of the father; if not, it has the mother's. There always is a child unless
there is a setback. -/
theorem cross_inherits {mother father : Candidate α} (hp : b.prototype.Grouped)
    (hmother : b.prototype.Fits mother.grammar) (hfather : b.prototype.Fits father.grammar)
    (s : Nursery ρ) :
    (∀ outcome child s', b.cross mother father s = .ok (outcome, child) s' →
        child = .fresh s.nextId (b.prototype.replaceWeights child.weights) [mother.id, father.id] ∧
        (outcome.changed = true → b.accepts child.grammar = .ok true ∧
          b.prototype.Inherits mother.grammar father.grammar child.grammar b.crossover) ∧
        (outcome.changed = false → child.weights = mother.weights)) ∧
      ∀ fault s', b.cross mother father s = .error fault s' → b.Setback ρ b.prototype fault := by
  have hends := cross_ends hp hmother hfather s
  refine ⟨fun outcome child s' hcross => ?_, fun fault s' hcross => hends.fault hcross⟩
  obtain ⟨⟨hchild, -⟩, hfits, hchanged, hunchanged⟩ := hends.ok hcross
  refine ⟨?_, hchanged, fun hnone => congrArg Grammar.weights (hunchanged hnone)⟩
  rw [Candidate.weights, hfits.same]
  exact hchild

open Tournament (Tenths Turns)

/-- Two nonterminals with two rules each. -/
def quartet : Grammar :=
  let rule (left right : String) : RuleEntry := ⟨⟨⟨left⟩, [⟨right⟩]⟩, 1, .null, .null⟩
  { Grammar.empty .null with
    table := #[rule "S" "A", rule "A" "a", rule "S" "b", rule "A" "S"]
    groups := #[⟨⟨"S"⟩, 2, [0, 2]⟩, ⟨⟨"A"⟩, 2, [1, 3]⟩] }

theorem grouped_quartet : quartet.Grouped := ⟨by decide, by decide, by decide, by decide⟩

/-- Crossovers in which the first rule has to gain weight. -/
def pairing (mode : GeneMode) (population : Int) : Breeder Tenths where
  prototype := quartet
  accepts g := .ok (1 < g.weights.headD 0)
  population := .whole population
  mutation := mode
  crossover := mode
  mutationRate := 0
  passThrough := 0

/-- A segment from the last place to the first is accepted at the third attempt, and nothing is if
there are only two. -/
theorem cross_inherits_segment :
    let mother : Candidate Tenths := .fresh 1 (quartet.replaceWeights [1, 2, 3, 4]) []
    let father : Candidate Tenths := .fresh 2 (quartet.replaceWeights [10, 20, 30, 40]) []
    (∃ child s, (pairing .rule 3).cross mother father ⟨3, (⟨1⟩ : Turns)⟩ =
        .ok (⟨some 3, "crossover"⟩, child) s ∧ child.weights = [10, 2, 3, 40] ∧
        quartet.TakesSegment mother.grammar father.grammar child.grammar) ∧
      ∃ child s, (pairing .rule 2).cross mother father ⟨3, (⟨1⟩ : Turns)⟩ =
        .ok (⟨none, "crossover"⟩, child) s ∧ child.weights = mother.weights := by
  intro mother father
  have hmother : quartet.Fits mother.grammar := fits_replaceWeights rfl (by decide)
  have hfather : quartet.Fits father.grammar := fits_replaceWeights rfl (by decide)
  have hthird : (pairing .rule 3).cross mother father ⟨3, (⟨1⟩ : Turns)⟩ =
      .ok (⟨some 3, "crossover"⟩, .fresh 3 (quartet.replaceWeights [10, 2, 3, 40]) [1, 2])
        ⟨4, ⟨4⟩⟩ := by
    cbv
  have hnone : (pairing .rule 2).cross mother father ⟨3, (⟨1⟩ : Turns)⟩ =
      .ok (⟨none, "crossover"⟩, .fresh 3 mother.grammar [1, 2]) ⟨4, ⟨3⟩⟩ := by
    cbv
  have hinherits (population : Int) := (cross_inherits (b := pairing .rule population)
    grouped_quartet hmother hfather ⟨3, (⟨1⟩ : Turns)⟩).1
  obtain ⟨-, hchanged, -⟩ := hinherits 3 _ _ _ hthird
  obtain ⟨-, -, hunchanged⟩ := hinherits 2 _ _ _ hnone
  exact ⟨⟨_, _, hthird, rfl, (hchanged rfl).2⟩, _, _, hnone, hunchanged rfl⟩

end Breeder

end ProbeForge
