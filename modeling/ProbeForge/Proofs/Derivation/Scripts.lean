import ProbeForge.Proofs.Derivation.Leftmost
import ProbeForge.Proofs.Scope.Changes

/-!
# Scripts

What a step draws can be given beforehand, as long as it is known how many draws it uses up. There
are draws for every generator and for every rule of a nonterminal.
-/

namespace ProbeForge

open Growth (Draws)

/-! ### Scripts -/

namespace Scope

variable {α β : Type}

/-- In each catalog there are draws that the operation uses up, with one outcome whatever follows
them. -/
def Scripted (run : ScopeM Draws α) : Prop :=
  ∀ c, ∃ script a c', ∀ later, run ⟨c, ⟨script ++ later⟩⟩ = (a, ⟨c', ⟨later⟩⟩)

theorem scripted_pure (a : α) : Scripted (pure a) := fun c => ⟨[], a, c, fun _ => rfl⟩

theorem Scripted.bind {x : ScopeM Draws α} {f : α → ScopeM Draws β} (hx : Scripted x)
    (hf : ∀ a, Scripted (f a)) : Scripted (x >>= f) := by
  intro c
  obtain ⟨script, a, c₁, hfirst⟩ := hx c
  obtain ⟨script', b, c₂, hrest⟩ := hf a c₁
  refine ⟨script ++ script', b, c₂, fun later => ?_⟩
  rw [bind_run, List.append_assoc, hfirst, hrest]

theorem scripted_segmentAt (id : SegmentId) : Scripted (segmentAt id) :=
  fun c => ⟨[], c.segment id, c, fun _ => rfl⟩

theorem scripted_update (id : SegmentId) (f : Segment → Segment) : Scripted (update id f) :=
  fun c => ⟨[], (), c.modifySegment id f, fun _ => rfl⟩

theorem scripted_mint (id : SegmentId) (stem : String) : Scripted (mint id stem) := by
  intro c
  cases hown : (c.segment id).ownMinted with
  | some n =>
    refine ⟨[], s!"{stem}_{n + 1}",
      c.modifySegment id ({ · with ownMinted := some (n + 1) }), fun later => ?_⟩
    simp only [mint, hown, List.nil_append]
  | none =>
    refine ⟨[], s!"{stem}_{c.minted + 1}", { c with minted := c.minted + 1 }, fun later => ?_⟩
    simp only [mint, hown, List.nil_append]

theorem scripted_below (n : Nat) : Scripted (draw (RandomSource.below n)) :=
  fun c => ⟨[0], 0, c, fun _ => rfl⟩

theorem scripted_chooseFrom (x : α) (xs : List α) : Scripted (chooseFrom x xs) :=
  fun c => ⟨[0], x, c, fun _ => rfl⟩

theorem scripted_addPhysical (u : Universe) (id : SegmentId) (kind : SourceKind) :
    Scripted (addPhysical u id kind) := by
  refine (scripted_segmentAt id).bind fun segment => ?_
  dsimp only
  split
  · exact (scripted_mint id _).bind fun name =>
      (scripted_update id _).bind fun _ => scripted_pure _
  · refine (scripted_chooseFrom _ _).bind fun o => ?_
    split
    · exact (scripted_mint id _).bind fun name =>
        (scripted_update id _).bind fun _ => scripted_pure _
    · exact (scripted_pure _).bind fun name =>
        (scripted_update id _).bind fun _ => scripted_pure _

theorem scripted_addSourceAlias (id : SegmentId) (key : String) :
    Scripted (addSourceAlias id key) := by
  refine (scripted_segmentAt id).bind fun segment => ?_
  split
  · exact (scripted_mint id _).bind fun _ => scripted_pure _
  · split
    · exact (scripted_mint id _).bind fun _ => (scripted_update id _).bind fun _ => scripted_pure _
    · exact scripted_pure _

/-- Of an attempt: there are draws that it uses up with one success, or it fails whatever is
drawn. -/
def ScriptedAttempt (run : ScopeAttempt Draws α) : Prop :=
  ∀ c, (∃ script a c', ∀ later, run ⟨c, ⟨script ++ later⟩⟩ = .ok a ⟨c', ⟨later⟩⟩) ∨
    ∃ misuse c', ∀ draws, run ⟨c, draws⟩ = .error misuse ⟨c', draws⟩

theorem Scripted.withTop {f : SegmentId → ScopeM Draws α} (hf : ∀ id, Scripted (f id)) :
    ScriptedAttempt (withTop f) := by
  intro c
  cases hstack : c.stack with
  | nil =>
    exact .inr ⟨⟨"current", "EMPTY", "no active scope segment"⟩, c, fun draws => by
      simp only [Scope.withTop, hstack]⟩
  | cons id rest =>
    obtain ⟨script, a, c', hrun⟩ := hf id c
    exact .inl ⟨script, a, c', fun later => by simp only [Scope.withTop, hstack, hrun]⟩

theorem ScriptedAttempt.map {run : ScopeAttempt Draws α} (h : ScriptedAttempt run) (f : α → β) :
    ScriptedAttempt (f <$> run) := by
  intro c
  rcases h c with ⟨script, a, c', hrun⟩ | ⟨misuse, c', hrun⟩
  · refine .inl ⟨script, f a, c', fun later => ?_⟩
    change EStateM.map f run _ = _
    rw [EStateM.map, hrun]
  · refine .inr ⟨misuse, c', fun draws => ?_⟩
    change EStateM.map f run _ = _
    rw [EStateM.map, hrun]

end Scope

open Scope

theorem scripted_randomLetters (n : Nat) (done : List Char) :
    Scripted (randomLetters (ρ := Draws) n done) := by
  induction n generalizing done with
  | zero => exact scripted_pure _
  | succ n ih => exact (scripted_below 25).bind fun k => ih _

theorem Generator.scripted_run (u : Universe) (generator : Generator) :
    ScriptedAttempt (generator.run (ρ := Draws) u) := by
  -- the three generators that draw differently from one scope to another
  have haddTable : ScriptedAttempt (addTable (ρ := Draws) u) := by
    refine Scripted.withTop fun id => (scripted_segmentAt id).bind fun segment => ?_
    split
    · exact (scripted_update id _).bind fun _ => scripted_pure _
    · exact scripted_addPhysical u id .table
  have haddSchema : ScriptedAttempt (addSchema (ρ := Draws) u) :=
    Scripted.withTop fun id => (scripted_update id _).bind fun _ =>
      (scripted_addPhysical u id .table).bind fun _ => (scripted_update id _).bind fun _ =>
        scripted_pure _
  have hdefineAlias : ScriptedAttempt (Scope.defineAlias (ρ := Draws)) := by
    refine Scripted.withTop fun id => (scripted_segmentAt id).bind fun segment => ?_
    split
    · exact scripted_mint id _
    · exact (scripted_addSourceAlias id _).bind fun _ => scripted_pure _
  cases generator
  case openBlock =>
    exact fun c => .inl ⟨[], .block c.segments.size, (push (⟨c, ⟨[]⟩⟩ : Scope Draws)).2.catalog,
      fun _ => rfl⟩
  case closeBlock =>
    intro c
    cases hstack : c.stack with
    | nil =>
      exact .inr ⟨⟨"pop", "EMPTY", "scope stack is empty"⟩, c, fun draws => by
        simp only [run, pop, hstack]⟩
    | cons id rest =>
      exact .inl ⟨[], .text (c.segment id).name, { c with stack := rest }, fun later => by
        simp only [run, pop, hstack, List.nil_append]
        rfl⟩
  case registerTable => exact haddTable.map _
  case registerSchema => exact haddSchema.map _
  case registerView | registerMaterializedView | registerSequence =>
    exact (Scripted.withTop fun id => scripted_addPhysical u id _).map _
  case defineAlias => exact hdefineAlias.map _
  case integer => exact fun c => .inl ⟨[0], .text (toString 0), c, fun _ => rfl⟩
  case number =>
    exact fun c => .inl ⟨[], .text (Numeric.fixed 2 (-1000.0 + (1000.0 - -1000.0) * 0)), c,
      fun _ => rfl⟩
  case string =>
    intro c
    obtain ⟨script, n, c₁, hlength⟩ := scripted_below 8 c
    obtain ⟨script', letters, c₂, hletters⟩ := scripted_randomLetters n.val [] c₁
    refine .inl ⟨script ++ script', .text (String.ofList ('\'' :: (letters ++ ['\'']))), c₂,
      fun later => ?_⟩
    simp only [run, List.append_assoc, hlength, hletters]

/-! ### Draws of rules -/

namespace Grammar

variable {g : Grammar}

theorem exists_reach {rules : List Nat} (hw : ∀ i ∈ rules, 1 ≤ g.weightAt i) {k : Nat}
    (hk : k ∈ rules) (running : Int) :
    ∃ draw, running < draw ∧ draw ≤ running + g.weightSum rules ∧
      g.reach draw rules running = some k := by
  induction rules generalizing running with
  | nil => cases hk
  | cons i rest ih =>
    obtain ⟨hi, hrest⟩ := List.forall_mem_cons.mp hw
    have hsum : g.weightSum (i :: rest) = g.weightAt i + g.weightSum rest := rfl
    by_cases hik : k = i
    · subst hik
      have hpos : 0 ≤ g.weightSum rest := by
        cases rest with
        | nil => exact Int.le_refl _
        | cons j rest =>
          have := weightSum_pos (List.cons_ne_nil j rest) hrest
          omega
      exact ⟨running + g.weightAt k, by omega, by omega, if_pos (Int.le_refl _)⟩
    · obtain ⟨draw, hlow, hhigh, hreach⟩ :=
        ih hrest ((List.mem_cons.mp hk).resolve_left hik) (running + g.weightAt i)
      exact ⟨draw, by omega, by omega, (if_neg (by omega)).trans hreach⟩

/-- Every rule of a group is chosen by some draw. -/
theorem Coherent.exists_draw (hg : g.Coherent) (hw : ∀ entry ∈ g.table, 1 ≤ entry.weight)
    {entry : RuleEntry} (hentry : entry ∈ g.table) {group : RuleGroup} (hgroup : group ∈ g.groups)
    (hleft : entry.rule.left = group.symbol) :
    ∃ k draw, g.table[k]? = some entry ∧ ∀ later,
      g.randomRuleOf group (⟨draw :: later⟩ : Draws) = (.ok ⟨k, entry⟩, ⟨later⟩) := by
  obtain ⟨k, hk⟩ := Array.getElem?_of_mem hentry
  have hmem : k ∈ group.rules := (hg.grouped.mem_rules_iff hgroup).mpr ⟨entry, hk, hleft⟩
  obtain ⟨draw, hlow, hhigh, hreach⟩ :=
    exists_reach (fun i hi => one_le_weightAt hw hg hgroup hi) hmem 0
  rw [← hg.total group hgroup] at hhigh
  refine ⟨k, (draw - 1).toNat, hk, fun later => ?_⟩
  have hvalue : 1 + ((RandomSource.below (group.total - 1).toNat
      (⟨(draw - 1).toNat :: later⟩ : Draws)).1.val : Int) = draw := by
    change 1 + (((draw - 1).toNat % ((group.total - 1).toNat + 1) : Nat) : Int) = draw
    rw [Nat.mod_eq_of_lt (by omega)]
    omega
  unfold randomRuleOf RandomSource.between
  rw [if_neg (by omega)]
  dsimp only
  rw [hvalue, pick, hreach]
  simp only [hk]
  rfl

end Grammar

end ProbeForge
