import Mathlib.Data.List.Perm.Subperm
import ProbeForge.Proofs.Derivation.Turns

/-!
# Runs without a count of turns

A run takes nodes from the queue until none waits or a turn ends it. Whatever the grammar, a node
leaves the queue at most once and a run takes no more turns than its tree has nodes in the end, so
a number of turns that is granted shows only if it is too small.
-/

namespace ProbeForge

variable {ρ : Type} [RandomSource ρ]

/-! ### The rules of nodes -/

namespace Tree

/-- The name of the rule that the node at a place was expanded with. -/
def ruleAt (t : Tree) (i : Nat) : Option String := t.nodes[i]?.bind (·.ruleName)

variable {t : Tree} {i k : Nat}

theorem lt_size_of_ruleAt {name : String} (h : t.ruleAt i = some name) : i < t.size := by
  obtain ⟨n, hn, -⟩ := Option.bind_eq_some_iff.mp h
  exact lt_size hn

/-- In `t'` the node at `i` has the rule of that name, and the others are as in `t`. -/
def Rules (t t' : Tree) (i : Nat) (name : String) : Prop :=
  ∀ k, t'.ruleAt k = if i = k then some name else t.ruleAt k

theorem Rules.self {t' : Tree} {name : String} (h : t.Rules t' i name) : t'.ruleAt i = some name :=
  (h i).trans (if_pos rfl)

theorem Rules.isSome_iff {t' : Tree} {name : String} (h : t.Rules t' i name) :
    (t'.ruleAt k).isSome = true ↔ (t.ruleAt k).isSome = true ∨ i = k := by
  rw [h k]
  split
  case isTrue hik => simp [hik]
  case isFalse hik => simp [hik]

theorem Rules.map_eq {t' : Tree} {name : String} (h : t.Rules t' i name) {places : List Nat}
    (hi : i ∉ places) : places.map t'.ruleAt = places.map t.ruleAt := by
  refine List.map_congr_left fun k hk => (h k).trans (if_neg ?_)
  rintro rfl
  exact hi hk

theorem rules_modify {f : Node → Node} {name : String} (hf : ∀ n, (f n).ruleName = some name)
    (hi : i < t.size) : t.Rules (t.modify i f) i name := by
  intro k
  rw [ruleAt, nodes_modify]
  split
  case isTrue hik =>
    subst hik
    have hnode : t.nodes[i]? = some t.nodes[i] := Array.getElem?_eq_getElem hi
    rw [hnode, Option.map_some, Option.bind_some, hf]
  case isFalse => rfl

/-- New children have no rule yet. -/
theorem ruleAt_addChildren (hi : i < t.size) (symbols : List Symbol) (k : Nat) :
    (t.addChildren i symbols).ruleAt k = t.ruleAt k := by
  rw [ruleAt, nodes_addChildren _ _ _ _ hi, ruleAt]
  split
  case isTrue =>
    cases t.nodes[k]? <;> rfl
  case isFalse =>
    split
    case isTrue => rfl
    case isFalse hk =>
      rw [Array.getElem?_eq_none (Nat.not_lt.mp hk)]
      cases symbols[k - t.size]? <;> rfl

end Tree

namespace Growth

variable {job : Job} {i : Nat} {s s' r : Growth ρ}

/-! ### One turn -/

/-- What a turn at a place does to the tree, the queue and the records, whatever the grammar. -/
inductive Step (job : Job) (i : Nat) (s : Growth ρ) : Option Halt × Growth ρ → Prop where
  | passed : Step job i s (none, s)
  | stopped {halt : Halt} (failed : halt ≠ .unfinished) : Step job i s (some halt, s)
  | undrawn {fault : Fault} (source : ρ) :
      Step job i s (some (.fault fault), { s with scope := { s.scope with source } })
  | raised {fault : Fault} {name : String} {f : Node → Node} (scope : Scope ρ)
      (within : i < s.tree.size) (named : ∀ n, (f n).ruleName = some name) :
      Step job i s (some (.fault fault), { s with scope, tree := s.tree.modify i f })
  | expanded {choice : Grammar.RuleChoice} {f : Node → Node} (scope : Scope ρ)
      (within : i < s.tree.size) (fits : s.tree.size ≤ job.limit)
      (rule : choice.entry ∈ job.grammar.table) (named : ∀ n, (f n).ruleName = some choice.name) :
      Step job i s (none, (branch i choice.entry.rule.right
        { s with scope, tree := s.tree.modify i f }).note job.watch choice)

theorem step_expand {group : RuleGroup} (hi : i < s.tree.size) (hfits : s.tree.size ≤ job.limit) :
    Step job i s (expand job i group s) := by
  unfold expand
  split
  case h_1 fault source _ => exact .undrawn source
  case h_2 choice source hdraw =>
    have hrule := Array.mem_of_getElem? (Grammar.randomRuleOf_drawn hdraw).2
    dsimp only
    unfold fill
    cases hresolve : Generator.resolve choice.entry.generator with
    | error fault => exact .raised { s.scope with source } hi fun _ => rfl
    | ok generator =>
      cases generator with
      | none => exact .expanded { s.scope with source } hi hfits hrule fun _ => rfl
      | some generator =>
        dsimp only
        cases hrun : generator.run job.objects { s.scope with source } with
        | error misuse scope => exact .raised scope hi fun _ => rfl
        | ok payload scope =>
          dsimp only
          rw [modify_modify]
          exact .expanded scope hi hfits hrule fun _ => rfl

theorem step_visit (job : Job) (i : Nat) (s : Growth ρ) : Step job i s (visit job i s) := by
  unfold visit
  split
  case h_1 => exact .stopped (by simp)
  case h_2 node hnode =>
    split
    case h_1 => exact .passed
    case h_2 group _ =>
      split
      case isTrue => exact .stopped (by simp)
      case isFalse hfits => exact step_expand (Tree.lt_size hnode) (Int.not_lt.mp hfits)

theorem visit_ne_unfinished {halt : Halt} (h : visit job i s = (some halt, s')) :
    halt ≠ .unfinished := by
  have hstep := step_visit job i s
  rw [h] at hstep
  cases hstep with
  | stopped failed => exact failed
  | undrawn | raised => simp

/-- The nodes that wait are in the tree, and none waits twice. -/
structure Queued (s : Growth ρ) : Prop where
  within : ∀ i ∈ s.pending, i < s.tree.size
  once : s.pending.Nodup

omit [RandomSource ρ] in
theorem queued_start (symbol : Symbol) (source : ρ) : (start symbol source).Queued :=
  ⟨by simp [start, Tree.size, Tree.addRoot], by simp [start]⟩

/-- What a turn leaves: the queue it found, behind new nodes at the end of the tree. -/
theorem pending_visit {pending : List Nat} (h : visit job i { s with pending } = (none, s')) :
    ∃ new, s'.pending = List.range' s.tree.size new ++ pending ∧
      s'.tree.size = s.tree.size + new ∧
      (new ≠ 0 → s.tree.size ≤ job.limit ∧ new ≤ job.grammar.longestRight) := by
  have hstep := step_visit job i { s with pending }
  rw [h] at hstep
  cases hstep with
  | passed => exact ⟨0, rfl, rfl, fun hnew => absurd rfl hnew⟩
  | @expanded choice f scope _ fits rule =>
    refine ⟨choice.entry.rule.right.length, ?_, ?_, fun _ => ⟨fits, ?_⟩⟩
    · rw [← Tree.size_modify s.tree i f]
      rfl
    · rw [← Tree.size_modify s.tree i f]
      exact Tree.size_addChildren _ _ _
    · exact Grammar.length_le_longestRight rule

/-- A turn that ends the growth adds no node. -/
theorem size_visit_halted {pending : List Nat} {halt : Halt}
    (h : visit job i { s with pending } = (some halt, s')) : s'.tree.size = s.tree.size := by
  have hstep := step_visit job i { s with pending }
  rw [h] at hstep
  cases hstep with
  | stopped | undrawn => rfl
  | raised => exact Tree.size_modify _ _ _

theorem Queued.visit {pending : List Nat} (hs : s.Queued) (hwaits : s.pending = i :: pending)
    (h : Growth.visit job i { s with pending } = (none, s')) : s'.Queued := by
  have honce := hwaits ▸ hs.once
  obtain ⟨new, hpending, hsize, -⟩ := pending_visit h
  have hold : ∀ k ∈ pending, k < s.tree.size := fun k hk =>
    hs.within k (hwaits ▸ List.mem_cons_of_mem i hk)
  refine ⟨fun k hk => ?_, ?_⟩
  · rw [hpending, List.mem_append, List.mem_range'_1] at hk
    rw [hsize]
    rcases hk with hk | hk
    · exact hk.2
    · exact Nat.lt_add_right _ (hold k hk)
  · rw [hpending]
    refine List.nodup_append.mpr ⟨List.nodup_range', honce.of_cons, fun a ha b hb heq => ?_⟩
    have := (List.mem_range'_1.mp ha).1
    have := hold b hb
    omega

/-! ### Runs -/

/-- A run from a state to its end, with the nodes that it takes from the queue in their order. Each
of them is a turn. -/
inductive Runs (job : Job) : Growth ρ → List Nat → Option Halt × Growth ρ → Prop where
  | complete {s : Growth ρ} (done : s.pending = []) : Runs job s [] (none, s)
  | halted {s s' : Growth ρ} {i : Nat} {pending : List Nat} {halt : Halt}
      (waits : s.pending = i :: pending)
      (visited : visit job i { s with pending } = (some halt, s')) :
      Runs job s [i] (some halt, s')
  | turn {s s' : Growth ρ} {i : Nat} {pending taken : List Nat} {outcome : Option Halt × Growth ρ}
      (waits : s.pending = i :: pending) (visited : visit job i { s with pending } = (none, s'))
      (rest : Runs job s' taken outcome) : Runs job s (i :: taken) outcome

variable {taken : List Nat} {outcome : Option Halt × Growth ρ}

/-- A run has the outcome that is computed when it is granted enough turns. -/
theorem Runs.run_eq (h : Runs job s taken outcome) {turns : Nat} (hturns : taken.length ≤ turns) :
    run job turns s = outcome := by
  induction h generalizing turns with
  | complete done =>
    unfold run
    rw [done]
  | halted waits visited =>
    obtain ⟨turns, rfl⟩ : ∃ more, turns = more + 1 := Nat.exists_eq_add_one.mpr hturns
    rw [run, waits]
    dsimp only
    rw [visited]
  | @turn s s' i pending taken outcome waits visited rest ih =>
    rw [List.length_cons] at hturns
    obtain ⟨turns, rfl⟩ : ∃ more, turns = more + 1 := Nat.exists_eq_add_one.mpr (by omega)
    rw [run, waits]
    dsimp only
    rw [visited]
    exact ih (by omega)

/-- Unless the turns are used up, what is computed is the outcome of a run. -/
theorem runs_of_run {turns : Nat} {halt : Option Halt} (h : run job turns s = (halt, r))
    (hfinished : halt ≠ some .unfinished) :
    ∃ taken, Runs job s taken (halt, r) ∧ taken.length ≤ turns := by
  induction turns generalizing s with
  | zero =>
    unfold run at h
    split at h
    case h_1 hdone =>
      cases h
      exact ⟨[], .complete hdone, Nat.le_refl _⟩
    case h_2 =>
      cases h
      exact absurd rfl hfinished
  | succ turns ih =>
    unfold run at h
    split at h
    case h_1 hdone =>
      cases h
      exact ⟨[], .complete hdone, Nat.zero_le _⟩
    case h_2 i pending hwaits =>
      dsimp only at h
      split at h
      case h_1 s' hvisit =>
        obtain ⟨taken, hrest, hlength⟩ := ih h
        exact ⟨i :: taken, .turn hwaits hvisit hrest, Nat.succ_le_succ hlength⟩
      case h_2 hvisit =>
        cases h
        exact ⟨[i], .halted hwaits hvisit, Nat.succ_le_succ (Nat.zero_le _)⟩

/-- Trees only grow. -/
theorem Runs.size_le (h : Runs job s taken outcome) : s.tree.size ≤ outcome.2.tree.size := by
  induction h with
  | complete => exact Nat.le_refl _
  | halted _ visited => exact Nat.le_of_eq (size_visit_halted visited).symm
  | turn _ visited _ ih =>
    obtain ⟨new, -, hsize, -⟩ := pending_visit visited
    exact Nat.le_trans (by omega) ih

/-- Every node that a run takes waits at its start or is a new one, and none is taken twice. -/
theorem Runs.taken_once (h : Runs job s taken outcome) (hs : s.Queued) :
    taken.Nodup ∧ (∀ i ∈ taken, i ∈ s.pending ∨ s.tree.size ≤ i) ∧
      ∀ i ∈ taken, i < outcome.2.tree.size := by
  induction h with
  | complete => simp
  | @halted s s' i pending halt waits visited =>
    have hi := hs.within i (waits ▸ List.mem_cons_self)
    refine ⟨List.nodup_singleton i, ?_, ?_⟩
    · simp [waits]
    · simpa [size_visit_halted visited] using hi
  | @turn s s' i pending taken outcome waits visited rest ih =>
    -- what waits after the turn was waiting before, or was added by it
    obtain ⟨honce, hfrom, hwithin⟩ := ih (hs.visit waits visited)
    obtain ⟨new, hpending, hsize, -⟩ := pending_visit visited
    have hi := hs.within i (waits ▸ List.mem_cons_self)
    have hfrom : ∀ k ∈ taken, k ∈ pending ∨ s.tree.size ≤ k := by
      intro k hk
      have hfrom := hfrom k hk
      rw [hpending, List.mem_append, List.mem_range'_1, hsize] at hfrom
      rcases hfrom with (hnew | hold) | hlater
      · exact .inr hnew.1
      · exact .inl hold
      · exact .inr (by omega)
    refine ⟨List.nodup_cons.mpr ⟨fun hmem => ?_, honce⟩, ?_, ?_⟩
    · rcases hfrom i hmem with hold | hlater
      · exact (List.nodup_cons.mp (waits ▸ hs.once)).1 hold
      · omega
    · refine List.forall_mem_cons.mpr ⟨.inl (waits ▸ List.mem_cons_self), fun k hk => ?_⟩
      exact (hfrom k hk).imp_left fun hold => waits ▸ List.mem_cons_of_mem i hold
    · have hgrown := rest.size_le
      exact List.forall_mem_cons.mpr ⟨by omega, hwithin⟩

/-- A run takes no more turns than its tree has nodes in the end. -/
theorem Runs.length_le (h : Runs job s taken outcome) (hs : s.Queued) :
    taken.length ≤ outcome.2.tree.size := by
  obtain ⟨honce, -, hwithin⟩ := h.taken_once hs
  have hsub : taken.Subperm (List.range outcome.2.tree.size) :=
    List.subperm_of_subset honce fun i hi => List.mem_range.mpr (hwithin i hi)
  simpa using hsub.length_le

end Growth

end ProbeForge
