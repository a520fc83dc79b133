import ProbeForge.Derivation.Engine
import ProbeForge.Proofs.Derivation.Leftmost
import ProbeForge.Proofs.Derivation.Runs
import ProbeForge.Proofs.OrderedMap

/-!
# Records of derivations

Keeping records changes nothing but the records: whatever is watched, a generation draws the same
numbers and has the same outcome. The records are complete at every end of a growth: the counts
tally the traced rules, and the traced steps are the expansions of the tree.
-/

namespace ProbeForge

variable {ρ : Type} [RandomSource ρ]

/-! ### Without records -/

/-- The job that keeps no records. -/
def Job.unwatched (job : Job) : Job := { job with watch := ⟨false, false, false⟩ }

namespace Growth

variable {job : Job} {i : Nat} {s s' r : Growth ρ}

def unrecorded (s : Growth ρ) : Growth ρ := { s with counts := ∅, trace := #[] }

/-- How a turn or a run ends, and the state without its records. -/
def bare (outcome : Option Halt × Growth ρ) : Option Halt × Growth ρ :=
  (outcome.1, outcome.2.unrecorded)

theorem expand_unrecorded (job : Job) (i : Nat) (group : RuleGroup) (s : Growth ρ) :
    expand job.unwatched i group s.unrecorded = bare (expand job i group s) := by
  have hgrammar : job.unwatched.grammar = job.grammar := rfl
  have hobjects : job.unwatched.objects = job.objects := rfl
  have hscope : s.unrecorded.scope = s.scope := rfl
  cases hdraw : job.grammar.randomRuleOf group s.scope.source with
  | mk drawn source =>
  cases drawn with
  | error fault =>
    simp only [expand, hgrammar, hscope, hdraw]
    rfl
  | ok choice =>
    cases hresolve : Generator.resolve choice.entry.generator with
    | error fault =>
      simp only [expand, fill, hgrammar, hscope, hdraw, hresolve]
      rfl
    | ok generator =>
      cases generator with
      | none =>
        simp only [expand, fill, hgrammar, hscope, hdraw, hresolve]
        rfl
      | some generator =>
        cases hrun : generator.run job.objects { s.scope with source } <;>
          simp only [expand, fill, hgrammar, hobjects, hscope, hdraw, hresolve, hrun] <;> rfl

theorem visit_unrecorded (job : Job) (i : Nat) (s : Growth ρ) :
    visit job.unwatched i s.unrecorded = bare (visit job i s) := by
  have hgrammar : job.unwatched.grammar = job.grammar := rfl
  have hlimit : job.unwatched.limit = job.limit := rfl
  have htree : s.unrecorded.tree = s.tree := rfl
  unfold visit
  rw [hgrammar, hlimit, htree]
  cases s.tree.nodes[i]? with
  | none => rfl
  | some node =>
    dsimp only
    cases job.grammar.group? node.symbol with
    | none => rfl
    | some group =>
      dsimp only
      by_cases hover : (s.tree.size : Int) > job.limit
      · rw [if_pos hover, if_pos hover]
        rfl
      · rw [if_neg hover, if_neg hover]
        exact expand_unrecorded job i group s

theorem run_unrecorded (job : Job) (turns : Nat) (s : Growth ρ) :
    run job.unwatched turns s.unrecorded = bare (run job turns s) := by
  have hpending : s.unrecorded.pending = s.pending := rfl
  induction turns generalizing s with
  | zero =>
    unfold run
    rw [hpending]
    cases s.pending <;> rfl
  | succ turns ih =>
    unfold run
    rw [hpending]
    cases s.pending with
    | nil => rfl
    | cons i pending =>
      have hvisit : visit job.unwatched i { s.unrecorded with pending } =
          bare (visit job i { s with pending }) := visit_unrecorded job i { s with pending }
      dsimp only
      rw [hvisit]
      cases visit job i { s with pending } with
      | mk halt s' =>
      cases halt with
      | none => exact ih s' rfl
      | some halt => rfl

/-! ### Complete records -/

/-- The names of the rules in the trace. -/
def traced (s : Growth ρ) : List String := s.trace.toList.map (·.ruleName)

/-- The records of a growth so far: the traced steps are those of the nodes that were expanded, in
their order. -/
structure Logged (s : Growth ρ) (done : List Nat) : Prop where
  once : done.Nodup
  ruled : ∀ i, (s.tree.ruleAt i).isSome = true ↔ i ∈ done
  steps : s.traced.map some = done.map s.tree.ruleAt
  tallied : s.counts.Tallies s.traced
  ahead : ∀ i ∈ s.pending, i ∉ done

omit [RandomSource ρ] in
theorem logged_start (symbol : Symbol) (source : ρ) : (start symbol source).Logged [] := by
  refine ⟨List.nodup_nil, fun i => ?_, rfl, OrderedMap.tallies_nil, by simp⟩
  have hnone : (start symbol source).tree.ruleAt i = none := by
    cases i <;> rfl
  simp [hnone]

theorem Logged.visit (hcounts : job.watch.counts = true) (htrace : job.watch.trace = true)
    {done pending : List Nat} (hs : s.Logged done) (hqueued : s.Queued)
    (hwaits : s.pending = i :: pending) (h : Growth.visit job i { s with pending } = (none, s')) :
    ∃ done', s'.Logged done' := by
  have hrest : ∀ k ∈ pending, k ∉ done := fun k hk =>
    hs.ahead k (hwaits ▸ List.mem_cons_of_mem i hk)
  have hnew := hs.ahead i (hwaits ▸ List.mem_cons_self)
  have hstep := step_visit job i { s with pending }
  rw [h] at hstep
  cases hstep with
  | passed => exact ⟨done, { hs with ahead := hrest }⟩
  | @expanded choice f scope within fits rule named =>
    -- the step and the name of the rule are put down in the same turn
    have hsize : (s.tree.modify i f).size = s.tree.size := Tree.size_modify _ _ _
    have hrules : s.tree.Rules ((s.tree.modify i f).addChildren i choice.entry.rule.right) i
        choice.name := fun k =>
      (Tree.ruleAt_addChildren (by rwa [hsize]) _ k).trans (Tree.rules_modify named within k)
    have htraced : (note job.watch choice (branch i choice.entry.rule.right
        { s with pending, scope, tree := s.tree.modify i f })).traced =
        s.traced ++ [choice.name] := by
      simp [traced, note, branch, htrace]
    refine ⟨done ++ [i], ?_, fun k => ?_, ?_, ?_, fun k hk hmem => ?_⟩
    · exact List.nodup_append.mpr ⟨hs.once, List.nodup_singleton i, fun a ha b hb heq =>
        hnew (List.mem_singleton.mp hb ▸ heq ▸ ha)⟩
    · rw [List.mem_append, List.mem_singleton, ← hs.ruled k, eq_comm (a := k)]
      exact hrules.isSome_iff
    · rw [htraced, List.map_append, List.map_append, hs.steps, ← hrules.map_eq hnew]
      exact congrArg (_ ++ [·]) hrules.self.symm
    · rw [htraced]
      have hcounted : (note job.watch choice (branch i choice.entry.rule.right
          { s with pending, scope, tree := s.tree.modify i f })).counts =
          s.counts.count choice.name 1 := if_pos hcounts
      exact hcounted ▸ hs.tallied.concat choice.name
    · -- the new nodes come after all that were expanded
      have hk : k ∈ List.range' s.tree.size choice.entry.rule.right.length ++ pending := hsize ▸ hk
      rcases List.mem_append.mp hk with hk | hk <;> rcases List.mem_append.mp hmem with hmem | hmem
      · obtain ⟨name, hname⟩ := Option.isSome_iff_exists.mp ((hs.ruled k).mpr hmem)
        have := Tree.lt_size_of_ruleAt hname
        have := (List.mem_range'_1.mp hk).1
        omega
      · have := List.mem_singleton.mp hmem
        have := (List.mem_range'_1.mp hk).1
        have : i < s.tree.size := within
        omega
      · exact hrest k hk hmem
      · exact (List.nodup_cons.mp (hwaits ▸ hqueued.once)).1 (List.mem_singleton.mp hmem ▸ hk)

theorem Reaches.logged (hcounts : job.watch.counts = true) (htrace : job.watch.trace = true)
    {symbol : Symbol} {source : ρ} {n : Nat} (h : Reaches job (.start symbol source) n r) :
    r.Queued ∧ ∃ done, r.Logged done :=
  h.invariant (P := fun r => r.Queued ∧ ∃ done, r.Logged done)
    ⟨queued_start symbol source, [], logged_start symbol source⟩
    fun _ _ _ _ hwaits hvisit ⟨hqueued, _, hr⟩ =>
      ⟨hqueued.visit hwaits hvisit, hr.visit hcounts htrace hqueued hwaits hvisit⟩

/-- The records at the end of a growth. The counts tally the traced rules. The traced steps are
those of the nodes with a rule, each once, but that a node whose generator failed has none. -/
structure Recorded (halt : Option Halt) (r : Growth ρ) : Prop where
  tallied : r.counts.Tallies r.traced
  steps : ∃ (done : List Nat) (raised : Option Nat), done.Nodup ∧
    r.traced.map some = done.map r.tree.ruleAt ∧
    (∀ i, (r.tree.ruleAt i).isSome = true ↔ i ∈ done ∨ raised = some i) ∧
    ∀ i, raised = some i → i ∉ done ∧ ∃ fault, halt = some (.fault fault)

omit [RandomSource ρ] in
theorem Logged.recorded {done : List Nat} (h : r.Logged done) (halt : Option Halt) :
    Recorded halt r :=
  ⟨h.tallied, done, none, h.once, h.steps, by simpa using h.ruled, by simp⟩

/-- A turn that ends a growth adds no step. -/
theorem recorded_halted {done pending : List Nat} {halt : Halt} (hs : s.Logged done)
    (hwaits : s.pending = i :: pending)
    (h : visit job i { s with pending } = (some halt, s')) : Recorded (some halt) s' := by
  have hstep := step_visit job i { s with pending }
  rw [h] at hstep
  cases hstep with
  | stopped | undrawn => exact ⟨hs.tallied, (hs.recorded (some _)).steps⟩
  | @raised fault name f scope within named =>
    have hnew := hs.ahead i (hwaits ▸ List.mem_cons_self)
    have hrules := Tree.rules_modify named within
    refine ⟨hs.tallied, done, some i, hs.once, ?_, fun k => ?_, ?_⟩
    · exact hs.steps.trans (hrules.map_eq hnew).symm
    · rw [Option.some.injEq, ← hs.ruled k]
      exact hrules.isSome_iff
    · rintro k hk
      obtain rfl : i = k := Option.some.inj hk
      exact ⟨hnew, fault, rfl⟩

theorem run_recorded (hcounts : job.watch.counts = true) (htrace : job.watch.trace = true)
    {symbol : Symbol} {source : ρ} {turns : Nat} {halt : Option Halt}
    (h : run job turns (.start symbol source) = (halt, r)) : Recorded halt r := by
  have hends : Ends job (.start symbol source) (0 + turns)
      (run job turns (.start symbol source)) := ends_run .start
  rw [h] at hends
  cases hends with
  | complete reached | outOfTurns reached =>
    obtain ⟨-, done, hr⟩ := reached.logged hcounts htrace
    exact hr.recorded _
  | halted reached waits visited =>
    obtain ⟨-, done, hr⟩ := reached.logged hcounts htrace
    exact recorded_halted hr waits visited

end Growth

/-! ### Generations -/

/-- What a generation is apart from its records. -/
def Generation.unrecorded (r : Generation) : Generation :=
  { r with counts := ∅, trace := [], tree := none }

namespace Engine

open Growth

variable {e : Engine} {start : Symbol} {seed : Int} {watch : Watch} {source : ρ}

/-- The growth that a generation begins with. -/
def job (e : Engine) (watch : Watch) : Job := ⟨e.grammar, e.objects, e.maxNodes, watch⟩

/-- The outcome of a generation without its records, and the draws that it leaves. -/
def outcome (e : Engine) (start : Symbol) (seed : Int) (watch : Watch) (source : ρ) :
    Except Fault Generation × ρ :=
  let (result, rest) := e.generateFrom start seed watch source
  (result.map Generation.unrecorded, rest)

theorem outcome_unwatched (e : Engine) (start : Symbol) (seed : Int) (watch : Watch) (source : ρ) :
    e.outcome start seed watch source = e.outcome start seed ⟨false, false, false⟩ source := by
  have hrun : run (e.job ⟨false, false, false⟩) (e.job ⟨false, false, false⟩).turns
      (.start start source) = bare (run (e.job watch) (e.job watch).turns (.start start source)) :=
    run_unrecorded (e.job watch) (e.job watch).turns (.start start source)
  unfold outcome generateFrom
  dsimp only [job] at hrun ⊢
  rw [hrun]
  cases run ⟨e.grammar, e.objects, e.maxNodes, watch⟩ _ (.start start source) with
  | mk halt grown =>
  cases halt with
  | some halt =>
    dsimp only [bare]
    cases e.failureOf start halt <;> rfl
  | none =>
    dsimp only [bare, Growth.unrecorded]
    cases Rendering.render e.grammar grown.tree e.objects Rendering.levels 0 grown.scope with
    | ok text scope => rfl
    | error halt scope =>
      dsimp only
      cases e.failureOf start halt <;> rfl

/-- A generation that gives a result has the records of its growth, which no fault ended. -/
theorem records_of_generateFrom {result : Generation} {rest : ρ}
    (h : e.generateFrom start seed watch source = (.ok result, rest)) :
    ∃ halt r, run (e.job watch) (e.job watch).turns (.start start source) = (halt, r) ∧
      (∀ fault, halt ≠ some (.fault fault)) ∧
      result.counts = r.counts ∧ result.trace = r.trace.toList ∧
      result.tree = if halt = none ∧ watch.tree = true then some r.tree else none := by
  unfold generateFrom at h
  dsimp only [job] at h ⊢
  cases hrun : run ⟨e.grammar, e.objects, e.maxNodes, watch⟩ _ (.start start source) with
  | mk halt grown =>
  rw [hrun] at h
  refine ⟨halt, grown, rfl, ?_⟩
  cases halt with
  | some halt =>
    -- a growth that a fault ended gives no result
    obtain ⟨failure, hfailure, rfl⟩ := map_ok.mp (Prod.mk.inj h).1
    refine ⟨?_, rfl, rfl, by simp⟩
    rintro fault ⟨⟩
    cases hfailure
  | none =>
    refine ⟨by simp, ?_⟩
    dsimp only at h
    have htree : ∀ t : Option Tree, (if watch.tree = true then t else none) =
        if (none : Option Halt) = none ∧ watch.tree = true then t else none := by simp
    cases hrender : Rendering.render e.grammar grown.tree e.objects Rendering.levels 0
        grown.scope with
    | ok text scope =>
      rw [hrender] at h
      cases h
      exact ⟨rfl, rfl, htree _⟩
    | error halt scope =>
      rw [hrender] at h
      obtain ⟨failure, -, rfl⟩ := map_ok.mp (Prod.mk.inj h).1
      exact ⟨rfl, rfl, htree _⟩

/-- Whatever is watched, a generation has the same outcome and leaves the same draws. If counts and
trace are kept, they are complete at every end of the growth, and so are those of every result. -/
theorem generate_records (e : Engine) (start : Symbol) (seed : Int) (source : ρ) :
    (∀ watch watch', e.outcome start seed watch source = e.outcome start seed watch' source) ∧
    (∀ name watch watch', (e.generate ρ name seed watch).map Generation.unrecorded =
      (e.generate ρ name seed watch').map Generation.unrecorded) ∧
    ∀ keep,
      (∀ turns halt r, run (e.job ⟨true, true, keep⟩) turns (.start start source) = (halt, r) →
        Recorded halt r) ∧
      ∀ result rest, e.generateFrom start seed ⟨true, true, keep⟩ source = (.ok result, rest) →
        ∃ halt r, run (e.job ⟨true, true, keep⟩) (e.job ⟨true, true, keep⟩).turns
            (.start start source) = (halt, r) ∧
          (∀ fault, halt ≠ some (.fault fault)) ∧ Recorded halt r ∧
          result.counts = r.counts ∧ result.trace = r.trace.toList ∧
          result.tree = if halt = none ∧ keep = true then some r.tree else none := by
  have hsame : ∀ (start : Symbol) (source : ρ) (watch watch' : Watch),
      e.outcome start seed watch source = e.outcome start seed watch' source :=
    fun start source watch watch' => (outcome_unwatched e start seed watch source).trans
      (outcome_unwatched e start seed watch' source).symm
  refine ⟨hsame start source, fun name watch watch' => ?_, fun keep => ⟨fun turns halt r hrun => ?_,
    fun result rest hresult => ?_⟩⟩
  · unfold generate
    cases e.startSymbol name with
    | error fault => rfl
    | ok symbol =>
      exact congrArg Prod.fst (hsame symbol (RandomSource.seeded seed) watch watch')
  · exact run_recorded rfl rfl hrun
  · obtain ⟨halt, r, hrun, hend, hrest⟩ := records_of_generateFrom hresult
    exact ⟨halt, r, hrun, hend, run_recorded rfl rfl hrun, hrest⟩

/-- A growth that is cut off after one expansion. -/
def cutShort (watch : Watch) : Except Fault Generation × Draws :=
  generateFrom ⟨nesting, .empty, 3⟩ ⟨"S"⟩ 7 watch ⟨[0, 2, 1]⟩

/-- It has one step in its records, and leaves as many draws as without them. -/
theorem generate_records_cutShort : ∃ result r,
    cutShort ⟨true, true, true⟩ = (.ok result, ⟨[2, 1]⟩) ∧
    (result.failure, result.trace.map (·.ruleName), result.counts.toList) =
      (some (.tooManyNodes "3" "S"), ["Rule.S.0"], [("Rule.S.0", 1)]) ∧
    outcome ⟨nesting, .empty, 3⟩ ⟨"S"⟩ 7 ⟨false, false, false⟩ (⟨[0, 2, 1]⟩ : Draws) =
      (.ok result.unrecorded, ⟨[2, 1]⟩) ∧
    Recorded (ρ := Draws) (some (.failure (.tooManyNodes "3" "S"))) r ∧
    result.trace = r.trace.toList := by
  obtain ⟨hsame, -, hkeep⟩ :=
    generate_records ⟨nesting, .empty, 3⟩ ⟨"S"⟩ 7 (⟨[0, 2, 1]⟩ : Draws)
  have hshown : (cutShort ⟨true, true, true⟩).1.toOption.map (fun result =>
      (result.failure, result.trace.map (·.ruleName), result.counts.toList)) =
        some (some (.tooManyNodes "3" "S"), ["Rule.S.0"], [("Rule.S.0", 1)]) := by decide +kernel
  have hrest : (cutShort ⟨true, true, true⟩).2.rest = [2, 1] := by decide +kernel
  have hhalt : (run (job ⟨nesting, .empty, 3⟩ ⟨true, true, true⟩) 6
      (.start ⟨"S"⟩ (⟨[0, 2, 1]⟩ : Draws))).1 = some (.failure (.tooManyNodes "3" "S")) := by
    decide +kernel
  cases hcut : cutShort ⟨true, true, true⟩ with
  | mk drawn rest =>
  rw [hcut] at hshown hrest
  cases drawn with
  | error fault => cases hshown
  | ok result =>
    obtain rfl : rest = ⟨[2, 1]⟩ := congrArg Draws.mk hrest
    obtain ⟨halt, r, hrun, -, hrecorded, -, htrace, -⟩ := (hkeep true).2 result _ hcut
    have hturns : (job ⟨nesting, .empty, 3⟩ ⟨true, true, true⟩).turns = 6 := by decide
    rw [hturns] at hrun
    rw [hrun] at hhalt
    obtain rfl := hhalt
    refine ⟨result, r, rfl, Option.some.inj hshown, ?_, hrecorded, htrace⟩
    have hcut : generateFrom ⟨nesting, .empty, 3⟩ ⟨"S"⟩ 7 ⟨true, true, true⟩ (⟨[0, 2, 1]⟩ : Draws) =
        (.ok result, ⟨[2, 1]⟩) := hcut
    rw [hsame _ ⟨true, true, true⟩, outcome, hcut]
    rfl

end Engine

end ProbeForge
