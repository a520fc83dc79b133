import ProbeForge.Derivation.Engine
import ProbeForge.Proofs.SelectCore.Writing
import ProbeForge.Random.MersenneTwister

/-!
# Generation under every weight vector

No statement of the core SELECT grammar misuses its scopes, whatever the weights, the universe, the
node limit and the draws are. A statement fails only at the limit, for its depth or at a stub.
-/

namespace ProbeForge.SelectCore

open Grammars Scope Rendering

variable {ρ : Type} [RandomSource ρ] {g : Grammar} {t : Tree} {u : Universe} {size : Nat}
  {levels i : Nat} {n : Node} {id : SegmentId} {rest : List SegmentId} {s s' : Scope ρ}

/-! ### Visits -/

/-- Every turn of a rendering comes in a scope that is ready for it. -/
theorem visits_ready (hg : IsCore g) (ht : t.Derives g []) (hnumbered : t.Numbered size)
    {done : List Nat} {levels' j : Nat} (h : Visits g t u levels i s done levels' j s')
    (hn : ∃ n, t.nodes[i]? = some n) (hready : Ready t size id rest i s) :
    ∃ m id' rest', t.nodes[j]? = some m ∧ Ready t size id' rest' j s' := by
  induction h generalizing id rest with
  | here =>
    obtain ⟨n, hn⟩ := hn
    exact ⟨n, id, rest, hn, hready⟩
  | down found expanded resolved parts rendered visits ih =>
    obtain ⟨right, generator, representer, hmem, htakes⟩ := hg.takes ht found expanded
    cases resolved.symm.trans htakes.representer
    obtain ⟨id', rest', -, hbound, hcalm, hstack⟩ :=
      entered_inner hnumbered hmem htakes found hready
    have hchild := turn_ready hg ht (behaves hg ht hnumbered _) hmem htakes parts rendered hbound
      hcalm hstack
    have hc := mem_renderOrder (parts ▸ List.mem_append_right _ List.mem_cons_self)
    obtain ⟨name, -, m, hm, -⟩ := forall₂_mem_left htakes.children hc
    exact ih ⟨m, hm⟩ hchild

/-- When a representer asks for the alias or the export of a column, one is chosen. -/
theorem chosen_of_visits (hg : IsCore g) (ht : t.Derives g []) (hnumbered : t.Numbered size)
    {done : List Nat} {levels' j : Nat} (h : Visits g t u levels i s done (levels' + 1) j s')
    (hn : ∃ n, t.nodes[i]? = some n) (hready : Ready t size id rest i s) {m : Node}
    (hm : t.nodes[j]? = some m) (hexp : m.isExpanded = true) {representer : Representer}
    (hresolve : Representer.resolve m.representer = .ok representer)
    (hasks : representer = .columnAlias ∨ representer = .outputColumn) {s₁ : Scope ρ}
    (hchain :
      Chain (Renders (Rendering.render g t u levels')) (renderOrder t m representer) s' s₁) :
    ∃ id rest, s₁.catalog.stack = id :: rest ∧ (s₁.catalog.segment id).cursor.IsChosen := by
  obtain ⟨m', id', rest', hm', hready'⟩ := visits_ready hg ht hnumbered h hn hready
  cases hm.symm.trans hm'
  obtain ⟨right, generator, representer', hmem, htakes⟩ := hg.takes ht hm hexp
  cases hresolve.symm.trans htakes.representer
  refine ⟨id', rest', ?_⟩
  rcases hasks with rfl | rfl
  · cases hchain
    exact ⟨hready'.stack, hready'.chosen m hm (congrArg Symbol.mk ((columnAlias_iff hmem).mp rfl))⟩
  · rcases entered_cases hmem htakes s' with ⟨-, -, heq⟩ | ⟨-, hblock, -⟩
    · exact ⟨(children_calm hg ht (behaves hg ht hnumbered _) hmem htakes hchain hready'.bound
        hready'.calm hready'.stack).2, output_chosen (behaves hg ht hnumbered _) hmem htakes hchain
        hready'.bound hready'.calm hready'.stack⟩
    · cases hblock

/-! ### Whole statements -/

/-- What a failure of a statement tells about its tree. -/
inductive Accounts (limit : Int) (start : Symbol) (t : Tree) : RenderFailure → Prop where
  | stub {j : Nat} {m : Node} (found : t.nodes[j]? = some m)
      (symbol : m.symbol = ⟨"set_operation"⟩) (expanded : m.isExpanded = true) :
      Accounts limit start t (.unimplemented "set_operation")
  | overLimit {symbol : String} (exceeds : limit < t.size) :
      Accounts limit start t (.tooManyNodes (toString limit) symbol)
  | tooDeep {j : Nat} (deep : (Rendering.levels, j) ∈ t.walk 0 0) :
      Accounts limit start t (.tooDeep start.name)

/-- The blocks of a statement are opened and closed in pairs, and columns are written out when they
were chosen. -/
structure Bracketed (job : Job) (start : Growth ρ) : Prop where
  closes : ∀ (turns : Nat) (r r' : Growth ρ) (i : Nat) (pending : List Nat) (n : Node),
    Growth.Reaches job start turns r → r.pending = i :: pending → r.tree.nodes[i]? = some n →
    n.symbol = ⟨"end_of_subquery"⟩ → Growth.visit job i { r with pending } = (none, r') →
    ∃ (p : Nat) (m : Node) (id : SegmentId), n.parent = some (p : Int) ∧
      r.tree.nodes[p]? = some m ∧ m.symbol = ⟨"subquery"⟩ ∧ m.segment = some id ∧
      r.scope.catalog.stack = id :: r'.scope.catalog.stack
  complete : ∀ (turns : Nat) (r : Growth ρ), Growth.run job turns start = (none, r) →
    ∃ root id, r.tree.nodes[0]? = some root ∧ root.segment = some id ∧
      r.scope.catalog.stack = [id]
  chosen : ∀ (turns : Nat) (r : Growth ρ) (done : List Nat) (levels levels' j : Nat) (m : Node)
    (representer : Representer) (s s' : Scope ρ), Growth.run job turns start = (none, r) →
    Visits job.grammar r.tree job.objects levels 0 r.scope done (levels' + 1) j s →
    r.tree.nodes[j]? = some m → m.isExpanded = true →
    Representer.resolve m.representer = .ok representer →
    representer = .columnAlias ∨ representer = .outputColumn →
    Chain (Renders (Rendering.render job.grammar r.tree job.objects levels'))
      (renderOrder r.tree m representer) s s' →
    ∃ id rest, s'.catalog.stack = id :: rest ∧ (s'.catalog.segment id).cursor.IsChosen

theorem bracketed {job : Job} (hg : IsCore job.grammar) (source : ρ) :
    Bracketed job (.start ⟨"sql_statement"⟩ source) where
  closes _ _ _ _ _ _ hreached hwaits hn hsymbol hvisit :=
    (sound_of_reaches hg hreached).closes_own hg hwaits hn hsymbol hvisit
  complete turns r hrun := by
    obtain ⟨n, id, hn, -, hsegment, hstack⟩ := (finished_of_run hg hrun).root
    exact ⟨n, id, hn, hsegment, hstack⟩
  chosen turns r done levels levels' j m representer s s' hrun hvisits hm hexp hresolve hasks
      hchain := by
    have hfinished := finished_of_run hg hrun
    obtain ⟨n, id, hn, -, hready⟩ := hfinished.ready
    exact chosen_of_visits hg hfinished.derives hfinished.numbered hvisits ⟨n, hn⟩ hready hm hexp
      hresolve hasks hchain

/-- Only the node limit ends a growth, since its turns suffice. -/
theorem growth_halts {job : Job} (hg : IsCore job.grammar) {source : ρ} {halt : Halt}
    {r : Growth ρ}
    (h : Growth.run job job.turns (.start ⟨"sql_statement"⟩ source) = (some halt, r)) :
    ∃ symbol, halt = .failure (.tooManyNodes (toString job.limit) symbol) ∧
      job.limit < r.tree.size := by
  obtain ⟨n, s, i, pending, hreached, hwaits, hvisited⟩ := Growth.run_halted hg.grouped h
  exact (sound_of_reaches hg hreached).halts hg hwaits hvisited

/-- The rendering of a finished growth ends early for its depth or at a stub. -/
theorem render_accounts {job : Job} (hg : IsCore job.grammar) {source : ρ} {r : Growth ρ}
    (h : Finished job source r) {halt : Halt} {s : Scope ρ}
    (hrender : Rendering.render job.grammar r.tree job.objects Rendering.levels 0 r.scope =
      .error halt s) :
    halt = .tooDeep ∧ (∃ j, (Rendering.levels, j) ∈ r.tree.walk 0 0) ∨
      halt = .failure (.unimplemented "set_operation") ∧ ∃ (j : Nat) (m : Node),
        r.tree.nodes[j]? = some m ∧ m.symbol = ⟨"set_operation"⟩ ∧ m.isExpanded = true := by
  obtain ⟨n, id, hn, -, hready⟩ := h.ready
  have hleaves := behaves (u := job.objects) hg h.derives h.numbered Rendering.levels 0 n id []
    r.scope hn hready
  rw [hrender] at hleaves
  obtain ⟨-, hexcused⟩ := hleaves
  cases hexcused with
  | tooDeep path =>
    have hsize : 0 < r.tree.size := Tree.lt_size hn
    exact .inl ⟨rfl, _, (Tree.mem_walk h.derives hsize).mpr ⟨_, (Nat.zero_add _).symm, path⟩⟩
  | stub path found symbol expanded => exact .inr ⟨rfl, _, _, found, symbol, expanded⟩

/-- A statement is generated whatever happens, and a failure has one of three causes. -/
theorem generateFrom_accounts {e : Engine} (hg : IsCore e.grammar) (seed : Int) (watch : Watch)
    (source : ρ) : ∃ r source', e.generateFrom ⟨"sql_statement"⟩ seed watch source =
        (.ok r, source') ∧
      ∀ failure, r.failure = some failure → Accounts e.maxNodes ⟨"sql_statement"⟩
        (Growth.run ⟨e.grammar, e.objects, e.maxNodes, watch⟩
          (Job.turns ⟨e.grammar, e.objects, e.maxNodes, watch⟩)
          (.start ⟨"sql_statement"⟩ source)).2.tree failure := by
  obtain ⟨grammar, objects, limit⟩ := e
  unfold Engine.generateFrom
  dsimp only at hg ⊢
  generalize hrun : Growth.run ⟨grammar, objects, limit, watch⟩
    (Job.turns ⟨grammar, objects, limit, watch⟩) (.start ⟨"sql_statement"⟩ source) = grown
  obtain ⟨halt, grown⟩ := grown
  cases halt with
  | some halt =>
    obtain ⟨symbol, rfl, hover⟩ := growth_halts hg hrun
    refine ⟨_, _, rfl, fun failure hfailure => ?_⟩
    cases hfailure
    exact .overLimit hover
  | none =>
    -- the tree is complete, so what fails is the rendering
    have hfinished := finished_of_run hg hrun
    dsimp only
    cases hrender : Rendering.render grammar grown.tree objects Rendering.levels 0
        grown.scope with
    | ok text scope =>
      refine ⟨_, _, rfl, fun failure hfailure => ?_⟩
      cases hfailure
    | error halt scope =>
      rcases render_accounts hg hfinished hrender with
        ⟨rfl, j, hdeep⟩ | ⟨rfl, j, m, hm, hsymbol, hexp⟩
      · refine ⟨_, _, rfl, fun failure hfailure => ?_⟩
        cases hfailure
        exact .tooDeep hdeep
      · refine ⟨_, _, rfl, fun failure hfailure => ?_⟩
        cases hfailure
        exact .stub hm hsymbol hexp

/-- Generation from the start symbol never raises, under any positive weights and for any universe,
limit and draws. -/
theorem generate_bracketed {built g : Grammar} {weights : List Int}
    (hbuild : selectCore.build = .ok built) (hweights : built.setWeights weights true = .ok g)
    (objects : Universe) (limit : Int) (watch : Watch) (seed : Int) (source : ρ) :
    ∃ start r source',
      Engine.startSymbol ⟨g, objects, limit⟩ .null = .ok start ∧
      Engine.generateFrom ⟨g, objects, limit⟩ start seed watch source = (.ok r, source') ∧
      Bracketed ⟨g, objects, limit, watch⟩ (.start start source) ∧
      ∀ failure, r.failure = some failure → Accounts limit start
        (Growth.run ⟨g, objects, limit, watch⟩ (Job.turns ⟨g, objects, limit, watch⟩)
          (.start start source)).2.tree failure := by
  have hg := isCore_of_setWeights hbuild hweights
  obtain ⟨r, source', hrun, haccounts⟩ :=
    generateFrom_accounts (e := ⟨g, objects, limit⟩) hg seed watch source
  refine ⟨⟨"sql_statement"⟩, r, source', ?_, hrun, bracketed hg source, haccounts⟩
  unfold Engine.startSymbol
  rw [hg.start_eq]
  rfl

/-- With equal weights over the demonstration schema. -/
theorem generate_bracketed_demo : ∃ built g, selectCore.build = .ok built ∧
    built.setWeights (List.replicate built.table.size 1) true = .ok g ∧
    ∃ start r source', Engine.startSymbol ⟨g, Universe.demo, 60⟩ .null = .ok start ∧
      Engine.generateFrom ⟨g, Universe.demo, 60⟩ start 7 ⟨false, false, false⟩
        (RandomSource.seeded 7 : MersenneTwister) = (.ok r, source') ∧
      Bracketed ⟨g, Universe.demo, 60, ⟨false, false, false⟩⟩
        (.start start (RandomSource.seeded 7 : MersenneTwister)) ∧
      ∀ failure, r.failure = some failure → Accounts 60 start
        (Growth.run ⟨g, Universe.demo, 60, ⟨false, false, false⟩⟩
          (Job.turns ⟨g, Universe.demo, 60, ⟨false, false, false⟩⟩)
          (.start start (RandomSource.seeded 7 : MersenneTwister))).2.tree failure := by
  obtain ⟨built, hbuild⟩ := exists_build
  have hones : ∀ w ∈ List.replicate built.table.size (1 : Int), 1 ≤ w := fun w hw =>
    Int.le_of_eq (List.eq_of_mem_replicate hw).symm
  obtain ⟨g, hweights⟩ := Grammar.exists_setWeights List.length_replicate hones
  exact ⟨built, g, hbuild, hweights, generate_bracketed hbuild hweights Universe.demo 60
    ⟨false, false, false⟩ 7 (RandomSource.seeded 7)⟩

end ProbeForge.SelectCore
