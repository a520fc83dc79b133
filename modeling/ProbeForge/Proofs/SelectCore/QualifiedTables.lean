import ProbeForge.Proofs.Scope.Announcements
import ProbeForge.Proofs.SelectCore.Qualifiers

/-!
# Qualified tables

A table may be written after its schema. The two parts are nodes of their own with a turn each, and
one source is registered for both: the schema announces it and the name is taken from there. So the
text is the schema and the name of one source.
-/

namespace ProbeForge

/-- The text that a schema is written as. -/
def SourceDescriptor.writtenSchema (d : SourceDescriptor) : String :=
  if (d.schema.getD "").isEmpty then Scope.unknownSchema else d.schema.getD ""

namespace Growth

variable {ρ : Type} [RandomSource ρ]

/-- The turn of a node that waits before all others. -/
def TakesTurn (job : Job) (i : Nat) (s s' : Growth ρ) : Prop :=
  ∃ pending, s.pending = i :: pending ∧ visit job i { s with pending } = (none, s')

/-- The turns of a schema, a dot and the name of a table, one after the other: the first registers a
source and the others register nothing. -/
inductive RegistersOnce (job : Job) (start r : Growth ρ) (schema dot tail : Nat)
    (d : SourceDescriptor) : Prop where
  | intro {k left : Nat} {s₀ s₁ s₂ s₃ : Growth ρ} {id : SegmentId} {rest : List SegmentId}
      {entry : SourceEntry} (reached : Reaches job start k s₀)
      (announces : TakesTurn job schema s₀ s₁) (passes : TakesTurn job dot s₁ s₂)
      (takes : TakesTurn job tail s₂ s₃)
      (completes : Completes job left s₃ r) (opened : s₀.scope.catalog.stack = id :: rest)
      (registered : (s₁.scope.catalog.segment id).sources =
        (s₀.scope.catalog.segment id).sources.insert entry.aliasName entry)
      (descriptor : entry.descriptor = d)
      (others : ∀ k ≠ id, s₁.scope.catalog.segment k = s₀.scope.catalog.segment k)
      (kept : ∀ k, (s₃.scope.catalog.segment k).sources = (s₁.scope.catalog.segment k).sources) :
      RegistersOnce job start r schema dot tail d

theorem Reaches.takesTurn {job : Job} {start s s' : Growth ρ} {k i : Nat}
    (h : Reaches job start k s) (hturn : TakesTurn job i s s') : Reaches job start (k + 1) s' := by
  obtain ⟨pending, hwaits, hvisit⟩ := hturn
  exact h.turn hwaits hvisit

/-- What waits has its turn in a growth that comes to its end. -/
theorem Completes.takesTurn {job : Job} {s r : Growth ρ} {turns i : Nat} {pending : List Nat}
    (h : Completes job turns s r) (hwaits : s.pending = i :: pending) :
    ∃ s' turns', TakesTurn job i s s' ∧ Completes job turns' s' r := by
  cases h with
  | done done =>
    rw [hwaits] at done
    cases done
  | @turn turns s s₁ s' j pending' waits visited rest =>
    obtain ⟨rfl, rfl⟩ := List.cons.inj (hwaits.symm.trans waits)
    exact ⟨s₁, turns, ⟨_, waits, visited⟩, rest⟩

end Growth

namespace SelectCore

open Grammars Scope Rendering Growth

variable {ρ : Type} [RandomSource ρ] {g : Grammar} {t : Tree} {u : Universe} {job : Job}
  {i turns : Nat} {n : Node} {pending : List Nat} {source : ρ} {s s' r : Growth ρ}

/-! ### Turns of the parts -/

/-- A state on the way from the start to the end of a growth. -/
structure OnTheWay (job : Job) (source : ρ) (s r : Growth ρ) : Prop where
  reached : ∃ k, Reaches job (.start ⟨"sql_statement"⟩ source) k s
  completes : ∃ turns, Completes job turns s r

theorem OnTheWay.sound (hg : IsCore job.grammar) (h : OnTheWay job source s r) :
    Sound job.grammar s := by
  obtain ⟨k, hreached⟩ := h.reached
  exact sound_of_reaches hg hreached

theorem OnTheWay.extends (hg : IsCore job.grammar) (h : OnTheWay job source s r) :
    s.tree.Extends r.tree := by
  obtain ⟨turns, hcompletes⟩ := h.completes
  exact (hcompletes.replays hg.grouped (h.sound hg).derives).1

/-- The next turn, with the node as it waits for it. -/
theorem OnTheWay.next (hg : IsCore job.grammar) (h : OnTheWay job source s r)
    (hwaits : s.pending = i :: pending) (hn : r.tree.nodes[i]? = some n) :
    ∃ s' m, TakesTurn job i s s' ∧ OnTheWay job source s' r ∧ s.tree.nodes[i]? = some m ∧
      m.symbol = n.symbol ∧ visit job i { s with pending } = (none, s') := by
  obtain ⟨k, hreached⟩ := h.reached
  obtain ⟨turns, hcompletes⟩ := h.completes
  obtain ⟨s', turns', hturn, hrest⟩ := hcompletes.takesTurn hwaits
  obtain ⟨m, hm, -⟩ := (h.sound hg).derives.waiting i (hwaits ▸ List.mem_cons_self)
  obtain ⟨n', hn', hsymbol, -⟩ := h.extends hg i m hm
  cases hn.symm.trans hn'
  refine ⟨s', m, hturn, ⟨⟨_, hreached.takesTurn hturn⟩, _, hrest⟩, hm, hsymbol.symm, ?_⟩
  obtain ⟨pending', hwaits', hvisit⟩ := hturn
  obtain ⟨-, rfl⟩ := List.cons.inj (hwaits.symm.trans hwaits')
  exact hvisit

/-- The turn of a node with an empty rule is its generator. -/
theorem OnTheWay.leaf (hg : IsCore job.grammar) (h : OnTheWay job source s r)
    (hwaits : s.pending = i :: pending) (hn : r.tree.nodes[i]? = some n) {generator : Generator}
    {representer : Representer}
    (hrules : alternatives n.symbol.name = [([], some generator, representer)]) :
    ∃ s' p source', TakesTurn job i s s' ∧ OnTheWay job source s' r ∧ s'.pending = pending ∧
      n.payload = some p ∧
      generator.run job.objects { s.scope with source := source' } = .ok p s'.scope := by
  obtain ⟨s', m, hturn, hway, hm, hsymbol, hvisit⟩ := h.next hg hwaits hn
  have hderives := hwaits ▸ (h.sound hg).derives
  obtain ⟨m', hm', -, ⟨hterminal, -⟩ | ⟨-, hexpands⟩⟩ :=
    visit_ok (s := { s with pending }) hg.grouped hderives hvisit
  all_goals cases hm.symm.trans hm'
  · exact absurd hterminal (hg.not_terminal (hsymbol ▸ hrules ▸ List.cons_ne_nil _ _))
  obtain ⟨n', name, entry, generator', source', hn', hnamed, hrule, hfollows, hpending, hresolve,
    hran, -⟩ := hexpands.node hderives
  have hexp : n'.isExpanded = true := by simp [Node.isExpanded, hnamed]
  cases hn.symm.trans (hway.extends hg |>.expanded_node hn' hexp)
  obtain ⟨representer', hmem, -⟩ := hg.alternative hrule hresolve
  rw [hfollows.left, hrules] at hmem
  obtain ⟨hright, rfl, -⟩ :
      entry.rule.right.map (·.name) = [] ∧ generator' = some generator ∧ _ := by
    simpa using List.mem_singleton.mp hmem
  have hchildren := hfollows.children
  rw [List.map_eq_nil_iff.mp hright, List.forall₂_nil_right_iff] at hchildren
  obtain ⟨p, hrun, hpayload, -⟩ := hran
  exact ⟨s', p, source', hturn, hway, by rw [hpending, hchildren]; rfl, hpayload, hrun⟩

/-- A terminal is passed over. -/
theorem OnTheWay.terminal (hg : IsCore job.grammar) (h : OnTheWay job source s r)
    (hwaits : s.pending = i :: pending) (hn : r.tree.nodes[i]? = some n)
    (hterminal : alternatives n.symbol.name = []) :
    ∃ s', TakesTurn job i s s' ∧ OnTheWay job source s' r ∧ s'.pending = pending ∧
      s'.scope = s.scope := by
  obtain ⟨s', m, hturn, hway, hm, hsymbol, hvisit⟩ := h.next hg hwaits hn
  obtain ⟨m', hm', -, ⟨-, rfl⟩ | ⟨hnonterminal, -⟩⟩ :=
    visit_ok (s := { s with pending }) hg.grouped (hwaits ▸ (h.sound hg).derives) hvisit
  · exact ⟨_, hturn, hway, rfl, rfl⟩
  · cases hm.symm.trans hm'
    exact absurd (hsymbol ▸ hterminal) (hg.isNonterminal_iff.mp hnonterminal)

omit [RandomSource ρ] in
/-- While more than the statement waits, a block is open. -/
theorem Sound.opened {g : Grammar} (h : Sound g s) (hwaits : s.pending ≠ [0]) :
    ∃ id rest, s.scope.catalog.stack = id :: rest := by
  rcases h.blocks with ⟨hopening, -⟩ | ⟨root, block, -, -, -, hstack⟩
  · exact absurd hopening hwaits
  · rw [hstack]
    exact List.exists_cons_of_ne_nil (by simp)

/-- The state after the turn of an expanded node: its children wait before all others. -/
theorem exists_expanded (hg : IsCore job.grammar)
    (hrun : run job turns (.start ⟨"sql_statement"⟩ source) = (none, r))
    (hn : r.tree.nodes[i]? = some n) (hexp : n.isExpanded = true) :
    ∃ s pending, OnTheWay job source s r ∧ s.pending = n.children ++ pending := by
  have hstart := Tree.derives_start job.grammar ⟨"sql_statement"⟩
  obtain ⟨k, left, s₀, s, pending, hreached, hwaits, hvisit, hexpands, hrest⟩ :=
    (completes_run hrun).turn_of hg.grouped .start hstart hn hexp fun _ => start_unexpanded
  have hway : OnTheWay job source s r := ⟨⟨_, hreached.turn hwaits hvisit⟩, _, hrest⟩
  obtain ⟨m, name, entry, generator, source', hm, hnamed, -, -, hpending, -⟩ :=
    hexpands.node (hwaits ▸ (sound_of_reaches hg hreached).derives)
  have hexpanded : m.isExpanded = true := by simp [Node.isExpanded, hnamed]
  cases hn.symm.trans ((hway.extends hg).expanded_node hm hexpanded)
  exact ⟨s, pending, hway, hpending⟩

/-- A schema, a dot and a table that wait one after the other. -/
theorem OnTheWay.registersOnce (hg : IsCore job.grammar) (h : OnTheWay job source s r)
    {schema dot tail : Nat} {a b c : Node} (hwaits : s.pending = schema :: dot :: tail :: pending)
    (ha : r.tree.nodes[schema]? = some a) (hschema : a.symbol = ⟨"schema_ref"⟩)
    (hb : r.tree.nodes[dot]? = some b) (hdot : b.symbol = ⟨"."⟩)
    (hc : r.tree.nodes[tail]? = some c) (htail : c.symbol = ⟨"table_tail"⟩) :
    ∃ d, a.payload = some (.source d) ∧ c.payload = some (.source d) ∧
      RegistersOnce job (.start ⟨"sql_statement"⟩ source) r schema dot tail d := by
  obtain ⟨k, hreached⟩ := h.reached
  have hsound := h.sound hg
  obtain ⟨id, rest, hopen⟩ := hsound.opened (by simp [hwaits])
  have hid : id < s.scope.catalog.segments.size :=
    (stocked_of_reaches hg hreached).open_lt hsound (hopen ▸ List.mem_cons_self)
  -- the schema registers the table
  obtain ⟨s₁, p, source₁, hfirst, hway₁, hwaits₁, hpayload, hrun⟩ :=
    h.leaf hg hwaits ha (by rw [hschema]; rfl)
  obtain ⟨d, hadded, rfl⟩ := map_attempt_ok hrun
  obtain ⟨entry, hdescriptor, -, hannounced⟩ :=
    addSchema_entry (s := { s.scope with source := source₁ }) hsound.shared hopen hid hadded
  have hannounced : Changed id (announce · entry d) s.scope s₁.scope := hannounced
  have hself := hannounced.self hid
  -- the dot changes nothing
  obtain ⟨s₂, hsecond, hway₂, hwaits₂, hscope⟩ := hway₁.terminal hg hwaits₁ hb (by rw [hdot]; rfl)
  -- the name is that of the table which waits
  obtain ⟨s₃, p, source₃, hthird, hway₃, -, hnamed, hrun⟩ :=
    hway₂.leaf hg hwaits₂ hc (by rw [htail]; rfl)
  obtain ⟨d', htaken, rfl⟩ := map_attempt_ok hrun
  have hwaiting := addTable_waiting (s := { s₂.scope with source := source₃ }) (d := d)
    job.objects (hscope ▸ hannounced.stack_eq.trans hopen)
    (hscope ▸ congrArg Segment.pending hself)
  obtain ⟨rfl, hscope₃⟩ := EStateM.Result.ok.inj (hwaiting.symm.trans htaken)
  obtain ⟨left, hcompletes⟩ := hway₃.completes
  refine ⟨d, hpayload, hnamed, .intro hreached hfirst hsecond hthird hcompletes hopen ?_
    hdescriptor (fun k hk => hannounced.other hk) fun k => ?_⟩
  · rw [hself]
    exact announce_sources _ entry d
  · have htables := handedOut_tables id ({ s₂.scope with source := source₃ }) k
    rw [hscope₃, hscope] at htables
    exact congrArg Tables.sources htables

/-! ### Texts -/

/-- The node of a schema is written as the schema of its source. -/
theorem render_schema (hg : IsCore g) (ht : t.Derives g []) (hn : t.nodes[i]? = some n)
    (hsymbol : n.symbol = ⟨"schema_ref"⟩) {d : SourceDescriptor}
    (hpayload : n.payload = some (.source d)) (levels : Nat) (s : Scope ρ) :
    Rendering.render g t u (levels + 1) i s = .ok d.writtenSchema s := by
  have hexp := hg.isExpanded ht hn (hsymbol ▸ List.cons_ne_nil _ _)
  obtain ⟨right, generator, representer, hmem, htakes⟩ := hg.takes ht hn hexp
  rw [hsymbol] at hmem
  cases List.mem_singleton.mp hmem
  rw [render_expanded hn hexp htakes.representer]
  simp only [represent, hpayload]
  rfl

theorem plain_dot {built : Grammar} {weights : List Int} {requirePositive : Bool}
    (hbuild : selectCore.build = .ok built)
    (hweights : built.setWeights weights requirePositive = .ok g) :
    (g.textOf ⟨"."⟩).plain = "." := by
  obtain ⟨read, -, -, rfl⟩ := Grammar.setWeights_ok hweights
  have htexts := Definition.texts_build hbuild
  rw [Grammar.textOf, show (built.replaceWeights read).texts = built.texts from rfl, htexts]
  decide

theorem qualified_right {name : String} {alternative : Alternative}
    (hmem : alternative ∈ alternatives name)
    (h : alternative.1 = ["schema_ref", ".", "table_tail"]) :
    alternative.2 = (none, .tightBinary) := by
  revert h
  exact forall_alternatives (P := fun _ alternative =>
    alternative.1 = ["schema_ref", ".", "table_tail"] → alternative.2 = (none, .tightBinary))
    (by decide) hmem

theorem joinStripped_three (x y z : String) :
    joinStripped [x, y, z] = Text.strip x ++ Text.strip y ++ Text.strip z := by
  simp [joinStripped, String.join]

/-- The children are written without the space around them, one after the other. -/
theorem render_tight {a b c : Nat} {x y z : String} {s : Scope ρ} {levels : Nat}
    (hn : t.nodes[i]? = some n) (hexp : n.isExpanded = true) (hchildren : n.children = [a, b, c])
    (htight : Representer.resolve n.representer = .ok .tightBinary)
    (ha : Rendering.render g t u levels a s = .ok x s)
    (hb : Rendering.render g t u levels b s = .ok y s)
    (hc : Rendering.render g t u levels c s = .ok z s) :
    Rendering.render g t u (levels + 1) i s =
      .ok (Text.strip x ++ Text.strip y ++ Text.strip z) s := by
  have hall : n.children.mapM (Rendering.render g t u levels) s = .ok [x, y, z] s := by
    rw [hchildren, mapM_cons_result, ha]
    dsimp only
    rw [mapM_cons_result, hb]
    dsimp only
    rw [mapM_cons_result, hc]
    rfl
  rw [render_expanded hn hexp htight, ← joinStripped_three]
  simp only [represent]
  change EStateM.map joinStripped _ s = _
  rw [EStateM.map, hall]

/-- The node is written as the schema and the name of one source, which was registered once. -/
structure WritesOneTable (job : Job) (start r : Growth ρ) (i : Nat) (n : Node) : Prop where
  written : ∃ schema dot tail d, n.children = [schema, dot, tail] ∧
    RegistersOnce job start r schema dot tail d ∧
    ∀ (levels : Nat) (s : Scope ρ),
      Rendering.render job.grammar r.tree job.objects (levels + 2) i s =
        .ok (Text.strip d.writtenSchema ++ "." ++ Text.strip d.name) s

theorem writesOneTable {built : Grammar} {weights : List Int}
    (hbuild : selectCore.build = .ok built)
    (hweights : built.setWeights weights true = .ok job.grammar)
    (hrun : run job turns (.start ⟨"sql_statement"⟩ source) = (none, r))
    (hn : r.tree.nodes[i]? = some n)
    (hchildren : List.Forall₂ (fun c name => ∃ m, r.tree.nodes[c]? = some m ∧ m.symbol = ⟨name⟩)
      n.children ["schema_ref", ".", "table_tail"]) :
    WritesOneTable job (.start ⟨"sql_statement"⟩ source) r i n := by
  have hg := isCore_of_setWeights hbuild hweights
  have hfinished : Finished job source r := finished_of_run hg hrun
  have ht := hfinished.derives
  obtain ⟨schema, l, ⟨a, ha, hschema⟩, hl, hparts⟩ := List.forall₂_cons_right_iff.mp hchildren
  obtain ⟨dot, l', ⟨b, hb, hdot⟩, hl', rfl⟩ := List.forall₂_cons_right_iff.mp hl
  obtain ⟨tail, l'', ⟨c, hc, htail⟩, hnil, rfl⟩ := List.forall₂_cons_right_iff.mp hl'
  cases hnil
  have hexp : n.isExpanded = true := by
    by_contra hno
    rw [Bool.not_eq_true] at hno
    rw [(ht.bare i n hn hno).1] at hparts
    cases hparts
  obtain ⟨s, pending, hway, hwaits⟩ := exists_expanded hg hrun hn hexp
  rw [hparts] at hwaits
  obtain ⟨d, hpayload, hnamed, honce⟩ :=
    hway.registersOnce hg hwaits ha hschema hb hdot hc htail
  refine ⟨schema, dot, tail, d, hparts, honce, fun levels s => ?_⟩
  -- the children tell the rule
  obtain ⟨right, generator, representer, hmem, htakes⟩ := hg.takes ht hn hexp
  have hunique : Relator.RightUnique fun (c : Nat) (name : String) =>
      ∃ m, r.tree.nodes[c]? = some m ∧ m.symbol = ⟨name⟩ := by
    rintro c name name' ⟨m, hm, hsymbol⟩ ⟨m', hm', hsymbol'⟩
    cases hm.symm.trans hm'
    exact congrArg Symbol.name (hsymbol.symm.trans hsymbol')
  have hright : right = ["schema_ref", ".", "table_tail"] := hunique.forall₂
    (htakes.children.imp fun _ _ ⟨m, hm, hsymbol, _⟩ => ⟨m, hm, hsymbol⟩) hchildren
  subst hright
  cases qualified_right hmem rfl
  have hmark : Rendering.render job.grammar r.tree job.objects (levels + 1) dot s = .ok "." s := by
    have hunexp : b.isExpanded = false := by
      rw [← ht.isNonterminal_eq hg.grouped hb, hdot]
      exact Bool.eq_false_iff.mpr fun h => hg.isNonterminal_iff.mp h rfl
    rw [render_terminal hb hunexp, hdot, plain_dot hbuild hweights]
  refine (render_tight hn hexp hparts htakes.representer
    (render_schema hg ht ha hschema hpayload levels s) hmark
    (render_registered hg ht hc (.inr htail) hnamed levels s)).trans ?_
  rw [show Text.strip "." = "." by decide]

/-- The next table of a segment after a schema is the one that the schema announced, whatever
happens elsewhere in the meantime, and nothing is registered for it; no request leaves the schema
flag behind unless it is the one that sets it. So a table that is written after its schema in a
complete statement is one source. -/
theorem schema_belongs_to_table (u : Universe) :
    (∀ (s : Scope ρ) (id : SegmentId) (rest : List SegmentId), Grounded s →
      s.catalog.stack = id :: rest → ∃ d s', addSchema u s = .ok d s' ∧
        (s'.catalog.segment id).hasFlag Segment.schemaFlag = false ∧ Awaits u id d s') ∧
    (∀ (s : Scope ρ) (request : Request) (id : SegmentId),
      (∀ k, request ≠ .call (.on k (.setFlag Segment.schemaFlag))) →
      (s.catalog.segment id).hasFlag Segment.schemaFlag = false →
        ((follow u s request).catalog.segment id).hasFlag Segment.schemaFlag = false) ∧
    ∀ (built g : Grammar) (weights : List Int) (limit : Int) (watch : Watch) (turns : Nat)
      (source : ρ) (r : Growth ρ) (i : Nat) (n : Node), selectCore.build = .ok built →
      built.setWeights weights true = .ok g →
      run ⟨g, u, limit, watch⟩ turns (.start ⟨"sql_statement"⟩ source) = (none, r) →
      r.tree.nodes[i]? = some n →
      List.Forall₂ (fun c name => ∃ m, r.tree.nodes[c]? = some m ∧ m.symbol = ⟨name⟩)
        n.children ["schema_ref", ".", "table_tail"] →
      WritesOneTable ⟨g, u, limit, watch⟩ (.start ⟨"sql_statement"⟩ source) r i n := by
  refine ⟨fun s id rest hs hstack => ?_, fun s request id hset hnone => ?_,
    fun built g weights limit watch turns source r i n hbuild hweights hrun hn hchildren =>
      writesOneTable hbuild hweights hrun hn hchildren⟩
  · obtain ⟨d, s', hrun, hannounced⟩ := addSchema_announced u hstack
    have hid := hs id (hstack ▸ List.mem_cons_self)
    exact ⟨d, s', hrun, hannounced.unflagged, awaits_of_pending (hannounced.waits hid)⟩
  · rw [Bool.eq_false_iff] at hnone ⊢
    exact fun hflag => hnone (schemaFlag_follow hset hflag)

/-- The block of a statement. -/
def outermost : Scope Script := (push ⟨.empty, ⟨[]⟩⟩).2

/-- A nested block with a qualified table of its own. -/
def interruption : List Request := [.call .push, .call .addSchema, .call .addTable, .call .pop]

/-- A reference before a table with its schema. -/
def qualifying : List Nat := [0, 0, 0, 0, 0, 0, 0, 0, 1]

theorem exists_qualified : ∃ built g r n, selectCore.build = .ok built ∧
    built.setWeights (List.replicate built.table.size 1) true = .ok g ∧
    scripted g likeBlock qualifying = (none, r) ∧ r.tree.nodes[13]? = some n ∧
    List.Forall₂ (fun c name => ∃ m, r.tree.nodes[c]? = some m ∧ m.symbol = ⟨name⟩)
      n.children ["schema_ref", ".", "table_tail"] := by
  have hall : evenly selectCore.build (fun g => decide (
      (scripted g likeBlock qualifying).1 = none ∧
      (scripted g likeBlock qualifying).2.tree.nodes[13]?.map Node.children = some [14, 15, 16] ∧
      (scripted g likeBlock qualifying).2.tree.nodes[14]?.map Node.symbol = some ⟨"schema_ref"⟩ ∧
      (scripted g likeBlock qualifying).2.tree.nodes[15]?.map Node.symbol = some ⟨"."⟩ ∧
      (scripted g likeBlock qualifying).2.tree.nodes[16]?.map Node.symbol =
        some ⟨"table_tail"⟩)) = true := by
    decide +kernel
  obtain ⟨built, g, hbuild, hweights, htest⟩ := exists_of_evenly hall
  obtain ⟨hcomplete, hchildren, hschema, hdot, htail⟩ := of_decide_eq_true htest
  obtain ⟨n, hn, hparts⟩ := Option.map_eq_some_iff.mp hchildren
  refine ⟨built, g, _, n, hbuild, hweights, Prod.ext hcomplete rfl, hn, ?_⟩
  rw [hparts]
  exact .cons (Option.map_eq_some_iff.mp hschema) (.cons (Option.map_eq_some_iff.mp hdot)
    (.cons (Option.map_eq_some_iff.mp htail) .nil))

/-- The block is nested between a schema and its table; and in a statement a table is written after
its schema. -/
theorem schema_belongs_to_table_interrupted : ∃ d s' built g r n,
    addSchema likeBlock outermost = .ok d s' ∧
    addTable likeBlock (interruption.foldl (follow likeBlock) s') =
      .ok d (handedOut 0 (interruption.foldl (follow likeBlock) s')) ∧
    ((follow likeBlock outermost (.call .addTable)).catalog.segment 0).hasFlag
      Segment.schemaFlag = false ∧
    selectCore.build = .ok built ∧
    built.setWeights (List.replicate built.table.size 1) true = .ok g ∧
    scripted g likeBlock qualifying = (none, r) ∧ r.tree.nodes[13]? = some n ∧
    WritesOneTable ⟨g, likeBlock, 60, ⟨false, false, false⟩⟩
      (.start ⟨"sql_statement"⟩ ⟨qualifying⟩) r 13 n := by
  obtain ⟨hannounces, hflags, hwrites⟩ := schema_belongs_to_table (ρ := Script) likeBlock
  have hgrounded : Grounded outermost := fun id hid => by
    cases List.mem_singleton.mp hid
    exact Nat.one_pos
  obtain ⟨d, s', hrun, -, hawaits⟩ := hannounces outermost 0 [] hgrounded rfl
  obtain rfl : after (addSchema likeBlock) outermost = s' := after_ok hrun
  have hspares :
      Spares likeBlock 0 (after (addSchema likeBlock) outermost) interruption := by
    refine ⟨?_, fun _ => by decide +kernel, fun _ => by decide +kernel, ?_, trivial⟩ <;>
      rintro (h | h) <;> cases h
  have hstack : (interruption.foldl (follow likeBlock)
      (after (addSchema likeBlock) outermost)).catalog.stack = [0] := by decide +kernel
  obtain ⟨built, g, r, n, hbuild, hweights, hr, hn, hchildren⟩ := exists_qualified
  exact ⟨d, _, built, g, r, n, hrun, hawaits interruption [] hspares hstack,
    hflags outermost (.call .addTable) 0 (by rintro k h; cases h) rfl, hbuild, hweights, hr, hn,
    hwrites built g _ 60 _ 60 ⟨qualifying⟩ r 13 n hbuild hweights hr hn hchildren⟩

end SelectCore

end ProbeForge
