import ProbeForge.Proofs.SelectCore.Bracketing
import ProbeForge.Proofs.SelectCore.References

/-!
# Qualifiers

Which item of the FROM clause a qualifier names. A qualifier is the name under which a source was
registered. A table without an alias is written with its own name, so it is out of reach if that
name was taken when it was registered, and two items that are written with one name cannot be told
apart. Otherwise the qualifier leads to the item that the column is from.
-/

namespace ProbeForge

namespace Tree

variable (t : Tree)

/-- The node that writes the name of an object: the table after its schema if there is one. -/
def objectNode (i : Nat) : Nat :=
  match t.childrenOf i with
  | [_, _, tail] => tail
  | _ => i

/-- The node that writes the name under which an item is seen. -/
def nameNode? (i : Nat) : Option Nat :=
  match t.childrenOf i with
  | [source] => some (t.objectNode source)
  | [_, written] => some written
  | _ => none

/-- The items of the FROM clause of a block. -/
structure HasItem (b i : Nat) : Prop where
  inside : t.Inside b i
  item : t.IsItem i

/-- The items that are registered under the name are seen under it, and it is seen once. -/
structure Clear (b : Nat) (name : String) : Prop where
  seen : ∀ i, t.HasItem b i → t.registeredName? i = some name → t.visibleName? i = some name
  once : ∀ i k, t.HasItem b i → t.HasItem b k → t.visibleName? i = some name →
    t.visibleName? k = some name → i = k

end Tree

namespace SelectCore

open Grammars Scope Rendering

variable {ρ : Type} [RandomSource ρ] {g : Grammar} {t : Tree} {u : Universe}
  {levels i j : Nat} {done : List Nat} {m n : Node} {s : Scope ρ}

/-! ### Written names -/

variable (g t u) in
/-- The item is seen under the name, and one of its nodes writes this name. -/
structure Shows (i : Nat) (name : String) : Prop where
  visible : t.visibleName? i = some name
  written : ∃ c ∈ t.nameNode? i, ∀ {ρ : Type} [RandomSource ρ] (levels : Nat) (s : Scope ρ),
    Rendering.render g t u (levels + 1) c s = .ok name s

/-- Where the object of a node is found. -/
theorem source?_cases {d : SourceDescriptor} (hn : t.nodes[i]? = some n)
    (h : t.source? i = some d) : n.payload = some (.source d) ∨
      ∃ schema dot tail, n.children = [schema, dot, tail] ∧
        t.nodes[tail]?.bind (·.payload) = some (.source d) := by
  obtain ⟨symbol, parent, children, payload, segment, ruleName, representer⟩ := n
  unfold Tree.source? at h
  rw [hn] at h
  split at h
  case h_1 heq =>
    cases heq
    exact .inl (congrArg (some ∘ Payload.source) (Option.some.inj h))
  case h_2 heq =>
    cases heq
    split at h
    case h_1 hpayload =>
      cases h
      exact .inr ⟨_, _, _, rfl, hpayload⟩
    case h_2 => cases h
  case h_3 => cases h

/-- A node that registers a table is written as the name of the table. -/
theorem render_registered (hg : IsCore g) (ht : t.Derives g []) (hn : t.nodes[i]? = some n)
    (hsymbol : n.symbol = ⟨"table_ref"⟩ ∨ n.symbol = ⟨"table_tail"⟩) {d : SourceDescriptor}
    (hpayload : n.payload = some (.source d)) (levels : Nat) (s : Scope ρ) :
    Rendering.render g t u (levels + 1) i s = .ok d.name s := by
  have hexp := hg.isExpanded ht hn (by rcases hsymbol with h | h <;> rw [h] <;> decide)
  obtain ⟨right, generator, representer, hmem, htakes⟩ := hg.takes ht hn hexp
  have hgenerator : generator ≠ none := by
    rintro rfl
    have hnone : n.payload = none := htakes.holds.1
    rw [hnone] at hpayload
    cases hpayload
  have hname : representer = .payloadName := by
    rcases hsymbol with h | h <;> rw [h] at hmem
    · rcases List.mem_cons.mp hmem with hplain | hqualified
      · cases hplain
        rfl
      · cases List.mem_singleton.mp hqualified
        exact absurd rfl hgenerator
    · cases List.mem_singleton.mp hmem
      rfl
  rw [render_expanded hn hexp htakes.representer, hname]
  simp only [represent, hpayload]
  rfl

theorem render_object (hg : IsCore g) (ht : t.Derives g []) (hn : t.nodes[i]? = some n)
    (hsymbol : n.symbol = ⟨"table_ref"⟩) {d : SourceDescriptor} (h : t.source? i = some d)
    (levels : Nat) (s : Scope ρ) :
    Rendering.render g t u (levels + 1) (t.objectNode i) s = .ok d.name s := by
  have hexp := hg.isExpanded ht hn (hsymbol ▸ List.cons_ne_nil _ _)
  obtain ⟨right, generator, representer, hmem, htakes⟩ := hg.takes ht hn hexp
  have hchildren := htakes.children
  rw [hsymbol] at hmem
  unfold Tree.objectNode
  rw [childrenOf_eq hn]
  rcases List.mem_cons.mp hmem with hplain | hqualified
  · -- the table itself
    cases hplain
    have hnil := List.forall₂_nil_right_iff.mp hchildren
    rcases source?_cases hn h with hpayload | ⟨schema, dot, tail, hparts, -⟩
    · rw [hnil]
      exact render_registered hg ht hn (.inl hsymbol) hpayload levels s
    · rw [hnil] at hparts
      cases hparts
  · -- the table after its schema
    cases List.mem_singleton.mp hqualified
    rcases source?_cases hn h with hpayload | ⟨schema, dot, tail, hparts, hpayload⟩
    · have hnone : n.payload = none := htakes.holds.1
      rw [hnone] at hpayload
      cases hpayload
    · rw [hparts] at hchildren ⊢
      obtain ⟨-, -, ⟨m, hm, hmsymbol, -⟩, -⟩ := by
        simpa only [List.forall₂_cons] using hchildren
      rw [hm, Option.bind_some] at hpayload
      exact render_registered hg ht hm (.inr hmsymbol) hpayload levels s

theorem render_alias (hg : IsCore g) (ht : t.Derives g []) (hn : t.nodes[i]? = some n)
    (hsymbol : n.symbol = ⟨"alias_def"⟩) {text : String} (h : t.text? i = some text)
    (levels : Nat) (s : Scope ρ) : Rendering.render g t u (levels + 1) i s = .ok text s := by
  have hexp := hg.isExpanded ht hn (hsymbol ▸ List.cons_ne_nil _ _)
  obtain ⟨right, generator, representer, hmem, htakes⟩ := hg.takes ht hn hexp
  rw [hsymbol] at hmem
  cases List.mem_singleton.mp hmem
  have hpayload : n.payload = some (.text text) := by
    unfold Tree.text? at h
    rw [hn, Option.bind_some] at h
    split at h
    case h_1 hpayload => rw [hpayload, Option.some.inj h]
    case h_2 => cases h
  rw [render_expanded hn hexp htakes.representer]
  simp only [represent, hpayload]
  rfl

/-- What an item is seen under is what it writes. -/
theorem shows_of_visible (hg : IsCore g) (ht : t.Derives g []) (hitem : t.IsItem i)
    {name : String} (h : t.visibleName? i = some name) : Shows g t u i name := by
  refine ⟨h, ?_⟩
  obtain ⟨n, hn, hsymbol⟩ := hitem
  have hexp := hg.isExpanded ht hn (hsymbol ▸ List.cons_ne_nil _ _)
  obtain ⟨right, generator, representer, hmem, htakes⟩ := hg.takes ht hn hexp
  rw [hsymbol] at hmem
  have hchildren := htakes.children
  rcases (item_right hmem).2 with rfl | ⟨origin, -, rfl⟩
  · obtain ⟨c, l, ⟨m, hm, hmsymbol, -⟩, hnil, hparts⟩ := List.forall₂_cons_right_iff.mp hchildren
    cases hnil
    simp only [Tree.visibleName?, childrenOf_eq hn, hparts, Option.map_eq_some_iff] at h
    obtain ⟨d, hsource, rfl⟩ := h
    simp only [Tree.nameNode?, childrenOf_eq hn, hparts]
    exact ⟨_, rfl, render_object hg ht hm hmsymbol hsource⟩
  · obtain ⟨c, l, -, hl, hparts⟩ := List.forall₂_cons_right_iff.mp hchildren
    obtain ⟨w, l', ⟨m, hm, hmsymbol, -⟩, hnil, rfl⟩ := List.forall₂_cons_right_iff.mp hl
    cases hnil
    simp only [Tree.visibleName?, childrenOf_eq hn, hparts] at h
    simp only [Tree.nameNode?, childrenOf_eq hn, hparts]
    exact ⟨_, rfl, render_alias hg ht hm hmsymbol h⟩

/-! ### References and items -/

/-- One item of the block goes by the qualifier: it is the only one that is seen or registered
under it, it writes it, and the column is of the source that it registered. -/
structure Resolves (g : Grammar) (t : Tree) (u : Universe) (c : Catalog) (b : Nat)
    (id : SegmentId) (aliasName column : String) (i : Nat) : Prop where
  item : t.HasItem b i
  shows : Shows g t u i aliasName
  only : ∀ k, t.HasItem b k →
    t.visibleName? k = some aliasName ∨ t.registeredName? k = some aliasName → k = i
  taken : ∃ entry, (c.segment id).sources.find? aliasName = some entry ∧
    Segment.isReferenceable entry = true ∧ t.Provides i entry ∧
    (column ∈ c.columnList entry ∨
      c.columnList entry = [] ∧ ∃ n : Nat, column = s!"UNKNOWN_COLUMN_{n}")

/-- A qualifier names the item that its column is from if and only if its block kept a source that
can be referred to and the qualifier is clear in it. -/
theorem reference_resolves_iff {built : Grammar} {weights : List Int}
    (hbuild : selectCore.build = .ok built) (hweights : built.setWeights weights true = .ok g)
    {limit : Int} {watch : Watch} {source : ρ} {turns : Nat} {r : Growth ρ}
    (hrun : Growth.run ⟨g, u, limit, watch⟩ turns (.start ⟨"sql_statement"⟩ source) = (none, r))
    {levels' : Nat} (hvisits : Visits g r.tree u levels 0 r.scope done (levels' + 1) j s)
    (hm : r.tree.nodes[j]? = some m) (hsymbol : m.symbol = ⟨"column_ref"⟩) :
    ∃ b id aliasName column, Refers g r.tree u levels' j s b id aliasName column ∧
      ((∃ i, Resolves g r.tree u s.catalog b id aliasName column i) ↔
        (r.scope.catalog.segment id).HasSource ∧ r.tree.Clear b aliasName) := by
  have hg := isCore_of_setWeights hbuild hweights
  have hfinished : Finished ⟨g, u, limit, watch⟩ source r := finished_of_run hg hrun
  obtain ⟨b, id, rest, aliasName, column, columns, hat, hrefers, hqualifies, hwrites⟩ :=
    hfinished.refers hg hvisits hm hsymbol
  refine ⟨b, id, aliasName, column, hrefers, ?_, ?_⟩
  · rintro ⟨i, hresolves⟩
    obtain ⟨entry, hfind, href, hprovides, -⟩ := hresolves.taken
    have hname := (hat.calm.keyed id).own aliasName entry hfind
    rw [hat.sources] at hfind
    refine ⟨⟨aliasName, entry, hfind, href⟩, fun k hk hregistered => ?_, fun k k' hk hk' h h' => ?_⟩
    · rw [hresolves.only k hk (.inr hregistered)]
      exact hresolves.shows.visible
    · rw [hresolves.only k hk (.inl h), hresolves.only k' hk' (.inl h')]
  · rintro ⟨hsource, hclear⟩
    obtain ⟨entry, hfind, href, hcolumn, -⟩ :=
      coherent_of_writes hat hm (by rw [hsymbol]; decide) hsource hqualifies hwrites
    have hname := (hat.calm.keyed id).own aliasName entry hfind
    -- the source was registered by an item of the block
    obtain ⟨o, ho, hsegment⟩ := hat.block
    obtain ⟨i, hinside, hitem, hprovides⟩ :=
      hfinished.supplies hg ho hsegment aliasName entry (hat.sources id ▸ hfind) href
    have hi : r.tree.HasItem b i := ⟨hinside, hitem⟩
    have hseen := hclear.seen i hi (hprovides.registered.trans (congrArg some hname))
    refine ⟨i, hi, shows_of_visible hg hfinished.derives hitem hseen, fun k hk hnamed => ?_,
      entry, hfind, href, hprovides, hcolumn⟩
    have hkseen := hnamed.elim (fun h => h) (hclear.seen k hk)
    exact hclear.once k i hk hi hkseen hseen

/-! ### Scenes -/

section Scenes

variable {u : Universe} {draws path : List Nat} {names : List String}
  {items : List (Nat × Option String)} {r : Growth Script}

theorem Scene.visible_mem (h : Scene (scripted g u draws) path names items)
    (hr : scripted g u draws = (none, r)) (hitem : r.tree.IsItem i) :
    (i, r.tree.visibleName? i) ∈ items := by
  obtain ⟨n, hn, hsymbol⟩ := hitem
  have hitems := h.items
  rw [hr] at hitems
  rw [← hitems]
  refine List.mem_map.mpr ⟨i, List.mem_filter.mpr ⟨List.mem_range.mpr (Tree.lt_size hn), ?_⟩, rfl⟩
  simp [hn, hsymbol]

/-- The qualifier of the reference is one of the names that the block kept. -/
theorem Scene.qualifier_mem (h : Scene (scripted g u draws) path names items) (hg : IsCore g)
    (hr : scripted g u draws = (none, r)) {s : Scope Script} {levels' b : Nat} {id : SegmentId}
    {aliasName column : String}
    (hvisits : Visits g r.tree u levels 0 r.scope done (levels' + 1) (path.getLastD 0) s)
    (hm : r.tree.nodes[path.getLastD 0]? = some m) (hsymbol : m.symbol = ⟨"column_ref"⟩)
    (hrefers : Refers g r.tree u levels' (path.getLastD 0) s b id aliasName column)
    (hnames : names ≠ []) : (r.scope.catalog.segment id).HasSource ∧ aliasName ∈ names := by
  have hfinished : Finished ⟨g, u, 60, ⟨false, false, false⟩⟩ ⟨draws⟩ r := finished_of_run hg hr
  have hkept := h.names
  rw [hr] at hkept
  obtain ⟨name, hname⟩ := List.exists_mem_of_ne_nil _ hnames
  obtain ⟨kept, hkeptfind⟩ := Segment.mem_names.mp (hkept ▸ hname)
  cases h.refers hr hfinished.derives hrefers
  refine ⟨⟨name, kept, hkeptfind⟩, ?_⟩
  obtain ⟨b', id', rest, aliasName', column', columns, hat, hrefers', hqualifies, hwrites⟩ :=
    hfinished.refers hg hvisits hm hsymbol
  cases h.refers hr hfinished.derives hrefers'
  obtain ⟨entry, hfind, href, -⟩ :=
    coherent_of_writes hat hm (by rw [hsymbol]; decide) ⟨name, kept, hkeptfind⟩ hqualifies hwrites
  -- a turn writes one qualifier
  obtain ⟨s₁, -, hwritten, -⟩ := hrefers.written
  obtain ⟨s₁', -, hwritten', -⟩ := hrefers'.written
  cases hwritten.symm.trans hwritten'
  exact hkept ▸ Segment.mem_names.mpr ⟨entry, hat.sources 0 ▸ hfind, href⟩

end Scenes

/-- In a block with one table the qualifier names it. -/
theorem reference_resolves : ∃ built g r done s levels m b id aliasName column,
    selectCore.build = .ok built ∧
    built.setWeights (List.replicate built.table.size 1) true = .ok g ∧
    scripted g likeBlock [] = (none, r) ∧
    Visits g r.tree likeBlock Rendering.levels 0 r.scope done (levels + 1) 11 s ∧
    r.tree.nodes[11]? = some m ∧ m.symbol = ⟨"column_ref"⟩ ∧
    Refers g r.tree likeBlock levels 11 s b id aliasName column ∧
    ∃ i, Resolves g r.tree likeBlock s.catalog b id aliasName column i := by
  obtain ⟨built, g, hbuild, hweights, hscene, -⟩ := exists_scenes
  obtain ⟨r, done, s, m, hr, hvisits, hm, hsymbol⟩ := hscene.turn 244
  obtain ⟨b, id, aliasName, column, hrefers, hiff⟩ :=
    reference_resolves_iff hbuild hweights hr hvisits hm hsymbol
  obtain ⟨hsource, hname⟩ := hscene.qualifier_mem (isCore_of_setWeights hbuild hweights) hr
    hvisits hm hsymbol hrefers (List.cons_ne_nil _ _)
  cases List.mem_singleton.mp hname
  have honly : ∀ i, r.tree.HasItem b i → i = 12 ∧ r.tree.visibleName? i = some "QB2" :=
    fun i hi => Prod.ext_iff.mp (List.mem_singleton.mp (hscene.visible_mem hr hi.item))
  refine ⟨built, g, r, done, s, 244, m, b, id, "QB2", column, hbuild, hweights, hr, hvisits, hm,
    hsymbol, hrefers, hiff.mpr ⟨hsource, fun i hi _ => (honly i hi).2, fun i k hi hk _ _ => ?_⟩⟩
  rw [(honly i hi).1, (honly k hk).1]

/-- A small tree without stubs is rendered. -/
theorem Finished.renders {job : Job} {source : ρ} {r : Growth ρ} (hg : IsCore job.grammar)
    (h : Finished job source r) (hsmall : r.tree.size ≤ Rendering.levels)
    (hstubless : ∀ n ∈ r.tree.nodes, n.symbol ≠ ⟨"set_operation"⟩) :
    ∃ text s, Rendering.render job.grammar r.tree job.objects Rendering.levels 0 r.scope =
      .ok text s := by
  cases hrender : Rendering.render job.grammar r.tree job.objects Rendering.levels 0 r.scope with
  | ok text s => exact ⟨text, s, rfl⟩
  | error halt s =>
    rcases render_accounts hg h hrender with ⟨-, j, hdeep⟩ | ⟨-, j, n, hn, hsymbol, -⟩
    · obtain ⟨n, -, hn, -⟩ := h.root
      have hroot := Tree.lt_size hn
      obtain ⟨d, hd, hpath⟩ := (Tree.mem_walk h.derives hroot).mp hdeep
      have hle := hpath.le h.derives
      have hlt := hpath.lt_size h.derives hroot
      omega
    · exact absurd hsymbol (hstubless n (Array.mem_of_getElem? hn))

/-- A sequence takes the name of a table: the table is registered under another name, but the
statement, which is rendered, has it under its own. -/
theorem reference_not_resolves : ∃ built g r done s levels m b id aliasName column text s',
    selectCore.build = .ok built ∧
    built.setWeights (List.replicate built.table.size 1) true = .ok g ∧
    scripted g namesakes crowding = (none, r) ∧
    Rendering.render g r.tree namesakes Rendering.levels 0 r.scope = .ok text s' ∧
    Visits g r.tree namesakes Rendering.levels 0 r.scope done (levels + 1) 14 s ∧
    r.tree.nodes[14]? = some m ∧ m.symbol = ⟨"column_ref"⟩ ∧
    Refers g r.tree namesakes levels 14 s b id aliasName column ∧
    ∀ i, r.tree.HasItem b i → r.tree.visibleName? i ≠ some aliasName := by
  obtain ⟨built, g, hbuild, hweights, -, -, hscene⟩ := exists_scenes
  obtain ⟨r, done, s, m, hr, hvisits, hm, hsymbol⟩ := hscene.turn 243
  have hg := isCore_of_setWeights hbuild hweights
  have hfinished : Finished ⟨g, namesakes, 60, ⟨false, false, false⟩⟩ ⟨crowding⟩ r :=
    finished_of_run hg hr
  have hsmall := hscene.small
  have hstubless := hscene.stubless
  rw [hr] at hsmall hstubless
  obtain ⟨text, s', hrender⟩ := hfinished.renders hg hsmall hstubless
  obtain ⟨b, id, -, aliasName, column, -, -, hrefers, -, -⟩ :=
    hfinished.refers hg hvisits hm hsymbol
  obtain ⟨-, hname⟩ :=
    hscene.qualifier_mem hg hr hvisits hm hsymbol hrefers (List.cons_ne_nil _ _)
  cases List.mem_singleton.mp hname
  refine ⟨built, g, r, done, s, 243, m, b, id, "t_1", column, text, s', hbuild, hweights, hr,
    hrender, hvisits, hm, hsymbol, hrefers, fun i hi => ?_⟩
  have hseen := List.mem_singleton.mp (hscene.visible_mem hr hi.item)
  rw [show r.tree.visibleName? i = some "t" from congrArg Prod.snd hseen]
  decide

end SelectCore

end ProbeForge
