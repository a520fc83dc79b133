import ProbeForge.Proofs.SelectCore.Places

/-!
# Column references

What a column reference names. Its qualifier is a source that can be referred to and its column is
one of that source as long as the block still has such a source when the growth is complete. A block
can lose its last one: a block that is opened inside it is registered under its own name, and a
table of that name gives way.
-/

namespace ProbeForge

namespace Segment

/-- There is a source that a reference can take. -/
def HasSource (segment : Segment) : Prop :=
  ∃ key entry, segment.sources.find? key = some entry ∧ isReferenceable entry = true

/-- The keys of these sources. -/
def names (segment : Segment) : List String :=
  segment.sources.keys.filter fun key => (segment.sources.find? key).any isReferenceable

theorem mem_names {segment : Segment} {key : String} : key ∈ segment.names ↔
    ∃ entry, segment.sources.find? key = some entry ∧ isReferenceable entry = true := by
  rw [names, List.mem_filter, Option.any_eq_true]
  refine ⟨And.right, fun h => ⟨?_, h⟩⟩
  obtain ⟨entry, hfind, -⟩ := h
  exact List.mem_map_of_mem (OrderedMap.mem_of_find? hfind)

end Segment

namespace SelectCore

open Grammars Scope Rendering

variable {ρ : Type} [RandomSource ρ] {g : Grammar} {t : Tree} {u : Universe} {levels j : Nat}
  {done : List Nat} {m : Node} {s : Scope ρ}

/-- The reference that the node `j` writes in the block of `b` when its turn comes. -/
structure Refers (g : Grammar) (t : Tree) (u : Universe) (levels j : Nat) (s : Scope ρ) (b : Nat)
    (id : SegmentId) (aliasName column : String) : Prop where
  block : ∃ n, t.nodes[b]? = some n ∧ n.segment = some id
  inside : t.Inside b j
  current : ∃ rest, s.catalog.stack = id :: rest
  written : ∃ s₁ s', chooseAlias s = .ok aliasName s₁ ∧ chooseColumn s₁ = .ok column s' ∧
    Rendering.render g t u (levels + 1) j s = .ok (aliasName ++ "." ++ column) s'

/-- The qualifier is the key of a source that can be referred to, and the column is in its list; a
source without columns has a placeholder. An inline view is finished, and its column is an output
that it wrote once. -/
def Coherent (t : Tree) (done : List Nat) (c : Catalog) (id : SegmentId)
    (aliasName column : String) : Prop :=
  ∃ entry, (c.segment id).sources.find? aliasName = some entry ∧
    Segment.isReferenceable entry = true ∧
    (column ∈ c.columnList entry ∨
      c.columnList entry = [] ∧ ∃ n : Nat, column = s!"UNKNOWN_COLUMN_{n}") ∧
    ∀ k, entry.columns = .exportsOf k → (∃ i ∈ done, t.Opens i k) ∧
      (column ∈ c.columnList entry → (c.segment k).exports.count column = 1)

omit [RandomSource ρ] in
/-- A reference to a source of the block is coherent. -/
theorem coherent_of_writes {c : Catalog} {size b : Nat} {id : SegmentId} {rest : List SegmentId}
    {aliasName column : String} {columns : OrderedMap String (OrderedMap String String)}
    (hat : At t c size b id rest done j s) (hm : t.nodes[j]? = some m)
    (hclause : m.symbol.name ∈ clauses) (hsource : (c.segment id).HasSource)
    (hqualifies : Qualifies s.catalog id aliasName)
    (hwrites : Writes s.catalog id aliasName column columns) :
    Coherent t done s.catalog id aliasName column := by
  obtain ⟨hsettled, hfinished, hlisted⟩ := hat.clause m hm hclause
  cases hqualifies with
  | madeUp none minted =>
    obtain ⟨key, entry, hfind, href⟩ := hsource
    rw [← hat.sources] at hfind
    rw [none (key, entry) (OrderedMap.mem_of_find? hfind)] at href
    cases href
  | @source key entry found referenceable named =>
    cases named.trans ((hat.calm.keyed id).own key entry found)
    -- what was picked before was listed, since the views of the block are finished
    have hcolumn : column ∈ s.catalog.columnList entry ∨
        s.catalog.columnList entry = [] ∧ ∃ n : Nat, column = s!"UNKNOWN_COLUMN_{n}" := by
      cases hwrites with
      | reused picked same => exact .inl (hlisted column aliasName entry picked found referenceable)
      | unknown missing same => exact absurd (missing.symm.trans found) (by simp)
      | @placeholder entry' n found' bare minted same =>
        cases found.symm.trans found'
        exact .inr ⟨bare, n, minted⟩
      | listed found' mem picks =>
        cases found.symm.trans found'
        exact .inl mem
    refine ⟨entry, found, referenceable, hcolumn, fun k hk => ?_⟩
    refine ⟨hfinished aliasName entry k found referenceable hk, fun hmem => ?_⟩
    unfold Catalog.columnList at hmem
    rw [hk] at hmem
    exact of_decide_eq_true (List.mem_filter.mp hmem).2

/-- What a reference takes from its block. -/
theorem refers_of_at (u : Universe) (levels : Nat) (hg : IsCore g) (ht : t.Derives g [])
    {c : Catalog} {size b : Nat} {id : SegmentId} {rest : List SegmentId}
    (hat : At t c size b id rest done j s) (hm : t.nodes[j]? = some m)
    (hsymbol : m.symbol = ⟨"column_ref"⟩) :
    ∃ aliasName column columns, Refers g t u levels j s b id aliasName column ∧
      Qualifies s.catalog id aliasName ∧ Writes s.catalog id aliasName column columns := by
  have hexp := hg.isExpanded ht hm (hsymbol ▸ List.cons_ne_nil _ _)
  obtain ⟨right, generator, representer, hmem, htakes⟩ := hg.takes ht hm hexp
  cases (columnRef_iff hmem).mpr (congrArg Symbol.name hsymbol)
  obtain ⟨aliasName, column, columns, s₁, s', halias, hcolumn, hrun, -, hqualifies, hwrites⟩ :=
    columnRef_spec (t := t) (u := u) (n := m) hat.calm hat.stack hat.bound
  refine ⟨aliasName, column, columns, ⟨hat.block, hat.inside, ⟨rest, hat.stack⟩, s₁, s', halias,
    hcolumn, ?_⟩, hqualifies, hwrites⟩
  rw [render_expanded hm hexp htakes.representer]
  exact hrun

/-- Every reference of a complete growth is a reference of some block. -/
theorem Finished.refers {job : Job} {source : ρ} {r : Growth ρ} (hg : IsCore job.grammar)
    (h : Finished job source r) {levels' : Nat}
    (hvisits : Visits job.grammar r.tree job.objects levels 0 r.scope done (levels' + 1) j s)
    (hm : r.tree.nodes[j]? = some m) (hsymbol : m.symbol = ⟨"column_ref"⟩) :
    ∃ b id rest aliasName column columns,
      At r.tree r.scope.catalog r.scope.catalog.segments.size b id rest done j s ∧
      Refers job.grammar r.tree job.objects levels' j s b id aliasName column ∧
      Qualifies s.catalog id aliasName ∧ Writes s.catalog id aliasName column columns := by
  obtain ⟨b, id, rest, hat⟩ := h.visits hg hvisits hm (by rw [hsymbol]; decide)
  obtain ⟨aliasName, column, columns, hrefers, hqualifies, hwrites⟩ :=
    refers_of_at job.objects levels' hg h.derives hat hm hsymbol
  exact ⟨b, id, rest, aliasName, column, columns, hat, hrefers, hqualifies, hwrites⟩

/-! ### Growths with given draws -/

/-- Draws that are given beforehand, and zeros after them. -/
structure Script where
  draws : List Nat

instance : RandomSource Script where
  seeded _ := ⟨[]⟩
  below n script :=
    (⟨script.draws.headD 0 % (n + 1), Nat.mod_lt _ (Nat.succ_pos n)⟩, ⟨script.draws.tail⟩)
  unit script := (0, script)
  normal script := (0, script)

def scripted (g : Grammar) (u : Universe) (draws : List Nat) : Option Halt × Growth Script :=
  Growth.run ⟨g, u, 60, ⟨false, false, false⟩⟩ 60 (.start ⟨"sql_statement"⟩ ⟨draws⟩)

/-- A complete growth that can be rendered, with a way to a reference of the outermost block, the
names of the sources that this block kept, and all items. -/
structure Scene (growth : Option Halt × Growth Script) (path : List Nat) (names : List String)
    (items : List (Nat × Option String)) : Prop where
  complete : growth.1 = none
  small : growth.2.tree.size ≤ Rendering.levels
  stubless : ∀ n ∈ growth.2.tree.nodes, n.symbol ≠ ⟨"set_operation"⟩
  leads : leads growth.2.tree (0 :: path) = true
  reference : growth.2.tree.nodes[path.getLastD 0]?.map (·.symbol) = some ⟨"column_ref"⟩
  outermost : ∀ i ∈ List.range (path.getLastD 0), ∀ n ∈ growth.2.tree.nodes[i]?,
    n.segment = none ∨ n.segment = some 0
  names : (growth.2.scope.catalog.segment 0).names = names
  items : ((List.range growth.2.tree.size).filter fun i =>
    growth.2.tree.nodes[i]?.map (·.symbol) = some ⟨"from_item"⟩).map
      (fun i => (i, growth.2.tree.visibleName? i)) = items

instance (growth : Option Halt × Growth Script) (path : List Nat) (names : List String)
    (items : List (Nat × Option String)) : Decidable (Scene growth path names items) :=
  decidable_of_iff (_ ∧ _ ∧ _ ∧ _ ∧ _ ∧ _ ∧ _ ∧ _)
    ⟨fun ⟨complete, small, stubless, leads, reference, outermost, names, items⟩ =>
      ⟨complete, small, stubless, leads, reference, outermost, names, items⟩,
    fun ⟨complete, small, stubless, leads, reference, outermost, names, items⟩ =>
      ⟨complete, small, stubless, leads, reference, outermost, names, items⟩⟩

/-- A table that goes by the name of a block. -/
def likeBlock : Universe := (Universe.empty.add (.named "QB2" .table (some "s") ["a"])).2

/-- A table and a sequence of one name. -/
def namesakes : Universe :=
  ((Universe.empty.add (.named "t" .table (some "s") ["a"])).2.add
    (.named "t" .sequence (some "r") [])).2

/-- A reference before a nested block with the same table. -/
def displacing : List Nat := [0, 0, 0, 0, 0, 0, 0, 0, 0, 0, 1, 1, 0, 2, 0, 3]

/-- A reference and a sequence before the table of that name. -/
def crowding : List Nat := [0, 0, 0, 1, 0, 0, 0, 2, 0, 0]

/-- A test of a built grammar with equal weights. -/
def evenly (outcome : Except Fault Grammar) (test : Grammar → Bool) : Bool :=
  match outcome with
  | .error _ => false
  | .ok built =>
    match built.setWeights (List.replicate built.table.size 1) true with
    | .error _ => false
    | .ok g => test g

theorem exists_of_evenly {outcome : Except Fault Grammar} {test : Grammar → Bool}
    (h : evenly outcome test = true) : ∃ built g, outcome = .ok built ∧
      built.setWeights (List.replicate built.table.size 1) true = .ok g ∧ test g = true := by
  unfold evenly at h
  split at h
  case h_1 => cases h
  case h_2 built =>
    split at h
    case h_1 => cases h
    case h_2 g hweights => exact ⟨built, g, rfl, hweights, h⟩

theorem exists_scenes : ∃ built g, selectCore.build = .ok built ∧
    built.setWeights (List.replicate built.table.size 1) true = .ok g ∧
    Scene (scripted g likeBlock []) [1, 2, 4, 10, 11] ["QB2"] [(12, some "QB2")] ∧
    Scene (scripted g likeBlock displacing) [1, 2, 7, 15, 16, 19, 20] []
      [(12, some "QB2"), (38, some "QB2")] ∧
    Scene (scripted g namesakes crowding) [1, 2, 4, 10, 13, 14] ["t_1"] [(20, some "t")] := by
  have hall : evenly selectCore.build (fun g => decide (
      Scene (scripted g likeBlock []) [1, 2, 4, 10, 11] ["QB2"] [(12, some "QB2")] ∧
      Scene (scripted g likeBlock displacing) [1, 2, 7, 15, 16, 19, 20] []
        [(12, some "QB2"), (38, some "QB2")] ∧
      Scene (scripted g namesakes crowding) [1, 2, 4, 10, 13, 14] ["t_1"]
        [(20, some "t")])) = true := by
    decide +kernel
  obtain ⟨built, g, hbuild, hweights, htest⟩ := exists_of_evenly hall
  exact ⟨built, g, hbuild, hweights, of_decide_eq_true htest⟩

theorem Scene.turn {u : Universe} {draws path : List Nat} {names : List String}
    {items : List (Nat × Option String)} (h : Scene (scripted g u draws) path names items)
    (levels : Nat) : ∃ r done s m, scripted g u draws = (none, r) ∧
      Visits g r.tree u (path.length + (levels + 1)) 0 r.scope done (levels + 1)
        (path.getLastD 0) s ∧
      r.tree.nodes[path.getLastD 0]? = some m ∧ m.symbol = ⟨"column_ref"⟩ := by
  obtain ⟨done, s, hvisits⟩ := visits_of_leads (g := g) (u := u) h.leads levels
    (scripted g u draws).2.scope
  obtain ⟨m, hm, hsymbol⟩ := Option.map_eq_some_iff.mp h.reference
  exact ⟨_, done, s, m, Prod.ext h.complete rfl, hvisits, hm, hsymbol⟩

/-- Only the outermost block begins before the reference. -/
theorem Scene.refers {u : Universe} {draws path : List Nat} {names : List String}
    {items : List (Nat × Option String)} (h : Scene (scripted g u draws) path names items)
    {r : Growth Script} (hr : scripted g u draws = (none, r)) (ht : r.tree.Derives g [])
    {levels b : Nat} {id : SegmentId} {aliasName column : String} {s : Scope Script}
    (hrefers : Refers g r.tree u levels (path.getLastD 0) s b id aliasName column) : id = 0 := by
  obtain ⟨n, hn, hsegment⟩ := hrefers.block
  have hbelow := List.mem_range.mpr (hrefers.inside.lt ht)
  have houtermost := h.outermost b hbelow n
  rw [hr] at houtermost
  rcases houtermost hn with hnone | hzero
  · rw [hnone] at hsegment
    cases hsegment
  · exact Option.some.inj (hsegment.symm.trans hzero)

/-! ### Coherence -/

/-- A reference is coherent if and only if its block kept a source that can be referred to. -/
theorem reference_coherent_iff {built : Grammar} {weights : List Int}
    (hbuild : selectCore.build = .ok built) (hweights : built.setWeights weights true = .ok g)
    {limit : Int} {watch : Watch} {source : ρ} {turns : Nat} {r : Growth ρ}
    (hrun : Growth.run ⟨g, u, limit, watch⟩ turns (.start ⟨"sql_statement"⟩ source) = (none, r))
    {levels' : Nat} (hvisits : Visits g r.tree u levels 0 r.scope done (levels' + 1) j s)
    (hm : r.tree.nodes[j]? = some m) (hsymbol : m.symbol = ⟨"column_ref"⟩) :
    ∃ b id aliasName column, Refers g r.tree u levels' j s b id aliasName column ∧
      (Coherent r.tree done s.catalog id aliasName column ↔
        (r.scope.catalog.segment id).HasSource) := by
  have hg := isCore_of_setWeights hbuild hweights
  have hfinished : Finished ⟨g, u, limit, watch⟩ source r := finished_of_run hg hrun
  obtain ⟨b, id, rest, aliasName, column, columns, hat, hrefers, hqualifies, hwrites⟩ :=
    hfinished.refers hg hvisits hm hsymbol
  refine ⟨b, id, aliasName, column, hrefers, ?_, fun hsource => ?_⟩
  · rintro ⟨entry, hfind, href, -⟩
    rw [hat.sources] at hfind
    exact ⟨aliasName, entry, hfind, href⟩
  · exact coherent_of_writes hat hm (by rw [hsymbol]; decide) hsource hqualifies hwrites

/-- In a block that kept its table the reference is coherent. -/
theorem reference_coherent : ∃ built g r done s levels m b id aliasName column,
    selectCore.build = .ok built ∧
    built.setWeights (List.replicate built.table.size 1) true = .ok g ∧
    scripted g likeBlock [] = (none, r) ∧
    Visits g r.tree likeBlock Rendering.levels 0 r.scope done (levels + 1) 11 s ∧
    r.tree.nodes[11]? = some m ∧ m.symbol = ⟨"column_ref"⟩ ∧
    Refers g r.tree likeBlock levels 11 s b id aliasName column ∧
    Coherent r.tree done s.catalog id aliasName column := by
  obtain ⟨built, g, hbuild, hweights, hscene, -⟩ := exists_scenes
  obtain ⟨r, done, s, m, hr, hvisits, hm, hsymbol⟩ := hscene.turn 244
  obtain ⟨b, id, aliasName, column, hrefers, hiff⟩ :=
    reference_coherent_iff hbuild hweights hr hvisits hm hsymbol
  have hfinished : Finished ⟨g, likeBlock, 60, ⟨false, false, false⟩⟩ ⟨[]⟩ r :=
    finished_of_run (isCore_of_setWeights hbuild hweights) hr
  cases hscene.refers hr hfinished.derives hrefers
  have hnames := hscene.names
  rw [hr] at hnames
  obtain ⟨entry, hsource⟩ := Segment.mem_names.mp (hnames ▸ List.mem_singleton_self "QB2")
  exact ⟨built, g, r, done, s, 244, m, b, 0, aliasName, column, hbuild, hweights, hr, hvisits, hm,
    hsymbol, hrefers, hiff.mpr ⟨"QB2", entry, hsource⟩⟩

/-- A nested block takes the place of a table of its name. -/
theorem reference_not_coherent : ∃ built g r done s levels m b id aliasName column,
    selectCore.build = .ok built ∧
    built.setWeights (List.replicate built.table.size 1) true = .ok g ∧
    scripted g likeBlock displacing = (none, r) ∧
    Visits g r.tree likeBlock Rendering.levels 0 r.scope done (levels + 1) 20 s ∧
    r.tree.nodes[20]? = some m ∧ m.symbol = ⟨"column_ref"⟩ ∧
    Refers g r.tree likeBlock levels 20 s b id aliasName column ∧
    ¬ Coherent r.tree done s.catalog id aliasName column := by
  obtain ⟨built, g, hbuild, hweights, -, hscene, -⟩ := exists_scenes
  obtain ⟨r, done, s, m, hr, hvisits, hm, hsymbol⟩ := hscene.turn 242
  have hg := isCore_of_setWeights hbuild hweights
  have hfinished : Finished ⟨g, likeBlock, 60, ⟨false, false, false⟩⟩ ⟨displacing⟩ r :=
    finished_of_run hg hr
  obtain ⟨b, id, rest, aliasName, column, columns, hat, hrefers, -⟩ :=
    hfinished.refers hg hvisits hm hsymbol
  cases hscene.refers hr hfinished.derives hrefers
  refine ⟨built, g, r, done, s, 242, m, b, 0, aliasName, column, hbuild, hweights, hr, hvisits, hm,
    hsymbol, hrefers, ?_⟩
  rintro ⟨entry, hfind, href, -⟩
  rw [hat.sources] at hfind
  have hnames := hscene.names
  rw [hr] at hnames
  have hmem := Segment.mem_names.mpr ⟨entry, hfind, href⟩
  rw [hnames] at hmem
  cases hmem

end SelectCore

end ProbeForge
