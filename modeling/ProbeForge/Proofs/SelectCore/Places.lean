import ProbeForge.Proofs.SelectCore.Picks
import ProbeForge.Proofs.SelectCore.Supply

/-!
# Places in a rendering

What holds where the turn of a node comes. The sources of its block are those that the growth left;
a clause is rendered after the FROM clause of its block whenever that one has inline views, so these
views are finished and the columns that were picked are still in the lists of their sources.
-/

namespace ProbeForge.SelectCore

open Grammars Scope Rendering

/-! ### Heads, FROM clauses and other clauses -/

/-- Symbols above the FROM clause of a block. -/
def heads : List String := ["query", "query_block"]

/-- Symbols above the references of a block. -/
def clauses : List String :=
  ["select_list", "select_item", "where_opt", "condition", "predicate", "order_opt", "order_list",
    "column_ref"]

/-- Symbols above the items of a block. -/
def outer : List String := ["sql_statement", "query", "query_block", "from_list", "from_item"]

/-- Symbols that come before the FROM clause of a block. -/
def bare : List String :=
  ["SELECT", "DISTINCT", "FROM", "select_list", ",", "select_item", "column_ref", "AS", "col_alias",
    "nextval_call", "nextval", "(", "sequence_ref", ")"]

theorem clause_parent {name : String} {alternative : Alternative}
    (hmem : alternative ∈ alternatives name) {x : String} (hx : x ∈ alternative.1)
    (hclause : x ∈ clauses) :
    alternative.2.1 ≠ some .openBlock ∧ (name ∈ clauses ∨ name = "query_block") := by
  have hall := forall_alternatives (P := fun name alternative => ∀ x ∈ alternative.1,
    x ∈ clauses → alternative.2.1 ≠ some .openBlock ∧ (name ∈ clauses ∨ name = "query_block"))
    (by decide) hmem
  exact hall x hx hclause

theorem head_parent {name : String} {alternative : Alternative}
    (hmem : alternative ∈ alternatives name) {x : String} (hx : x ∈ alternative.1)
    (hhead : x ∈ heads) :
    alternative.2.1 = some .openBlock ∨ name = "query" ∧ alternative.1 = ["query_block"] := by
  have hall := forall_alternatives (P := fun name alternative => ∀ x ∈ alternative.1, x ∈ heads →
    alternative.2.1 = some .openBlock ∨ name = "query" ∧ alternative.1 = ["query_block"])
    (by decide) hmem
  exact hall x hx hhead

theorem not_outer {name : String} {alternative : Alternative}
    (hmem : alternative ∈ alternatives name) (hname : name ∉ outer)
    (hopens : alternative.2.1 ≠ some .openBlock) : ∀ x ∈ alternative.1, x ∉ outer := by
  revert hname hopens
  exact forall_alternatives (P := fun name alternative => name ∉ outer →
    alternative.2.1 ≠ some .openBlock → ∀ x ∈ alternative.1, x ∉ outer) (by decide) hmem

theorem bare_right {name : String} {alternative : Alternative}
    (hmem : alternative ∈ alternatives name) (hname : name ∈ bare) :
    alternative.2.1 ≠ some .openBlock ∧ ∀ x ∈ alternative.1, x ∈ bare := by
  revert hname
  exact forall_alternatives (P := fun name alternative => name ∈ bare →
    alternative.2.1 ≠ some .openBlock ∧ ∀ x ∈ alternative.1, x ∈ bare) (by decide) hmem

/-- In a block there is one way to its items. -/
theorem block_right {name : String} {alternative : Alternative}
    (hmem : alternative ∈ alternatives name) (hopens : alternative.2.1 = some .openBlock) :
    alternative.1.Nodup ∧ (∀ x ∈ alternative.1, x ∈ outer ∨ x ∈ silent) ∧
      ∀ x ∈ alternative.1, x ∈ outer → ∀ y ∈ alternative.1, y ∈ outer → x = y := by
  rcases openBlock_cases hmem hopens with ⟨-, hright⟩ | ⟨-, hright⟩
  · rw [hright]
    decide
  · rw [hright]
    decide

theorem heads_outer {name : String} (h : name ∈ heads) : name ∈ outer := by
  revert name
  decide

theorem query_block_right {alternative : Alternative}
    (hmem : alternative ∈ alternatives "query_block") :
    alternative.2.1 = none ∧ alternative.2.2 = .sourcesFirst ∧ alternative.1.Nodup ∧
      (∀ x ∈ alternative.1, x ∈ outer → x = "from_list") ∧
      ∃ before after, alternative.1 = before ++ "from_list" :: after ∧ ∀ x ∈ before, x ∈ bare := by
  rcases List.mem_cons.mp hmem with rfl | hmem
  · exact ⟨rfl, rfl, by decide, by decide, ["SELECT", "select_list", "FROM"], _, rfl, by decide⟩
  · cases List.mem_singleton.mp hmem
    exact ⟨rfl, rfl, by decide, by decide, ["SELECT", "DISTINCT", "select_list", "FROM"], _, rfl,
      by decide⟩

/-! ### Places -/

variable {ρ : Type} {g : Grammar} {t : Tree} {u : Universe} {c : Catalog} {size : Nat}
  {levels i k b : Nat} {n : Node} {id : SegmentId} {rest : List SegmentId} {done : List Nat}
  {s s' : Scope ρ}

/-- A turn in the scope that a growth with the segments `c` left to the rendering. -/
structure Placed (t : Tree) (c : Catalog) (size : Nat) (id : SegmentId) (rest : List SegmentId)
    (i : Nat) (s : Scope ρ) : Prop extends Ready t size id rest i s where
  sources : ∀ k, (s.catalog.segment k).sources = (c.segment k).sources
  fresh : ∀ k, t.Opens i k → (s.catalog.segment k).columns = ∅

/-- The inline views of the block are finished, and nothing but their columns was picked. -/
structure Settles (t : Tree) (id : SegmentId) (done : List Nat) (i : Nat) (s : Scope ρ) : Prop where
  settled : Settled t s.catalog id [i]
  finished : ∀ key entry k, (s.catalog.segment id).sources.find? key = some entry →
    Segment.isReferenceable entry = true → entry.columns = .exportsOf k →
      ∃ j ∈ done, t.Opens j k
  listed : PicksListed s.catalog id

/-- The turn of a node in the block of `b`, after the nodes `done` were rendered. -/
structure At (t : Tree) (c : Catalog) (size b : Nat) (id : SegmentId) (rest : List SegmentId)
    (done : List Nat) (i : Nat) (s : Scope ρ) : Prop extends Placed t c size id rest i s where
  block : ∃ m, t.nodes[b]? = some m ∧ m.segment = some id
  inside : t.Inside b i
  head : ∀ n, t.nodes[i]? = some n → n.symbol.name ∈ heads →
    (s.catalog.segment id).columns = ∅ ∧ ∀ j, t.Inside b j → t.IsItem j → t.Under i j
  clause : ∀ n, t.nodes[i]? = some n → n.symbol.name ∈ clauses → Settles t id done i s

theorem At.home {pending : List Nat} (h : At t c size b id rest done i s)
    (ht : t.Derives g pending) (hnumbered : t.Numbered size) : ¬ t.Opens i id := by
  rintro ⟨d, j, m, hpath, hm, hid⟩
  obtain ⟨m', hm', hid'⟩ := h.block
  cases hnumbered.once b j m' m id hm' hm hid' hid
  have hlt := h.inside.lt ht
  have hle := hpath.le ht
  omega

theorem picksListed_of_empty {c : Catalog} (h : (c.segment id).columns = ∅) :
    PicksListed c id := by
  rintro column source entry ⟨columnAlias, hpicked⟩ - -
  obtain ⟨aliases, hmem, -⟩ := Segment.mem_pickedColumns.mp hpicked
  rw [h] at hmem
  cases hmem

/-- Above the items of a block there are few symbols. -/
theorem outer_of_item (hg : IsCore g) (ht : t.Derives g []) (hn : t.nodes[i]? = some n) {j : Nat}
    (hunder : t.Under i j) (hitem : t.IsItem j) : n.symbol.name ∈ outer := by
  obtain ⟨m, hm, hsymbol⟩ := hitem
  by_contra hnot
  have hno := hg.name_of_under ht (P := (· ∉ outer))
    (fun name alternative hmem hname hopens => not_outer hmem hname hopens) hn hnot hunder hm
  rw [hsymbol] at hno
  exact hno (by decide)

section Steps

variable [RandomSource ρ] {right : List String} {generator : Option Generator}
  {representer : Representer} {before after : List Nat}

omit [RandomSource ρ] in
theorem Takes.before_ne (htakes : Takes t i n right generator representer)
    (hparts : renderOrder t n representer = before ++ k :: after) {j : Nat} (hj : j ∈ before) :
    j ≠ k := by
  have hnodup := renderOrder_nodup t representer htakes.distinct
  rw [hparts] at hnodup
  exact (List.nodup_append.mp hnodup).2.2 j hj k List.mem_cons_self

/-- The turn of a child, after those before it. -/
theorem Placed.child (hg : IsCore g) (ht : t.Derives g []) (hnumbered : t.Numbered size)
    (h : Placed t c size id rest i s) (hn : t.nodes[i]? = some n)
    (hmem : (right, generator, representer) ∈ alternatives n.symbol.name)
    (htakes : Takes t i n right generator representer)
    (hhome : n.segment = none → ¬ t.Opens i id)
    (hparts : renderOrder t n representer = before ++ k :: after)
    (hchain : Chain (Renders (Rendering.render g t u levels)) before (entered n representer s) s') :
    ∃ id' rest', Inner n id rest id' rest' ∧ Placed t c size id' rest' k s' ∧
      (∀ j ∈ n.children, ¬ t.Opens j id') ∧
      Chain (fun j s s' => Rendered t id' [j] s s') before (entered n representer s) s' := by
  obtain ⟨id', rest', hinner, hbound, hcalm, hstack⟩ :=
    entered_inner hnumbered hmem htakes hn h.toReady
  have hnot : ∀ j ∈ n.children, ¬ t.Opens j id' := by
    intro j hj
    rcases hinner with ⟨hsegment, -⟩ | ⟨hnone, rfl, -⟩
    · exact hnumbered.not_opens ht hn hsegment hj
    · exact fun hopens => hhome hnone (hopens.above hn hj)
  have hsteps := (contained hg ht hnumbered levels).steps hg ht hnumbered hmem htakes hparts
    hchain hbound hcalm hstack hnot
  have hrendered := Rendered.chain hsteps
  have hin : ∀ j ∈ before ++ k :: after, j ∈ n.children := fun j hj =>
    mem_renderOrder (hparts ▸ hj)
  have hk := hin k (List.mem_append_right _ List.mem_cons_self)
  refine ⟨id', rest', hinner, ⟨?ready, ?sources, ?fresh⟩, hnot, hsteps⟩
  case ready =>
    exact turn_ready hg ht (behaves hg ht hnumbered levels) hmem htakes hparts hchain hbound hcalm
      hstack
  case sources =>
    intro j
    rw [hrendered.sources, entered_segment, h.sources]
  case fresh =>
    intro inner hopens
    have hne : inner ≠ id' := by
      rintro rfl
      exact hnot k hk hopens
    -- what was rendered before opens other blocks
    have hother : ∀ j ∈ before, ¬ t.Opens j inner := by
      intro j hj hopens'
      exact htakes.before_ne hparts hj
        (hnumbered.siblings ht hn (hin j (List.mem_append_left _ hj)) hk hopens' hopens)
    rw [hrendered.frame inner hne hother, entered_segment]
    exact h.fresh inner (hopens.above hn hk)

omit [RandomSource ρ] in
/-- Only one child of a node that opens a block is on the way to the items of the block. -/
theorem Takes.outer_child (htakes : Takes t i n right generator representer)
    (hmem : (right, generator, representer) ∈ alternatives n.symbol.name)
    (hopens : generator = some .openBlock) {c c' : Nat} {m m' : Node} (hc : c ∈ n.children)
    (hc' : c' ∈ n.children) (hm : t.nodes[c]? = some m) (hm' : t.nodes[c']? = some m')
    (houter : m.symbol.name ∈ outer) (houter' : m'.symbol.name ∈ outer) : c' = c := by
  obtain ⟨honce, -, hway⟩ := block_right hmem hopens
  obtain ⟨x, hx, m₁, hm₁, hsymbol, -⟩ := forall₂_mem_left htakes.children hc
  obtain ⟨x', hx', m₁', hm₁', hsymbol', -⟩ := forall₂_mem_left htakes.children hc'
  cases hm.symm.trans hm₁
  cases hm'.symm.trans hm₁'
  rw [hsymbol] at houter
  rw [hsymbol'] at houter'
  have hsame : x' = x := hway x' hx' houter' x hx houter
  exact htakes.child_unique honce hc hc' hm hm' (by rw [hsymbol, hsymbol', hsame])

/-- The first turns in a block that is opened. -/
theorem Placed.enter (hg : IsCore g) (ht : t.Derives g []) (hnumbered : t.Numbered size)
    (h : Placed t c size id rest i s) (hn : t.nodes[i]? = some n) {inner : SegmentId}
    (hsegment : n.segment = some inner)
    (hmem : (right, generator, representer) ∈ alternatives n.symbol.name)
    (htakes : Takes t i n right generator representer)
    (hparts : renderOrder t n representer = before ++ k :: after)
    (hchain : Chain (Renders (Rendering.render g t u levels)) before (entered n representer s) s') :
    At t c size i inner (id :: rest) (done ++ before) k s' := by
  obtain ⟨id', rest', hinner, hplaced, -, hsteps⟩ := h.child hg ht hnumbered hn hmem htakes
    (fun hnone => by rw [hnone] at hsegment; cases hsegment) hparts hchain
  obtain ⟨rfl, rfl⟩ := hinner.opened hsegment
  have hopens : generator = some .openBlock :=
    (opens_iff_of_holds htakes.holds).mpr (by simp [hsegment])
  have hin : ∀ j ∈ before ++ k :: after, j ∈ n.children := fun j hj =>
    mem_renderOrder (hparts ▸ hj)
  have hk := hin k (List.mem_append_right _ List.mem_cons_self)
  refine ⟨hplaced, ⟨n, hn, hsegment⟩, ⟨n, k, hn, hk, .here⟩, fun m hm hhead => ⟨?empty, ?under⟩,
    fun m hm hclause => ?settles⟩
  case empty =>
    -- only the parenthesis comes before
    have hbefore : ∀ j ∈ before, IsSilent t j := by
      intro j hj
      have hjn := hin j (List.mem_append_left _ hj)
      obtain ⟨x, hx, o, ho, hsymbol, -⟩ := forall₂_mem_left htakes.children hjn
      refine ⟨o, ho, hsymbol ▸ ((block_right hmem hopens).2.1 x hx).resolve_left fun houter => ?_⟩
      exact htakes.before_ne hparts hj (htakes.outer_child hmem hopens hk hjn hm ho
        (heads_outer hhead) (hsymbol ▸ houter))
    rw [(Rendered.chain hsteps).silent hbefore, entered_segment]
    exact h.fresh id' ⟨0, i, n, .here, hn, hsegment⟩
  case under =>
    rintro j ⟨n', j', hn', hj', hunder⟩ hitem
    cases hn.symm.trans hn'
    obtain ⟨x, -, o, ho, -⟩ := forall₂_mem_left htakes.children hj'
    -- the item is below the only child that is on the way to items
    cases htakes.outer_child hmem hopens hk hj' hm ho (heads_outer hhead)
      (outer_of_item hg ht ho hunder hitem)
    exact hunder
  case settles =>
    obtain ⟨name, hname, m', hm', hsymbol, -⟩ := forall₂_mem_left htakes.children hk
    cases hm.symm.trans hm'
    rw [hsymbol] at hclause
    exact absurd hopens (clause_parent hmem hname hclause).1

omit [RandomSource ρ] in
/-- The inline views of a block are in its FROM clause. -/
theorem At.views (h : At t c size b id rest done i s) (hg : IsCore g) (ht : t.Derives g [])
    (hsupplies : t.Supplies b (c.segment id)) (hn : t.nodes[i]? = some n)
    (hsymbol : n.symbol.name = "query_block")
    (hmem : (right, generator, representer) ∈ alternatives n.symbol.name)
    (htakes : Takes t i n right generator representer) {f : Nat} {m : Node}
    (hf : f ∈ n.children) (hm : t.nodes[f]? = some m) (hlist : m.symbol = ⟨"from_list"⟩)
    {key : String} {entry : SourceEntry} {inner : SegmentId}
    (hfind : (s.catalog.segment id).sources.find? key = some entry)
    (href : Segment.isReferenceable entry = true) (hcolumns : entry.columns = .exportsOf inner) :
    t.Opens f inner := by
  rw [hsymbol] at hmem
  obtain ⟨-, -, honce, hway, -⟩ := query_block_right hmem
  rw [h.sources] at hfind
  obtain ⟨j, hinside, hitem, ⟨a, ha, horigin⟩, -⟩ := hsupplies key entry hfind href
  -- the item is below the FROM clause
  have hunder := (h.head n hn (by rw [hsymbol]; decide)).2 j hinside hitem
  obtain rfl | ⟨n', f', hn', hf', hunder⟩ := hunder.uncons
  · obtain ⟨o, ho, hosymbol⟩ := hitem
    cases hn.symm.trans ho
    simp [hosymbol] at hsymbol
  cases hn.symm.trans hn'
  obtain ⟨x, hx, o, ho, hosymbol, -⟩ := forall₂_mem_left htakes.children hf'
  have hxouter := outer_of_item hg ht ho hunder hitem
  rw [hosymbol] at hxouter
  cases hway x hx hxouter
  cases htakes.child_unique honce hf hf' hm ho (hosymbol.trans hlist.symm)
  obtain ⟨d, hpath⟩ := hunder.path
  obtain ⟨o', ho', -⟩ := hitem
  rw [childrenOf_eq ho'] at ha
  cases horigin with
  | object _ _ _ fixed =>
    rw [fixed] at hcolumns
    cases hcolumns
  | @view o₁ id' found segment _ columns =>
    cases columns.symm.trans hcolumns
    exact ⟨d + 1, a, o₁, .child hpath ho' (List.mem_of_mem_head? ha), found, segment⟩

omit [RandomSource ρ] in
/-- A FROM clause with inline views comes first. -/
theorem from_list_first (hg : IsCore g) (ht : t.Derives g []) {rl rr : List String}
    (htakes : Takes t i n (rl ++ "from_list" :: rr) generator .sourcesFirst)
    (hbare : ∀ x ∈ rl, x ∈ bare) {f : Nat} {m : Node} (hf : f ∈ n.children)
    (hm : t.nodes[f]? = some m) (hlist : m.symbol = ⟨"from_list"⟩)
    (honce : (rl ++ "from_list" :: rr).Nodup) (hopens : opensBlock t f = true) :
    ∃ tail, renderOrder t n .sourcesFirst = f :: tail := by
  obtain ⟨l, f', l', hchildren, hl, o, ho, hosymbol, -⟩ := forall₂_split htakes.children
  have hf' : f' ∈ n.children := hchildren ▸ List.mem_append_right _ List.mem_cons_self
  obtain rfl : f' = f := htakes.child_unique honce hf hf' hm ho (hosymbol.trans hlist.symm)
  have hquiet : ∀ j ∈ l, opensBlock t j = false := by
    intro j hj
    obtain ⟨x, hx, o', ho', hosymbol, -⟩ := forall₂_mem_left hl hj
    by_contra hyes
    rw [Bool.not_eq_false, Tree.opensBlock_iff ht (Tree.lt_size ho')] at hyes
    obtain ⟨inner, hinner⟩ := hyes
    exact hg.opens_none ht (P := (· ∈ bare)) (fun _ _ hmem hname => bare_right hmem hname) ho'
      (by rw [hosymbol]; exact hbare x hx) inner hinner
  change ∃ tail, blocksOrder t n.children = f' :: tail
  rw [hchildren]
  exact blocksOrder_head l' hquiet hopens

omit [RandomSource ρ] in
theorem settles_of_no_views {roots : List Nat} (h : Rendered t id roots s s')
    (hempty : (s.catalog.segment id).columns = ∅)
    (hnone : ∀ key entry inner, (s.catalog.segment id).sources.find? key = some entry →
      Segment.isReferenceable entry = true → entry.columns ≠ .exportsOf inner) :
    Settles t id done k s' := by
  have hsources := h.sources id
  refine ⟨fun key entry inner hfind href hcolumns => ?_,
    fun key entry inner hfind href hcolumns => ?_,
    h.picks (fun key entry inner hfind href hcolumns => ?_) (picksListed_of_empty hempty)⟩
  · exact absurd hcolumns (hnone key entry inner (hsources ▸ hfind) href)
  · exact absurd hcolumns (hnone key entry inner (hsources ▸ hfind) href)
  · exact absurd hcolumns (hnone key entry inner hfind href)

omit [RandomSource ρ] in
/-- The inline views that the FROM clause `f` opens are finished after it. -/
theorem settles_of_views {f : Nat} {roots : List Nat} {s₁ : Scope ρ}
    (hfrom : Rendered t id [f] s s₁) (hsilent : IsSilent t f) (h : Rendered t id roots s₁ s')
    (hempty : (s.catalog.segment id).columns = ∅) (hhome : ¬ t.Opens f id)
    (hviews : ∀ key entry inner, (s.catalog.segment id).sources.find? key = some entry →
      Segment.isReferenceable entry = true → entry.columns = .exportsOf inner → t.Opens f inner)
    (hroots : ∀ j ∈ roots, ∀ inner, t.Opens f inner → ¬ t.Opens j inner)
    (hk : ∀ inner, t.Opens f inner → ¬ t.Opens k inner) :
    Settles t id (done ++ f :: roots) k s' := by
  have hsources₁ := hfrom.sources id
  have hsources := (h.sources id).trans hsources₁
  refine ⟨fun key entry inner hfind href hcolumns => ?_,
    fun key entry inner hfind href hcolumns => ?_,
    h.picks (fun key entry inner hfind href hcolumns => ?_) (picksListed_of_empty ?_)⟩
  · have hinner := hviews key entry inner (hsources ▸ hfind) href hcolumns
    refine ⟨fun heq => hhome (heq ▸ hinner), fun j hj => ?_⟩
    rw [List.mem_singleton.mp hj]
    exact hk inner hinner
  · exact ⟨f, List.mem_append_right _ List.mem_cons_self,
      hviews key entry inner (hsources ▸ hfind) href hcolumns⟩
  · have hinner := hviews key entry inner (hsources₁ ▸ hfind) href hcolumns
    exact ⟨fun heq => hhome (heq ▸ hinner), fun j hj => hroots j hj inner hinner⟩
  · rw [hfrom.silent fun j hj => List.mem_singleton.mp hj ▸ hsilent]
    exact hempty

omit [RandomSource ρ] in
/-- A clause of a block is rendered after the FROM clause if that has inline views. -/
theorem At.settles (h : At t c size b id rest done i s) (hg : IsCore g) (ht : t.Derives g [])
    (hnumbered : t.Numbered size) (hsupplies : t.Supplies b (c.segment id))
    (hn : t.nodes[i]? = some n) (hsymbol : n.symbol.name = "query_block")
    (hmem : (right, generator, representer) ∈ alternatives n.symbol.name)
    (htakes : Takes t i n right generator representer)
    (hparts : renderOrder t n representer = before ++ k :: after)
    (hhome : ∀ j ∈ n.children, ¬ t.Opens j id)
    (hsteps : Chain (fun j s s' => Rendered t id [j] s s') before s s')
    {m : Node} (hm : t.nodes[k]? = some m) (hclause : m.symbol.name ∈ clauses) :
    Settles t id (done ++ before) k s' := by
  have hrule := hmem
  rw [hsymbol] at hrule
  obtain ⟨-, rfl, honce, -, rl, rr, rfl, hbare⟩ := query_block_right hrule
  obtain ⟨l, f, l', hchildren, hl, o, ho, hlist, -⟩ := forall₂_split htakes.children
  have hf : f ∈ n.children := hchildren ▸ List.mem_append_right _ List.mem_cons_self
  have hk : k ∈ n.children :=
    mem_renderOrder (hparts ▸ List.mem_append_right _ List.mem_cons_self)
  have hkf : k ≠ f := by
    rintro rfl
    cases hm.symm.trans ho
    rw [hlist] at hclause
    exact absurd hclause (by decide)
  have hempty := (h.head n hn (by rw [hsymbol]; decide)).1
  have hviews : ∀ key entry inner, (s.catalog.segment id).sources.find? key = some entry →
      Segment.isReferenceable entry = true → entry.columns = .exportsOf inner → t.Opens f inner :=
    fun _ _ _ hfind href hcolumns =>
      h.views hg ht hsupplies hn hsymbol hmem htakes hf ho hlist hfind href hcolumns
  cases hopens : opensBlock t f with
  | true =>
    -- the FROM clause was rendered first, and no other clause opens its views
    obtain ⟨tail, hfirst⟩ := from_list_first hg ht htakes hbare hf ho hlist honce hopens
    have hapart : ∀ j ∈ n.children, j ≠ f → ∀ inner, t.Opens f inner → ¬ t.Opens j inner :=
      fun j hj hne inner hinner hopens' => hne (hnumbered.siblings ht hn hj hf hopens' hinner)
    have hsplit : f :: tail = before ++ k :: after := hfirst.symm.trans hparts
    cases before with
    | nil => exact absurd (List.cons.inj hsplit).1.symm hkf
    | cons f' before =>
      obtain ⟨rfl, -⟩ := List.cons.inj hsplit
      have hnodup := renderOrder_nodup t .sourcesFirst htakes.distinct
      rw [hparts, List.cons_append] at hnodup
      have honly := (List.nodup_cons.mp hnodup).1
      cases hsteps with
      | cons head rest =>
        refine settles_of_views head ⟨o, ho, by rw [hlist]; decide⟩ (Rendered.chain rest) hempty
          (hhome f hf) hviews (fun j hj => hapart j ?_ ?_) (hapart k hk hkf)
        · exact mem_renderOrder (hparts ▸ List.mem_append_left _ (List.mem_cons_of_mem _ hj))
        · rintro rfl
          exact honly (List.mem_append_left _ hj)
  | false =>
    have hrendered := Rendered.chain hsteps
    refine settles_of_no_views hrendered hempty fun key entry inner hfind href hcolumns => ?_
    rw [(Tree.opensBlock_iff ht (Tree.lt_size ho)).mpr
      ⟨inner, hviews key entry inner hfind href hcolumns⟩] at hopens
    cases hopens

omit [RandomSource ρ] in
theorem Settles.child (h : Settles t id done i s) (hn : t.nodes[i]? = some n)
    (hk : k ∈ n.children) (hbefore : ∀ j ∈ before, j ∈ n.children)
    (hrendered : Rendered t id before s s') : Settles t id (done ++ before) k s' := by
  obtain ⟨hsettled, hfinished, hlisted⟩ := h
  have hsources := hrendered.sources id
  -- what is below the children is below the node
  have hbelow : ∀ j ∈ n.children, ∀ key entry inner,
      (s.catalog.segment id).sources.find? key = some entry →
      Segment.isReferenceable entry = true → entry.columns = .exportsOf inner →
        inner ≠ id ∧ ¬ t.Opens j inner := fun j hj key entry inner hfind href hcolumns =>
    (hsettled key entry inner hfind href hcolumns).imp_right fun hnot hopens =>
      hnot i (List.mem_singleton_self i) (hopens.above hn hj)
  refine ⟨fun key entry inner hfind href hcolumns => ?_,
    fun key entry inner hfind href hcolumns => ?_,
    hrendered.picks (fun key entry inner hfind href hcolumns => ?_) hlisted⟩
  · obtain ⟨hne, hnot⟩ := hbelow k hk key entry inner (hsources ▸ hfind) href hcolumns
    exact ⟨hne, fun j hj => List.mem_singleton.mp hj ▸ hnot⟩
  · obtain ⟨j, hj, hopens⟩ := hfinished key entry inner (hsources ▸ hfind) href hcolumns
    exact ⟨j, List.mem_append_left _ hj, hopens⟩
  · exact ⟨(hsettled key entry inner hfind href hcolumns).1, fun j hj =>
      (hbelow j (hbefore j hj) key entry inner hfind href hcolumns).2⟩

/-- The turns in the same block. -/
theorem At.child (h : At t c size b id rest done i s) (hg : IsCore g) (ht : t.Derives g [])
    (hnumbered : t.Numbered size) (hsupplies : t.Supplies b (c.segment id))
    (hn : t.nodes[i]? = some n) (hsegment : n.segment = none)
    (hmem : (right, generator, representer) ∈ alternatives n.symbol.name)
    (htakes : Takes t i n right generator representer)
    (hparts : renderOrder t n representer = before ++ k :: after)
    (hchain : Chain (Renders (Rendering.render g t u levels)) before (entered n representer s) s') :
    At t c size b id rest (done ++ before) k s' := by
  obtain ⟨id', rest', hinner, hplaced, hhome, hsteps⟩ :=
    h.toPlaced.child hg ht hnumbered hn hmem htakes (fun _ => h.home ht hnumbered) hparts hchain
  obtain ⟨rfl, rfl⟩ := hinner.same hsegment
  rw [entered_eq hsegment] at hsteps
  have hrendered := Rendered.chain hsteps
  have hin : ∀ j ∈ before ++ k :: after, j ∈ n.children := fun j hj =>
    mem_renderOrder (hparts ▸ hj)
  have hk := hin k (List.mem_append_right _ List.mem_cons_self)
  obtain ⟨name, hname, m, hm, hsymbol, -⟩ := forall₂_mem_left htakes.children hk
  have hopens : generator ≠ some .openBlock :=
    mt (opens_iff_of_holds htakes.holds).mp (not_not.mpr hsegment)
  refine ⟨hplaced, h.block, h.inside.child hn hsegment hk, fun m' hm' hhead => ?_,
    fun m' hm' hclause => ?_⟩
  · cases hm.symm.trans hm'
    rw [hsymbol] at hhead
    obtain ⟨hquery, rfl⟩ := (head_parent hmem hname hhead).resolve_left hopens
    obtain ⟨hempty, hitems⟩ := h.head n hn (by rw [hquery]; decide)
    -- a query has one child
    have hsingle : ∀ j ∈ n.children, j = k := by
      intro j hj
      obtain ⟨x, hx, o, ho, hosymbol, -⟩ := forall₂_mem_left htakes.children hj
      cases List.mem_singleton.mp hx
      cases List.mem_singleton.mp hname
      exact htakes.child_unique (List.nodup_singleton _) hk hj hm ho (hosymbol.trans hsymbol.symm)
    refine ⟨?_, fun j hinside hitem => ?_⟩
    · rw [hrendered.silent fun j hj => ?_]
      · exact hempty
      · exact absurd (hsingle j (hin j (List.mem_append_left _ hj))) (htakes.before_ne hparts hj)
    · obtain rfl | ⟨n', j', hn', hj', hunder⟩ := (hitems j hinside hitem).uncons
      · obtain ⟨o, ho, hosymbol⟩ := hitem
        cases hn.symm.trans ho
        simp [hosymbol] at hquery
      · cases hn.symm.trans hn'
        cases hsingle j' hj'
        exact hunder
  · cases hm.symm.trans hm'
    have hmclause := hclause
    rw [hsymbol] at hclause
    rcases (clause_parent hmem hname hclause).2 with hparent | hparent
    · exact (h.clause n hn hparent).child hn hk (fun j hj => hin j (List.mem_append_left _ hj))
        hrendered
    · exact h.settles hg ht hnumbered hsupplies hn hparent hmem htakes hparts hhome hsteps hm
        hmclause

/-! ### Visits -/

/-- Every block is supplied by its own items. -/
def Supplied (t : Tree) (c : Catalog) : Prop :=
  ∀ (b : Nat) (m : Node) (id : SegmentId), t.nodes[b]? = some m → m.segment = some id →
    t.Supplies b (c.segment id)

theorem At.visits (hg : IsCore g) (ht : t.Derives g []) (hnumbered : t.Numbered size)
    (hsupplied : Supplied t c) {levels' j : Nat} {done' : List Nat}
    (h : Visits g t u levels i s done' levels' j s') (hat : At t c size b id rest done i s) :
    ∃ b id rest, At t c size b id rest (done ++ done') j s' := by
  induction h generalizing b id rest done with
  | here => exact ⟨b, id, rest, (List.append_nil _).symm ▸ hat⟩
  | @down levels i levels' j k n representer before after done' s s₁ s' found expanded resolved
      parts rendered visits ih =>
    obtain ⟨right, generator, representer', hmem, htakes⟩ := hg.takes ht found expanded
    cases resolved.symm.trans htakes.representer
    rw [← List.append_assoc]
    cases hsegment : n.segment with
    | none =>
      obtain ⟨m, hm, hid⟩ := hat.block
      exact ih (hat.child hg ht hnumbered (hsupplied b m id hm hid) found hsegment hmem htakes parts
        rendered)
    | some inner =>
      exact ih (hat.toPlaced.enter hg ht hnumbered found hsegment hmem htakes parts rendered)

/-- Every turn below the statement itself is in some block. -/
theorem Finished.visits {job : Job} {source : ρ} {r : Growth ρ} (hg : IsCore job.grammar)
    (h : Finished job source r) {levels levels' j : Nat} {done : List Nat} {m : Node}
    (hvisits : Visits job.grammar r.tree job.objects levels 0 r.scope done levels' j s')
    (hm : r.tree.nodes[j]? = some m) (hsymbol : m.symbol ≠ ⟨"sql_statement"⟩) :
    ∃ b id rest, At r.tree r.scope.catalog r.scope.catalog.segments.size b id rest done j s' := by
  have hsupplied : Supplied r.tree r.scope.catalog := fun b m id hm hid => h.supplies hg hm hid
  obtain ⟨n, id, hn, hsegment, hready⟩ := h.ready
  have hplaced : Placed r.tree r.scope.catalog r.scope.catalog.segments.size id [] 0 r.scope :=
    ⟨hready, fun _ => rfl, fun k _ => (h.plain k).columns⟩
  cases hvisits with
  | here =>
    obtain ⟨n', -, hn', hstart, -⟩ := h.root
    cases hm.symm.trans hn'
    exact absurd hstart hsymbol
  | @down levels i _ _ k n' representer before after done' s s₁ s' found expanded resolved parts
      rendered visits =>
    cases hn.symm.trans found
    obtain ⟨right, generator, representer', hmem, htakes⟩ := hg.takes h.derives found expanded
    cases resolved.symm.trans htakes.representer
    have hfirst : At r.tree r.scope.catalog r.scope.catalog.segments.size 0 id [id] ([] ++ before) k
        s₁ := hplaced.enter hg h.derives h.numbered found hsegment hmem htakes parts rendered
    exact hfirst.visits hg h.derives h.numbered hsupplied visits

end Steps

end ProbeForge.SelectCore
