import ProbeForge.Proofs.SelectCore.Writing

/-!
# Picked columns

Where the rendering of a part of a statement leaves its traces. Other segments change only if the
part opens their blocks. In the block that it belongs to the sources stay, and as long as the inline
views of the block are not touched, every column that was picked is in the list of its source.
-/

namespace ProbeForge.SelectCore

open Grammars Scope Rendering

/-! ### Parts that write nothing -/

/-- Symbols of a FROM clause and what they are made of, and those around a subquery. -/
def silent : List String :=
  ["from_list", "from_item", "table_ref", "schema_ref", "table_tail", "view_ref", "mview_ref",
    "alias_def", "subquery", ",", ".", "(", "end_of_subquery", ")"]

theorem silent_right {name : String} {alternative : Alternative}
    (hmem : alternative ∈ alternatives name) (hname : name ∈ silent)
    (hopens : alternative.2.1 ≠ some .openBlock) :
    alternative.2.2 ∉ acting ∧ ∀ x ∈ alternative.1, x ∈ silent := by
  revert hname hopens
  exact forall_alternatives (P := fun name alternative => name ∈ silent →
    alternative.2.1 ≠ some .openBlock → alternative.2.2 ∉ acting ∧ ∀ x ∈ alternative.1, x ∈ silent)
    (by decide) hmem

theorem writing_acting {representer : Representer} (h : representer ∈ writing) :
    representer ∈ acting := by
  revert representer
  decide

def IsSilent (t : Tree) (i : Nat) : Prop := ∃ n, t.nodes[i]? = some n ∧ n.symbol.name ∈ silent

/-! ### What a rendering touches -/

/-- The columns picked from sources that can be referred to are columns of these sources. -/
def PicksListed (c : Catalog) (id : SegmentId) : Prop :=
  ∀ column source entry, (c.segment id).Picked column source →
    (c.segment id).sources.find? source = some entry → Segment.isReferenceable entry = true →
      column ∈ c.columnList entry

/-- The inline views of the block are none of the blocks that the nodes open. -/
def Settled (t : Tree) (c : Catalog) (id : SegmentId) (roots : List Nat) : Prop :=
  ∀ key entry k, (c.segment id).sources.find? key = some entry →
    Segment.isReferenceable entry = true → entry.columns = .exportsOf k →
      k ≠ id ∧ ∀ i ∈ roots, ¬ t.Opens i k

variable {ρ : Type} {t : Tree} {i : Nat} {n : Node} {id : SegmentId} {rest : List SegmentId}
  {roots roots' : List Nat} {s s₁ s' : Scope ρ}

theorem Settled.mono {c c' : Catalog} (h : Settled t c id roots)
    (hsources : (c'.segment id).sources = (c.segment id).sources)
    (hroots : ∀ i ∈ roots', i ∈ roots) : Settled t c' id roots' := by
  intro key entry k hfind href hcolumns
  rw [hsources] at hfind
  obtain ⟨hne, hopens⟩ := h key entry k hfind href hcolumns
  exact ⟨hne, fun i hi => hopens i (hroots i hi)⟩

theorem PicksListed.congr {c c' : Catalog} (h : PicksListed c id)
    (hsegment : c'.segment id = c.segment id)
    (hlists : ∀ key entry k, (c.segment id).sources.find? key = some entry →
      Segment.isReferenceable entry = true → entry.columns = .exportsOf k →
        c'.segment k = c.segment k) : PicksListed c' id := by
  intro column source entry hpicked hfind href
  rw [hsegment] at hpicked hfind
  rw [Catalog.columnList_congr fun k hk => congrArg _ (hlists source entry k hfind href hk)]
  exact h column source entry hpicked hfind href

/-- What the rendering of some nodes in the block `id` did to the segments. -/
structure Touched (t : Tree) (id : SegmentId) (roots : List Nat) (s s' : Scope ρ) : Prop where
  sources : ∀ k, (s'.catalog.segment k).sources = (s.catalog.segment k).sources
  frame : ∀ k, k ≠ id → (∀ i ∈ roots, ¬ t.Opens i k) → s'.catalog.segment k = s.catalog.segment k
  picks : Settled t s.catalog id roots → PicksListed s.catalog id → PicksListed s'.catalog id

theorem Touched.refl : Touched t id roots s s where
  sources _ := rfl
  frame _ _ _ := rfl
  picks _ h := h

theorem Touched.trans (h : Touched t id roots s s₁) (h' : Touched t id roots' s₁ s') :
    Touched t id (roots ++ roots') s s' where
  sources k := (h'.sources k).trans (h.sources k)
  frame k hne hopens :=
    (h'.frame k hne fun i hi => hopens i (List.mem_append_right _ hi)).trans
      (h.frame k hne fun i hi => hopens i (List.mem_append_left _ hi))
  picks hsettled hlisted :=
    h'.picks (hsettled.mono (h.sources id) fun _ => List.mem_append_right _)
      (h.picks (hsettled.mono rfl fun _ => List.mem_append_left _) hlisted)

theorem Touched.above (hn : t.nodes[i]? = some n) (hroots : ∀ c ∈ roots, c ∈ n.children)
    (h : Touched t id roots s s') : Touched t id [i] s s' where
  sources := h.sources
  frame k hne hopens := h.frame k hne fun c hc hopen =>
    hopens i (List.mem_singleton_self i) (hopen.above hn (hroots c hc))
  picks hsettled := h.picks fun key entry k hfind href hcolumns => by
    obtain ⟨hne, hopens⟩ := hsettled key entry k hfind href hcolumns
    exact ⟨hne, fun c hc hopen =>
      hopens i (List.mem_singleton_self i) (hopen.above hn (hroots c hc))⟩

theorem Touched.of_noted (hbound : id < s.catalog.segments.size) (h : Noted id s s') :
    Touched t id [] s s' := by
  obtain ⟨changed, -, sources, -, picks⟩ := h
  have hself := changed.self hbound
  constructor
  case sources =>
    intro k
    by_cases hk : k = id
    · subst hk
      rw [hself, sources]
    · rw [changed.other hk]
  case frame => exact fun k hne _ => changed.other hne
  case picks =>
    intro hsettled hlisted column source entry hpicked hfind href
    rw [hself] at hpicked hfind
    rw [sources] at hfind
    rw [Catalog.columnList_congr fun k hk =>
      congrArg Segment.exports (changed.other (hsettled source entry k hfind href hk).1)]
    rcases picks column source hpicked with hold | ⟨found, hfound, hmem⟩
    · exact hlisted column source entry hold hfind href
    · cases hfind.symm.trans hfound
      exact hmem

/-- The rendering of nodes, of which those of a FROM clause write nothing in their own block. -/
structure Rendered (t : Tree) (id : SegmentId) (roots : List Nat) (s s' : Scope ρ) : Prop
    extends Touched t id roots s s' where
  silent : (∀ i ∈ roots, IsSilent t i) → s'.catalog.segment id = s.catalog.segment id

theorem Rendered.refl : Rendered t id roots s s where
  toTouched := .refl
  silent _ := rfl

theorem Rendered.trans (h : Rendered t id roots s s₁) (h' : Rendered t id roots' s₁ s') :
    Rendered t id (roots ++ roots') s s' where
  toTouched := h.toTouched.trans h'.toTouched
  silent hsilent :=
    (h'.silent fun i hi => hsilent i (List.mem_append_right _ hi)).trans
      (h.silent fun i hi => hsilent i (List.mem_append_left _ hi))

theorem Rendered.chain {l : List Nat} (h : Chain (fun c s s' => Rendered t id [c] s s') l s s') :
    Rendered t id l s s' := by
  induction h with
  | nil => exact .refl
  | cons head tail ih => exact head.trans ih

/-- Outside a FROM clause the representer may write too. -/
theorem Rendered.above (hn : t.nodes[i]? = some n) (hroots : ∀ c ∈ roots, c ∈ n.children)
    (h : Rendered t id roots s s₁)
    (hown : s' = s₁ ∨ n.symbol.name ∉ SelectCore.silent ∧ Touched t id [] s₁ s')
    (hsilent : n.symbol.name ∈ SelectCore.silent → ∀ c ∈ roots, IsSilent t c) :
    Rendered t id [i] s s' := by
  have hname : (∀ j ∈ [i], IsSilent t j) → n.symbol.name ∈ SelectCore.silent := by
    intro hall
    obtain ⟨m, hm, hmem⟩ := hall i (List.mem_singleton_self i)
    cases hn.symm.trans hm
    exact hmem
  rcases hown with rfl | ⟨hnot, htouched⟩
  · exact ⟨h.toTouched.above hn hroots, fun hall => h.silent (hsilent (hname hall))⟩
  · refine ⟨?_, fun hall => absurd (hname hall) hnot⟩
    have hboth := h.toTouched.trans htouched
    rw [List.append_nil] at hboth
    exact hboth.above hn hroots

/-- A block is rendered in its own segment. -/
theorem Rendered.block {inner : SegmentId} {stack stack' : List SegmentId}
    (hn : t.nodes[i]? = some n) (hsegment : n.segment = some inner) (hhome : ¬ t.Opens i id)
    (hroots : ∀ c ∈ roots, c ∈ n.children)
    (h : Touched t inner roots { s with catalog := { s.catalog with stack } } s₁) :
    Rendered t id [i] s { s₁ with catalog := { s₁.catalog with stack := stack' } } := by
  have hframe : ∀ k, ¬ t.Opens i k → s₁.catalog.segment k = s.catalog.segment k := by
    intro k hopens
    refine h.frame k ?_ fun c hc hopen => hopens (hopen.above hn (hroots c hc))
    rintro rfl
    exact hopens ⟨0, i, n, .here, hn, hsegment⟩
  refine ⟨⟨h.sources, fun k _ hopens => hframe k (hopens i (List.mem_singleton_self i)), ?_⟩,
    fun _ => hframe id hhome⟩
  intro hsettled hlisted
  refine hlisted.congr (hframe id hhome) fun key entry k hfind href hcolumns => ?_
  exact hframe k ((hsettled key entry k hfind href hcolumns).2 i (List.mem_singleton_self i))

/-! ### Every node -/

variable [RandomSource ρ] {g : Grammar} {u : Universe} {size levels : Nat}

omit [RandomSource ρ] in
theorem Inner.not_opens {id' : SegmentId} {rest' : List SegmentId} {pending : List Nat} {c : Nat}
    (h : Inner n id rest id' rest') (ht : t.Derives g pending) (hnumbered : t.Numbered size)
    (hn : t.nodes[i]? = some n) (hhome : ¬ t.Opens i id) (hc : c ∈ n.children) :
    ¬ t.Opens c id' := by
  rcases h with ⟨hsegment, -⟩ | ⟨-, rfl, -⟩
  · exact hnumbered.not_opens ht hn hsegment hc
  · exact fun hopens => hhome (hopens.above hn hc)

/-- What is known of renderings that go fewer levels down. -/
def Contained (g : Grammar) (t : Tree) (u : Universe) (size levels : Nat) : Prop :=
  ∀ (i : Nat) (n : Node) (id : SegmentId) (rest : List SegmentId) (s s' : Scope ρ),
    t.nodes[i]? = some n → Ready t size id rest i s → ¬ t.Opens i id →
      Renders (Rendering.render g t u levels) i s s' → Rendered t id [i] s s'

/-- A part of the children is rendered in the open block. -/
theorem Contained.steps (h : Contained (ρ := ρ) g t u size levels) (hg : IsCore g)
    (ht : t.Derives g []) (hnumbered : t.Numbered size) {right : List String}
    {generator : Option Generator} {representer : Representer}
    (hmem : (right, generator, representer) ∈ alternatives n.symbol.name)
    (htakes : Takes t i n right generator representer) {before after : List Nat}
    (hparts : renderOrder t n representer = before ++ after)
    (hchain : Chain (Renders (Rendering.render g t u levels)) before s s')
    (hbound : id < size) (hcalm : Calm size s) (hstack : s.catalog.stack = id :: rest)
    (hhome : ∀ c ∈ n.children, ¬ t.Opens c id) :
    Chain (fun c s s' => Rendered t id [c] s s') before s s' := by
  have hready := hchain.within (P := fun c s => Ready t size id rest c s)
    fun first c others s₁ hbefore hfirst => by
      rw [hbefore, List.append_assoc] at hparts
      exact turn_ready hg ht (behaves hg ht hnumbered levels) hmem htakes hparts hfirst hbound hcalm
        hstack
  refine hready.imp fun c hc s₂ s₃ hturn => ?_
  have hin : c ∈ n.children := mem_renderOrder (hparts ▸ List.mem_append_left _ hc)
  obtain ⟨name, -, m, hm, -⟩ := forall₂_mem_left htakes.children hin
  exact h c m id rest s₂ s₃ hm hturn.1 (hhome c hin) hturn.2

/-- What the rendering of a node touches. -/
theorem contained (hg : IsCore g) (ht : t.Derives g []) (hnumbered : t.Numbered size)
    (levels : Nat) : Contained (ρ := ρ) g t u size levels := by
  induction levels with
  | zero =>
    rintro i n id rest s s' hn hready hhome ⟨text, hrun⟩
    cases hrun
  | succ levels ih =>
    rintro i n id rest s s' hn hready hhome ⟨text, hrun⟩
    cases hexp : n.isExpanded with
    | false =>
      rw [render_terminal hn hexp] at hrun
      cases hrun
      exact .refl
    | true =>
      obtain ⟨right, generator, representer, hmem, htakes⟩ := hg.takes ht hn hexp
      obtain ⟨id', rest', hinner, hbound, hcalm, hstack⟩ :=
        entered_inner hnumbered hmem htakes hn hready
      obtain ⟨texts, s₁, hchain, hconclude⟩ := render_ok hn hexp htakes.representer hrun
      have hin : ∀ c ∈ renderOrder t n representer, c ∈ n.children := fun _ => mem_renderOrder
      have hchildren : Rendered t id' (renderOrder t n representer) (entered n representer s) s₁ :=
        .chain (ih.steps hg ht hnumbered hmem htakes (List.append_nil _).symm hchain hbound hcalm
          hstack fun c hc => hinner.not_opens ht hnumbered hn hhome hc)
      obtain ⟨hcalm₁, hstack₁, hconcluded⟩ :=
        children_conclude hg ht (behaves hg ht hnumbered levels) hn hmem htakes hready hinner hbound
          hcalm hstack hchain
      have hspec := hconcluded texts
      rw [hconclude] at hspec
      -- the children write to the block of the node, or to the one that it opens
      rcases entered_cases hmem htakes s with ⟨hne, hsegment, heq⟩ | ⟨block, rfl, hsegment, heq⟩
      · obtain ⟨rfl, rfl⟩ := hinner.same hsegment
        have hopens : generator ≠ some .openBlock := fun h => hne ((block_iff hmem).mpr h)
        rw [heq] at hchildren
        refine hchildren.above hn hin ?_ fun hsilent c hc => ?_
        · cases hspec with
          | stays => exact .inl rfl
          | leaves closes => exact absurd closes hne
          | notes writes noted =>
            refine .inr ⟨fun hsilent => ?_, .of_noted (hcalm₁.size_eq ▸ hbound) noted⟩
            exact (silent_right hmem hsilent hopens).1 (writing_acting writes)
        · obtain ⟨name, hname, m, hm, hsymbol, -⟩ := forall₂_mem_left htakes.children (hin c hc)
          exact ⟨m, hm, hsymbol ▸ (silent_right hmem hsilent hopens).2 name hname⟩
      · cases hspec with
        | stays passive => exact absurd (by decide) passive
        | leaves =>
          obtain ⟨rfl, rfl⟩ := hinner.opened hsegment
          rw [heq] at hchildren
          exact .block hn hsegment hhome hin hchildren.toTouched
        | notes writes => exact absurd writes (by decide)

end ProbeForge.SelectCore
