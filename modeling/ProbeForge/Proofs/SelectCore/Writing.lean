import ProbeForge.Proofs.SelectCore.Finished
import ProbeForge.Proofs.SelectCore.Representers

/-!
# Writing a statement

While a finished tree is rendered, the innermost block is the one that the node belongs to, and the
cursor of a block is where its next reference needs it: a column is chosen when its alias or its
export is asked for. So only depth and stubs end a rendering early.
-/

namespace ProbeForge.SelectCore

open Grammars Scope Rendering

variable {ρ : Type} [RandomSource ρ] {g : Grammar} {t : Tree} {u : Universe} {size : Nat}
  {levels i : Nat} {n : Node} {id : SegmentId} {rest : List SegmentId} {s s' : Scope ρ}

/-! ### Turns -/

/-- The scope in which the turn of a node comes, in the block `id`. -/
structure Ready (t : Tree) (size : Nat) (id : SegmentId) (rest : List SegmentId) (i : Nat)
    (s : Scope ρ) : Prop where
  calm : Calm size s
  stack : s.catalog.stack = id :: rest
  bound : id < size
  chosen : ∀ n, t.nodes[i]? = some n → n.symbol = ⟨"col_alias"⟩ →
    (s.catalog.segment id).cursor.IsChosen

/-- Why a rendering may end early below a node. -/
inductive Excused (t : Tree) (levels i : Nat) : Halt → Prop where
  | tooDeep {j : Nat} (path : t.Path i levels j) : Excused t levels i .tooDeep
  | stub {d j : Nat} {m : Node} (path : t.Path i d j) (found : t.nodes[j]? = some m)
      (symbol : m.symbol = ⟨"set_operation"⟩) (expanded : m.isExpanded = true) :
      Excused t levels i (.failure (.unimplemented "set_operation"))

/-- What is left behind when a node was rendered, or its rendering was given up. -/
def Leaves (t : Tree) (size : Nat) (id : SegmentId) (rest : List SegmentId) (levels i : Nat)
    (s : Scope ρ) : EStateM.Result Halt (Scope ρ) String → Prop
  | .ok _ s' => Calm size s' ∧ s'.catalog.stack = id :: rest ∧
      ∀ n, t.nodes[i]? = some n → (n.isExpanded = false → s' = s) ∧
        (n.symbol = ⟨"column_ref"⟩ → (s'.catalog.segment id).cursor.IsChosen)
  | .error halt s' => s'.catalog.stack = id :: rest ∧ Excused t levels i halt

theorem Excused.above {levels : Nat} {c : Nat} {halt : Halt} (hn : t.nodes[i]? = some n)
    (hc : c ∈ n.children) (h : Excused t levels c halt) : Excused t (levels + 1) i halt := by
  cases h with
  | tooDeep path => exact .tooDeep (path.cons hn hc)
  | stub path found symbol expanded => exact .stub (path.cons hn hc) found symbol expanded

/-! ### Children -/

/-- The innermost block for the children of a node. -/
def Inner (n : Node) (id : SegmentId) (rest : List SegmentId) (id' : SegmentId)
    (rest' : List SegmentId) : Prop :=
  n.segment = some id' ∧ rest' = id :: rest ∨ n.segment = none ∧ id' = id ∧ rest' = rest

variable (g t u size) in
/-- What is known of renderings that go fewer levels down. -/
def Behaves (levels : Nat) : Prop :=
  ∀ (i : Nat) (n : Node) (id : SegmentId) (rest : List SegmentId) (s : Scope ρ),
    t.nodes[i]? = some n → Ready t size id rest i s →
      Leaves t size id rest levels i s (Rendering.render g t u levels i s)

theorem Behaves.leaves (h : Behaves (ρ := ρ) g t u size levels) {i : Nat}
    (hn : t.nodes[i]? = some n) (hready : Ready t size id rest i s)
    (hrenders : Renders (Rendering.render g t u levels) i s s') :
    Calm size s' ∧ s'.catalog.stack = id :: rest ∧ (n.isExpanded = false → s' = s) ∧
      (n.symbol = ⟨"column_ref"⟩ → (s'.catalog.segment id).cursor.IsChosen) := by
  obtain ⟨text, hrender⟩ := hrenders
  have hleaves := h i n id rest s hn hready
  rw [hrender] at hleaves
  exact ⟨hleaves.1, hleaves.2.1, hleaves.2.2 n hn⟩

omit [RandomSource ρ] in
theorem Ready.of_ne {m : Node} (hcalm : Calm size s) (hstack : s.catalog.stack = id :: rest)
    (hbound : id < size) (hm : t.nodes[i]? = some m) (hne : m.symbol ≠ ⟨"col_alias"⟩) :
    Ready t size id rest i s := by
  refine ⟨hcalm, hstack, hbound, fun m' hm' halias => ?_⟩
  cases hm.symm.trans hm'
  exact absurd halias hne

theorem chain_calm (h : Behaves (ρ := ρ) g t u size levels) (hbound : id < size) {l : List Nat}
    (hl : ∀ c ∈ l, ∃ m, t.nodes[c]? = some m ∧ m.symbol ≠ ⟨"col_alias"⟩)
    (hchain : Chain (Renders (Rendering.render g t u levels)) l s s')
    (hs : Calm size s ∧ s.catalog.stack = id :: rest) :
    Calm size s' ∧ s'.catalog.stack = id :: rest := by
  refine hchain.keeps (P := fun s => Calm size s ∧ s.catalog.stack = id :: rest) ?_ hs
  rintro c hc s₁ s₂ ⟨hcalm, hstack⟩ hrenders
  obtain ⟨m, hm, hne⟩ := hl c hc
  obtain ⟨hcalm', hstack', -⟩ := h.leaves hm (.of_ne hcalm hstack hbound hm hne) hrenders
  exact ⟨hcalm', hstack'⟩

/-- The alias of a column has its turn right after the column. -/
theorem alias_ready (hg : IsCore g) (ht : t.Derives g [])
    (h : Behaves (ρ := ρ) g t u size levels) {before after : List Nat} {c : Nat}
    (hforall : List.Forall₂
      (fun c name => ∃ m, t.nodes[c]? = some m ∧ m.symbol = ⟨name⟩ ∧ m.parent = some (i : Int))
      (before ++ c :: after) ["column_ref", "AS", "col_alias"])
    (hchain : Chain (Renders (Rendering.render g t u levels)) before s s')
    (hbound : id < size) (hcalm : Calm size s) (hstack : s.catalog.stack = id :: rest) :
    Ready t size id rest c s' := by
  rcases before with _ | ⟨x, before⟩
  · obtain ⟨⟨m, hm, hsymbol, -⟩, -⟩ := List.forall₂_cons.mp hforall
    cases hchain
    exact .of_ne hcalm hstack hbound hm (by simp [hsymbol])
  obtain ⟨⟨mx, hx, hxsymbol, -⟩, hforall⟩ := List.forall₂_cons.mp hforall
  cases hchain with
  | @cons _ _ _ s₁ _ head tail =>
    obtain ⟨hcalm₁, hstack₁, -, hchosen₁⟩ :=
      h.leaves hx (.of_ne hcalm hstack hbound hx (by simp [hxsymbol])) head
    rcases before with _ | ⟨y, before⟩
    · obtain ⟨⟨m, hm, hsymbol, -⟩, -⟩ := List.forall₂_cons.mp hforall
      cases tail
      exact .of_ne hcalm₁ hstack₁ hbound hm (by simp [hsymbol])
    obtain ⟨⟨my, hy, hysymbol, -⟩, hforall⟩ := List.forall₂_cons.mp hforall
    cases tail with
    | @cons _ _ _ s₂ _ head tail =>
      -- the keyword between them is a terminal
      have hterminal : my.isExpanded = false := by
        by_contra hexp
        rw [Bool.not_eq_false] at hexp
        obtain ⟨right, generator, representer, hmem, -⟩ := hg.takes ht hy hexp
        rw [hysymbol] at hmem
        cases hmem
      obtain ⟨-, -, hsame, -⟩ :=
        h.leaves hy (.of_ne hcalm₁ hstack₁ hbound hy (by simp [hysymbol])) head
      cases hsame hterminal
      rcases before with _ | ⟨z, before⟩
      · cases tail
        exact ⟨hcalm₁, hstack₁, hbound, fun _ _ _ => hchosen₁ hxsymbol⟩
      · cases hforall with
        | cons _ hnone => cases before <;> cases hnone

/-- In the middle of the children of a node, the next one has its turn. -/
theorem turn_ready (hg : IsCore g) (ht : t.Derives g [])
    (h : Behaves (ρ := ρ) g t u size levels) {right : List String}
    {generator : Option Generator} {representer : Representer}
    (hmem : (right, generator, representer) ∈ alternatives n.symbol.name)
    (htakes : Takes t i n right generator representer) {before after : List Nat} {c : Nat}
    (hparts : renderOrder t n representer = before ++ c :: after)
    (hchain : Chain (Renders (Rendering.render g t u levels)) before s s')
    (hbound : id < size) (hcalm : Calm size s) (hstack : s.catalog.stack = id :: rest) :
    Ready t size id rest c s' := by
  have hin : ∀ k ∈ before ++ c :: after, ∃ m, t.nodes[k]? = some m ∧ m.symbol.name ∈ right := by
    intro k hk
    obtain ⟨name, hname, m, hm, hsymbol, -⟩ :=
      forall₂_mem_left htakes.children (mem_renderOrder (hparts ▸ hk))
    exact ⟨m, hm, hsymbol ▸ hname⟩
  -- only an alias needs more than a calm scope: the column before it
  by_cases halias : "col_alias" ∈ right
  · obtain ⟨rfl, rfl⟩ := columnAlias_right hmem halias
    have hforall := htakes.children
    rw [show n.children = before ++ c :: after from hparts] at hforall
    exact alias_ready hg ht h hforall hchain hbound hcalm hstack
  · have hne : ∀ k ∈ before ++ c :: after,
        ∃ m, t.nodes[k]? = some m ∧ m.symbol ≠ ⟨"col_alias"⟩ := by
      intro k hk
      obtain ⟨m, hm, hname⟩ := hin k hk
      exact ⟨m, hm, fun heq => halias (by rw [heq] at hname; exact hname)⟩
    obtain ⟨hcalm', hstack'⟩ := chain_calm h hbound
      (fun k hk => hne k (List.mem_append_left _ hk)) hchain ⟨hcalm, hstack⟩
    obtain ⟨m, hm, hne⟩ := hne c (List.mem_append_right _ List.mem_cons_self)
    exact .of_ne hcalm' hstack' hbound hm hne

omit [RandomSource ρ] in
/-- The scope in which the first child has its turn. -/
theorem entered_inner (hnumbered : t.Numbered size) {right : List String}
    {generator : Option Generator} {representer : Representer}
    (hmem : (right, generator, representer) ∈ alternatives n.symbol.name)
    (htakes : Takes t i n right generator representer) (hn : t.nodes[i]? = some n)
    (hready : Ready t size id rest i s) :
    ∃ id' rest', Inner n id rest id' rest' ∧ id' < size ∧ Calm size (entered n representer s) ∧
      (entered n representer s).catalog.stack = id' :: rest' := by
  rcases entered_cases hmem htakes s with ⟨-, hsegment, heq⟩ | ⟨id', -, hsegment, heq⟩
  · rw [heq]
    exact ⟨id, rest, .inr ⟨hsegment, rfl, rfl⟩, hready.bound, hready.calm, hready.stack⟩
  · rw [heq]
    refine ⟨id', id :: rest, .inl ⟨hsegment, rfl⟩, hnumbered.range i n id' hn hsegment,
      hready.calm.restacked _, ?_⟩
    exact congrArg (id' :: ·) hready.stack

/-- The scope when all the children were rendered. -/
theorem children_calm (hg : IsCore g) (ht : t.Derives g [])
    (h : Behaves (ρ := ρ) g t u size levels) {right : List String}
    {generator : Option Generator} {representer : Representer}
    (hmem : (right, generator, representer) ∈ alternatives n.symbol.name)
    (htakes : Takes t i n right generator representer)
    (hchain : Chain (Renders (Rendering.render g t u levels)) (renderOrder t n representer) s s')
    (hbound : id < size) (hcalm : Calm size s) (hstack : s.catalog.stack = id :: rest) :
    Calm size s' ∧ s'.catalog.stack = id :: rest := by
  rcases List.eq_nil_or_concat (renderOrder t n representer) with hnone | ⟨before, c, hparts⟩
  · rw [hnone] at hchain
    cases hchain
    exact ⟨hcalm, hstack⟩
  · rw [List.concat_eq_append] at hparts
    rw [hparts] at hchain
    obtain ⟨s₁, hbefore, hlast⟩ := hchain.split
    have hready := turn_ready hg ht h hmem htakes hparts hbefore hbound hcalm hstack
    have hc : c ∈ renderOrder t n representer := by
      rw [hparts]
      exact List.mem_append_right _ List.mem_cons_self
    obtain ⟨name, -, m, hm, -⟩ := forall₂_mem_left htakes.children (mem_renderOrder hc)
    obtain ⟨hcalm', hstack', -⟩ := h.leaves hm hready hlast.singleton
    exact ⟨hcalm', hstack'⟩

/-- The only child of an output is its column. -/
theorem output_chosen (h : Behaves (ρ := ρ) g t u size levels) {right : List String}
    {generator : Option Generator}
    (hmem : (right, generator, Representer.outputColumn) ∈ alternatives n.symbol.name)
    (htakes : Takes t i n right generator .outputColumn)
    (hchain : Chain (Renders (Rendering.render g t u levels)) n.children s s')
    (hbound : id < size) (hcalm : Calm size s) (hstack : s.catalog.stack = id :: rest) :
    (s'.catalog.segment id).cursor.IsChosen := by
  have hright := outputColumn_right hmem rfl
  simp only at hright
  subst hright
  obtain ⟨c, none, ⟨m, hm, hsymbol, -⟩, hnone, hchildren⟩ :=
    List.forall₂_cons_right_iff.mp htakes.children
  cases hnone
  rw [hchildren] at hchain
  obtain ⟨-, -, -, hchosen⟩ :=
    h.leaves hm (.of_ne hcalm hstack hbound hm (by simp [hsymbol])) hchain.singleton
  exact hchosen hsymbol

/-! ### Every node -/

theorem behaves_zero : Behaves (ρ := ρ) g t u size 0 := fun _ _ _ _ _ _ hready =>
  ⟨hready.stack, .tooDeep .here⟩

theorem Inner.same {id' : SegmentId} {rest' : List SegmentId} (h : Inner n id rest id' rest')
    (hsegment : n.segment = none) : id' = id ∧ rest' = rest := by
  rcases h with ⟨hsome, -⟩ | ⟨-, hid, hrest⟩
  · rw [hsegment] at hsome
    cases hsome
  · exact ⟨hid, hrest⟩

theorem Inner.opened {id' block : SegmentId} {rest' : List SegmentId}
    (h : Inner n id rest id' rest') (hsegment : n.segment = some block) :
    id' = block ∧ rest' = id :: rest := by
  rcases h with ⟨hsome, hrest⟩ | ⟨hnone, -, -⟩
  · exact ⟨Option.some.inj (hsome.symm.trans hsegment), hrest⟩
  · rw [hsegment] at hnone
    cases hnone

/-- When all the children were rendered, the representer comes to its conclusion. -/
theorem children_conclude (hg : IsCore g) (ht : t.Derives g [])
    (h : Behaves (ρ := ρ) g t u size levels) (hn : t.nodes[i]? = some n) {right : List String}
    {generator : Option Generator} {representer : Representer} {id' : SegmentId}
    {rest' : List SegmentId} (hmem : (right, generator, representer) ∈ alternatives n.symbol.name)
    (htakes : Takes t i n right generator representer) (hready : Ready t size id rest i s)
    (hinner : Inner n id rest id' rest') (hbound : id' < size)
    (hcalm : Calm size (entered n representer s))
    (hstack : (entered n representer s).catalog.stack = id' :: rest')
    (hchain : Chain (Renders (Rendering.render g t u levels)) (renderOrder t n representer)
      (entered n representer s) s') :
    Calm size s' ∧ s'.catalog.stack = id' :: rest' ∧
      ∀ texts, Concluded representer id' rest' s' (conclude t u n texts representer s') := by
  obtain ⟨hcalm', hstack'⟩ := children_calm hg ht h hmem htakes hchain hbound hcalm hstack
  refine ⟨hcalm', hstack', conclude_spec hmem htakes hbound hcalm' hstack' ?_⟩
  rintro (rfl | rfl)
  · exact output_chosen h hmem htakes hchain hbound hcalm hstack
  · cases hchain
    have hsymbol : n.symbol = ⟨"col_alias"⟩ := congrArg Symbol.mk ((columnAlias_iff hmem).mp rfl)
    rcases entered_cases hmem htakes s with ⟨-, hsegment, heq⟩ | ⟨-, hblock, -⟩
    · obtain ⟨rfl, rfl⟩ := hinner.same hsegment
      rw [heq]
      exact hready.chosen n hn hsymbol
    · cases hblock

omit [RandomSource ρ] in
/-- What the representer leaves behind. -/
theorem conclude_leaves {right : List String} {generator : Option Generator}
    {representer : Representer} {id' : SegmentId} {rest' : List SegmentId} {s₁ : Scope ρ}
    (hn : t.nodes[i]? = some n) (hexp : n.isExpanded = true)
    (hmem : (right, generator, representer) ∈ alternatives n.symbol.name)
    (htakes : Takes t i n right generator representer) (hinner : Inner n id rest id' rest')
    (hcalm : Calm size s₁) (hstack : s₁.catalog.stack = id' :: rest')
    {result : EStateM.Result Halt (Scope ρ) String}
    (h : Concluded representer id' rest' s₁ result) : Leaves t size id rest levels i s result := by
  -- what is left to show when the operation succeeds
  have hok : ∀ {text : String} {s' : Scope ρ}, Calm size s' → s'.catalog.stack = id :: rest →
      (representer = .columnRef → (s'.catalog.segment id).cursor.IsChosen) →
      Leaves t size id rest levels i s (.ok text s') := by
    intro text s' hcalm' hstack' href
    refine ⟨hcalm', hstack', fun m hm => ?_⟩
    cases hn.symm.trans hm
    exact ⟨fun hunexp => absurd (hexp.symm.trans hunexp) (by simp), fun hsymbol =>
      href ((columnRef_iff hmem).mpr (congrArg Symbol.name hsymbol))⟩
  have hsame : representer ≠ .block → id' = id ∧ rest' = rest := fun hne => by
    rcases entered_cases hmem htakes s with ⟨-, hsegment, -⟩ | ⟨-, hblock, -⟩
    · exact hinner.same hsegment
    · exact absurd hblock hne
  cases h with
  | stays passive =>
    obtain ⟨rfl, rfl⟩ := hsame fun h => passive (h ▸ by decide)
    exact hok hcalm hstack fun h => absurd (h ▸ by decide) passive
  | leaves closes =>
    rcases entered_cases hmem htakes s with ⟨hne, -, -⟩ | ⟨block, -, hsegment, -⟩
    · exact absurd closes hne
    · exact hok (hcalm.restacked _) (hinner.opened hsegment).2 fun h =>
        absurd (closes.symm.trans h) (by simp)
  | notes writes noted chosen =>
    obtain ⟨rfl, rfl⟩ := hsame fun h => absurd writes (h ▸ by decide)
    obtain ⟨changed, minted, sources, free, -⟩ := noted
    exact hok (hcalm.changed changed minted sources free) (changed.stack_eq.trans hstack) chosen
  | stub stubbed =>
    obtain ⟨rfl, rfl⟩ := hsame fun h => absurd (stubbed.symm.trans h) (by simp)
    exact ⟨hstack, .stub .here hn (congrArg Symbol.mk ((unimplemented_iff hmem).mp stubbed)) hexp⟩

/-- What a node leaves behind when one of its children was given up. -/
theorem abandon_leaves {right : List String} {generator : Option Generator}
    {representer : Representer} {id' : SegmentId} {rest' : List SegmentId} {c : Nat}
    {halt : Halt} {s₁ : Scope ρ} (hn : t.nodes[i]? = some n)
    (hmem : (right, generator, representer) ∈ alternatives n.symbol.name)
    (htakes : Takes t i n right generator representer) (hinner : Inner n id rest id' rest')
    (hc : c ∈ n.children) (hstack : s₁.catalog.stack = id' :: rest')
    (hexcused : Excused t levels c halt) :
    Leaves t size id rest (levels + 1) i s (abandon n halt representer s₁) := by
  rcases entered_cases hmem htakes s with ⟨hne, hsegment, -⟩ | ⟨block, rfl, hsegment, -⟩
  · obtain ⟨rfl, rfl⟩ := hinner.same hsegment
    rw [abandon_of_ne hne]
    exact ⟨hstack, hexcused.above hn hc⟩
  · rw [abandon_block hsegment hstack]
    exact ⟨(hinner.opened hsegment).2, hexcused.above hn hc⟩

theorem behaves_succ (hg : IsCore g) (ht : t.Derives g []) (hnumbered : t.Numbered size)
    (h : Behaves (ρ := ρ) g t u size levels) : Behaves (ρ := ρ) g t u size (levels + 1) := by
  intro i n id rest s hn hready
  cases hexp : n.isExpanded with
  | false =>
    rw [render_terminal hn hexp]
    refine ⟨hready.calm, hready.stack, fun m hm => ⟨fun _ => rfl, fun hsymbol => ?_⟩⟩
    cases hn.symm.trans hm
    have hexp' := hg.isExpanded ht hn (hsymbol ▸ List.cons_ne_nil _ _)
    rw [hexp] at hexp'
    cases hexp'
  | true =>
    obtain ⟨right, generator, representer, hmem, htakes⟩ := hg.takes ht hn hexp
    obtain ⟨id', rest', hinner, hbound, hcalm, hstack⟩ :=
      entered_inner hnumbered hmem htakes hn hready
    rcases render_cases (g := g) (u := u) hn hexp htakes.representer s with
      ⟨texts, s₁, hchain, hrun⟩ | ⟨halt, s₁, hstops, hrun⟩
    · rw [hrun]
      obtain ⟨hcalm₁, hstack₁, hconcluded⟩ :=
        children_conclude hg ht h hn hmem htakes hready hinner hbound hcalm hstack hchain
      exact conclude_leaves hn hexp hmem htakes hinner hcalm₁ hstack₁ (hconcluded texts)
    · rw [hrun]
      cases hstops with
      | @child before after c s₂ hparts hbefore halted =>
        have hin : c ∈ renderOrder t n representer := by
          rw [hparts]
          exact List.mem_append_right _ List.mem_cons_self
        have hc := mem_renderOrder hin
        obtain ⟨name, -, m, hm, -⟩ := forall₂_mem_left htakes.children hc
        have hchild := turn_ready hg ht h hmem htakes hparts hbefore hbound hcalm hstack
        have hleaves := h c m id' rest' s₂ hm hchild
        rw [halted] at hleaves
        exact abandon_leaves hn hmem htakes hinner hc hleaves.1 hleaves.2

theorem behaves (hg : IsCore g) (ht : t.Derives g []) (hnumbered : t.Numbered size)
    (levels : Nat) : Behaves (ρ := ρ) g t u size levels := by
  induction levels with
  | zero => exact behaves_zero
  | succ levels ih => exact behaves_succ hg ht hnumbered ih

/-- The scope that a finished growth leaves to the rendering. -/
theorem Finished.ready {job : Job} {source : ρ} {r : Growth ρ} (h : Finished job source r) :
    ∃ n id, r.tree.nodes[0]? = some n ∧ n.segment = some id ∧
      Ready r.tree r.scope.catalog.segments.size id [] 0 r.scope := by
  obtain ⟨n, id, hn, hsymbol, hsegment, hstack⟩ := h.root
  have hcalm : Calm r.scope.catalog.segments.size r.scope :=
    ⟨rfl, h.shared, fun k => (h.plain k).toKeyed, fun k => (h.plain k).cursor ▸ trivial⟩
  exact ⟨n, id, hn, hsegment, .of_ne hcalm hstack (h.numbered.range 0 n id hn hsegment) hn
    (by simp [hsymbol])⟩

end ProbeForge.SelectCore
