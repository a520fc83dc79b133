import ProbeForge.Derivation.Rendering
import ProbeForge.Proofs.Derivation.Replay

/-!
# Visits of a rendering

Whatever represents a node, its children are rendered in some order and one after the other, and an
operation of the representer's own follows. So what the rendering of a tree does to the scope is a
matter of what these operations do, and each node has a state in which its turn comes.
-/

namespace ProbeForge

namespace Rendering

variable {ρ : Type} {u : Universe} {tree : Tree} {node : Node}
  {render : Nat → RenderM ρ String} {l : List Nat} {s s' : Scope ρ} {halt : Halt}

/-! ### Children in their order -/

/-- A node was rendered. -/
def Renders (render : Nat → RenderM ρ String) (i : Nat) (s s' : Scope ρ) : Prop :=
  ∃ text, render i s = .ok text s'

theorem bind_result {ε σ α β : Type} (m : EStateM ε σ α) (f : α → EStateM ε σ β) (s : σ) :
    (m >>= f) s = match m s with
      | .ok a s => f a s
      | .error e s => .error e s := rfl

theorem pure_result {ε σ α : Type} (a : α) (s : σ) :
    (pure a : EStateM ε σ α) s = .ok a s := rfl

theorem inScope_ok {α : Type} {run : ScopeAttempt ρ α} {a : α} (h : run s = .ok a s') :
    inScope run s = .ok a s' := by
  unfold inScope EStateM.adaptExcept
  rw [h]

theorem mapM_cons_result {ε σ α β : Type} (f : α → EStateM ε σ β) (a : α) (l : List α) (s : σ) :
    (a :: l).mapM f s = match f a s with
      | .ok b s => match l.mapM f s with
        | .ok bs s => .ok (b :: bs) s
        | .error e s => .error e s
      | .error e s => .error e s := by
  rw [List.mapM_cons, bind_result]
  cases f a s with
  | error e s => rfl
  | ok b s =>
    simp only [bind_result]
    cases l.mapM f s <;> rfl

/-- A part of the children was rendered and then the rendering of one ended it all. -/
inductive Stops (render : Nat → RenderM ρ String) (l : List Nat) (s : Scope ρ) (halt : Halt)
    (s' : Scope ρ) : Prop where
  | child {before after : List Nat} {c : Nat} {s₁ : Scope ρ} (parts : l = before ++ c :: after)
      (rendered : Chain (Renders render) before s s₁) (halted : render c s₁ = .error halt s')

theorem mapM_cases (render : Nat → RenderM ρ String) (l : List Nat) (s : Scope ρ) :
    (∃ texts s', l.mapM render s = .ok texts s' ∧ Chain (Renders render) l s s') ∨
      ∃ halt s', l.mapM render s = .error halt s' ∧ Stops render l s halt s' := by
  induction l generalizing s with
  | nil => exact .inl ⟨[], s, rfl, .nil⟩
  | cons c l ih =>
    rw [mapM_cons_result]
    cases hc : render c s with
    | error halt s' => exact .inr ⟨halt, s', rfl, .child rfl .nil hc⟩
    | ok text s₁ =>
      have hfirst : Renders render c s s₁ := ⟨text, hc⟩
      rcases ih s₁ with ⟨texts, s', hl, hchain⟩ | ⟨halt, s', hl, parts, hchain, halted⟩
      · exact .inl ⟨text :: texts, s', by simp only [hl], .cons hfirst hchain⟩
      · refine .inr ⟨halt, s', by simp only [hl], ?_⟩
        exact .child (congrArg (c :: ·) parts) (.cons hfirst hchain) halted

/-! ### Normal form of a representation -/

/-- The children, those that open a block before the others. -/
def blocksOrder (tree : Tree) (children : List Nat) : List Nat :=
  let positions := List.range children.length
  let opens (k : Nat) : Bool := opensBlock tree (children.getD k 0)
  (positions.filter opens ++ positions.filter (!opens ·)).map (children.getD · 0)

/-- The children that a representer has rendered, in the order in which it does it. -/
def renderOrder (tree : Tree) (node : Node) : Representer → List Nat
  | .spaced | .tight | .tightUnary | .tightBinary | .tightParen | .commaList | .outputColumn =>
    node.children
  | .payloadText => if node.payload.isNone then node.children else []
  | .sourcesFirst => blocksOrder tree node.children
  | .block => if node.segment.isNone then [] else node.children
  | .unimplemented | .payloadName | .payloadSchema | .sequenceLiteral | .tableName | .tableAlias
  | .columnName | .columnRef | .columnAlias | .schemaName | .blockEnd => []

theorem mem_blocksOrder {children : List Nat} {c : Nat} (h : c ∈ blocksOrder tree children) :
    c ∈ children := by
  obtain ⟨k, hk, rfl⟩ := List.mem_map.mp h
  have hrange : k ∈ List.range children.length := by
    rcases List.mem_append.mp hk with hk | hk <;> exact List.mem_of_mem_filter hk
  have hlt := List.mem_range.mp hrange
  rw [List.getD_eq_getElem?_getD, List.getElem?_eq_getElem hlt]
  exact List.getElem_mem hlt

theorem blocksOrder_eq (tree : Tree) (children : List Nat) :
    blocksOrder tree children =
      children.filter (opensBlock tree) ++ children.filter (!opensBlock tree ·) := by
  have hall : (List.range children.length).map (children.getD · 0) = children := by
    refine List.ext_getElem (by simp) fun k hk hk' => ?_
    simp [List.getD_eq_getElem?_getD, List.getElem?_eq_getElem hk']
  unfold blocksOrder
  dsimp only
  rw [List.map_append]
  conv_rhs => rw [← hall, List.filter_map, List.filter_map]
  rfl

theorem blocksOrder_nodup {children : List Nat} (h : children.Nodup) :
    (blocksOrder tree children).Nodup := by
  rw [blocksOrder_eq]
  exact (List.filter_append_perm _ _).nodup_iff.mpr h

/-- The first child that opens a block comes first. -/
theorem blocksOrder_head {l : List Nat} {c : Nat} (l' : List Nat)
    (hl : ∀ k ∈ l, opensBlock tree k = false) (hc : opensBlock tree c = true) :
    ∃ tail, blocksOrder tree (l ++ c :: l') = c :: tail := by
  have hnone : l.filter (opensBlock tree) = [] :=
    List.filter_eq_nil_iff.mpr fun k hk => by simp [hl k hk]
  rw [blocksOrder_eq, List.filter_append, hnone, List.filter_cons, if_pos hc]
  exact ⟨_, rfl⟩

theorem mem_renderOrder {representer : Representer} {c : Nat}
    (h : c ∈ renderOrder tree node representer) : c ∈ node.children := by
  cases representer
  case spaced | tight | tightUnary | tightBinary | tightParen | commaList | outputColumn => exact h
  case sourcesFirst => exact mem_blocksOrder h
  case payloadText =>
    change c ∈ if node.payload.isNone then node.children else [] at h
    split at h
    · exact h
    · cases h
  case block =>
    change c ∈ if node.segment.isNone then [] else node.children at h
    split at h
    · cases h
    · exact h
  all_goals cases h

theorem renderOrder_nodup (tree : Tree) (representer : Representer) (h : node.children.Nodup) :
    (renderOrder tree node representer).Nodup := by
  cases representer
  case spaced | tight | tightUnary | tightBinary | tightParen | commaList | outputColumn => exact h
  case sourcesFirst => exact blocksOrder_nodup h
  case payloadText =>
    change (if node.payload.isNone then node.children else []).Nodup
    split
    · exact h
    · exact List.nodup_nil
  case block =>
    change (if node.segment.isNone then [] else node.children).Nodup
    split
    · exact List.nodup_nil
    · exact h
  all_goals exact List.nodup_nil

/-- The scope in which the children are rendered. -/
def entered (node : Node) (representer : Representer) (s : Scope ρ) : Scope ρ :=
  match representer, node.segment with
  | .block, some id => (Scope.enter id s).2
  | _, _ => s

/-- To enter a block changes nothing in the segments. -/
theorem entered_segment (node : Node) (representer : Representer) (s : Scope ρ) (k : SegmentId) :
    (entered node representer s).catalog.segment k = s.catalog.segment k := by
  unfold entered
  split <;> rfl

theorem entered_eq {node : Node} (hsegment : node.segment = none) (representer : Representer)
    (s : Scope ρ) : entered node representer s = s := by
  unfold entered
  rw [hsegment]
  cases representer <;> rfl

/-- What a representer does with the texts of the children. -/
def conclude [RandomSource ρ] (tree : Tree) (u : Universe) (node : Node) (texts : List String) :
    Representer → RenderM ρ String
  | .block =>
    match node.segment with
    | none => represent tree u node (fun _ => pure "") .block
    | some _ => do
      let _ ← inScope Scope.pop
      return joinTexts " " texts
  | .outputColumn => do
    let _ ← inScope Scope.exportColumn
    return joinTexts " " texts
  | .spaced => return joinTexts " " texts
  | .tight => return joinTexts "" texts
  | .tightUnary | .tightBinary => return joinStripped texts
  | .tightParen => return parenthesized texts
  | .commaList => return String.ofList (closeCommas (joinTexts " " texts).toList)
  | .payloadText =>
    match node.payload with
    | none => return joinTexts " " texts
    | some payload => do return payloadText (← get) payload
  | .sourcesFirst =>
    let positions := List.range node.children.length
    let opens (k : Nat) : Bool := opensBlock tree (node.children.getD k 0)
    let order := positions.filter opens ++ positions.filter (!opens ·)
    return joinTexts " " (positions.map fun k => ((order.zip texts).lookup k).getD "")
  | representer => represent tree u node (fun _ => pure "") representer

/-- A block is left when its rendering is given up. -/
def abandon [RandomSource ρ] (node : Node) (halt : Halt) : Representer → RenderM ρ String
  | .block => do
    if node.segment.isSome then
      let _ ← inScope Scope.pop
    throw halt
  | _ => throw halt

theorem mapM_zip {ε σ α β γ : Type} (f : β → EStateM ε σ γ) (g : α → β) (l : List α) (s : σ) :
    (l.mapM fun k => do return (k, ← f (g k))) s = match (l.map g).mapM f s with
      | .ok texts s => .ok (l.zip texts) s
      | .error e s => .error e s := by
  induction l generalizing s with
  | nil => rfl
  | cons k l ih =>
    rw [List.map_cons, mapM_cons_result, mapM_cons_result]
    cases hk : f (g k) s with
    | error e s₁ => simp only [bind_result, hk]
    | ok text s₁ =>
      simp only [bind_result, hk, pure_result, ih]
      cases (l.map g).mapM f s₁ <;> rfl

theorem inBlock_result {α : Type} (id : SegmentId) (body : RenderM ρ α) (s : Scope ρ) :
    inBlock id body s = match body (Scope.enter id s).2 with
      | .ok a s => match inScope Scope.pop s with
        | .ok _ s => .ok a s
        | .error halt s => .error halt s
      | .error halt s => match inScope Scope.pop s with
        | .ok _ s => .error halt s
        | .error halt s => .error halt s := rfl

theorem represent_eq [RandomSource ρ] (tree : Tree) (u : Universe) (node : Node)
    (render : Nat → RenderM ρ String) (representer : Representer) (s : Scope ρ) :
    represent tree u node render representer s =
      match (renderOrder tree node representer).mapM render (entered node representer s) with
      | .ok texts s => conclude tree u node texts representer s
      | .error halt s => abandon node halt representer s := by
  cases representer
  case spaced | tight | tightUnary | tightBinary | tightParen | commaList | outputColumn =>
    simp only [represent, renderOrder, entered, conclude, abandon, map_eq_pure_bind, bind_result]
    cases node.children.mapM render s <;> rfl
  case sourcesFirst =>
    simp only [represent, renderOrder, entered, conclude, abandon, map_eq_pure_bind, bind_result,
      blocksFirst, blocksOrder, mapM_zip]
    cases (List.map (node.children.getD · 0) _).mapM render s <;> rfl
  case payloadText =>
    simp only [represent, renderOrder, entered, conclude, abandon]
    cases node.payload with
    | none =>
      simp only [Option.isNone_none, if_true, map_eq_pure_bind, bind_result]
      cases node.children.mapM render s <;> rfl
    | some payload => rfl
  case block =>
    simp only [represent, renderOrder, entered, conclude, abandon]
    cases node.segment with
    | none => rfl
    | some id =>
      simp only [inBlock_result, map_eq_pure_bind, bind_result, Option.isNone_some,
        Option.isSome_some, Bool.false_eq_true, if_false, if_true]
      cases node.children.mapM render (Scope.enter id s).2 with
      | ok texts s₁ =>
        simp only [pure_result]
        cases inScope (ρ := ρ) Scope.pop s₁ <;> rfl
      | error halt s₁ =>
        dsimp only
        cases inScope (ρ := ρ) Scope.pop s₁ <;> rfl
  all_goals rfl

/-! ### Visits -/

section Visits

variable [RandomSource ρ] {g : Grammar} {levels i : Nat} {representer : Representer}

theorem render_expanded (hn : tree.nodes[i]? = some node) (hexp : node.isExpanded = true)
    (hresolve : Representer.resolve node.representer = .ok representer) (s : Scope ρ) :
    Rendering.render g tree u (levels + 1) i s =
      represent tree u node (Rendering.render g tree u levels) representer s := by
  rw [Rendering.render, hn]
  dsimp only
  rw [if_pos hexp, hresolve]

theorem render_terminal (hn : tree.nodes[i]? = some node) (hunexp : node.isExpanded = false)
    (s : Scope ρ) :
    Rendering.render g tree u (levels + 1) i s = .ok (g.textOf node.symbol).plain s := by
  rw [Rendering.render, hn]
  dsimp only
  rw [if_neg (by simp [hunexp])]
  rfl

/-- A node with a representer, the way its children are gone through and what comes of it. -/
theorem render_cases (hn : tree.nodes[i]? = some node) (hexp : node.isExpanded = true)
    (hresolve : Representer.resolve node.representer = .ok representer) (s : Scope ρ) :
    (∃ texts s₁, Chain (Renders (Rendering.render g tree u levels))
          (renderOrder tree node representer) (entered node representer s) s₁ ∧
        Rendering.render g tree u (levels + 1) i s = conclude tree u node texts representer s₁) ∨
      ∃ halt s₁, Stops (Rendering.render g tree u levels) (renderOrder tree node representer)
          (entered node representer s) halt s₁ ∧
        Rendering.render g tree u (levels + 1) i s = abandon node halt representer s₁ := by
  rw [render_expanded hn hexp hresolve, represent_eq]
  rcases mapM_cases (Rendering.render g tree u levels) (renderOrder tree node representer)
    (entered node representer s) with ⟨texts, s₁, hrun, hchain⟩ | ⟨halt, s₁, hrun, hstops⟩
  · exact .inl ⟨texts, s₁, hchain, by rw [hrun]⟩
  · exact .inr ⟨halt, s₁, hstops, by rw [hrun]⟩

theorem abandon_error (node : Node) (representer : Representer) (halt : Halt) (s : Scope ρ) :
    ∃ halt' s', abandon node halt representer s = .error halt' s' := by
  cases representer
  case block =>
    unfold abandon
    cases node.segment with
    | none => exact ⟨halt, s, rfl⟩
    | some id =>
      simp only [Option.isSome_some, if_true, bind_result]
      cases inScope (ρ := ρ) Scope.pop s with
      | ok a s' => exact ⟨halt, s', rfl⟩
      | error halt' s' => exact ⟨halt', s', rfl⟩
  all_goals exact ⟨halt, s, rfl⟩

theorem abandon_of_ne (hne : representer ≠ .block) (halt : Halt) (s : Scope ρ) :
    abandon node halt representer s = .error halt s := by
  cases representer <;> first | exact absurd rfl hne | rfl

/-- A node is rendered when its children are. -/
theorem render_ok (hn : tree.nodes[i]? = some node) (hexp : node.isExpanded = true)
    (hresolve : Representer.resolve node.representer = .ok representer) {text : String}
    (h : Rendering.render g tree u (levels + 1) i s = .ok text s') :
    ∃ texts s₁, Chain (Renders (Rendering.render g tree u levels))
        (renderOrder tree node representer) (entered node representer s) s₁ ∧
      conclude tree u node texts representer s₁ = .ok text s' := by
  rcases render_cases (g := g) (u := u) hn hexp hresolve s with
    ⟨texts, s₁, hchain, hrun⟩ | ⟨halt, s₁, -, hrun⟩
  · exact ⟨texts, s₁, hchain, hrun.symm.trans h⟩
  · obtain ⟨halt', s₂, herror⟩ := abandon_error node representer halt s₁
    cases (herror.symm.trans hrun.symm).trans h

/-- While the tree below `i` is rendered from `s`, the turn of `j` comes in `s'`. Before it the
nodes `done` were rendered, with all that is below them. -/
inductive Visits (g : Grammar) (tree : Tree) (u : Universe) :
    Nat → Nat → Scope ρ → List Nat → Nat → Nat → Scope ρ → Prop where
  | here {levels i : Nat} {s : Scope ρ} : Visits g tree u levels i s [] levels i s
  | down {levels i levels' j c : Nat} {node : Node} {representer : Representer}
      {before after done : List Nat} {s s₁ s' : Scope ρ} (found : tree.nodes[i]? = some node)
      (expanded : node.isExpanded = true)
      (resolved : Representer.resolve node.representer = .ok representer)
      (parts : renderOrder tree node representer = before ++ c :: after)
      (rendered : Chain (Renders (Rendering.render g tree u levels)) before
        (entered node representer s) s₁)
      (visits : Visits g tree u levels c s₁ done levels' j s') :
      Visits g tree u (levels + 1) i s (before ++ done) levels' j s'

/-- The nodes are a way down on which only terminals have their turn before. -/
def leads (tree : Tree) : List Nat → Bool
  | i :: c :: path =>
    (match tree.nodes[i]? with
      | none => false
      | some node =>
        match Representer.resolve node.representer with
        | .error _ => false
        | .ok representer =>
          let order := renderOrder tree node representer
          node.isExpanded && (List.range order.length).any fun k =>
            order[k]? == some c && (order.take k).all fun j =>
              tree.nodes[j]?.any (!·.isExpanded)) && leads tree (c :: path)
  | _ => true

theorem renders_terminals {l : List Nat}
    (h : ∀ k ∈ l, tree.nodes[k]?.any (!·.isExpanded) = true) (s : Scope ρ) :
    Chain (Renders (Rendering.render g tree u (levels + 1))) l s s := by
  induction l with
  | nil => exact .nil
  | cons k l ih =>
    obtain ⟨node, hn, hunexp⟩ := (Option.any_eq_true _ _).mp (h k List.mem_cons_self)
    exact .cons ⟨_, render_terminal hn (by simpa using hunexp) s⟩
      (ih fun j hj => h j (List.mem_cons_of_mem _ hj))

theorem visits_of_leads {path : List Nat} (h : leads tree (i :: path) = true) (levels : Nat)
    (s : Scope ρ) : ∃ done s', Visits g tree u (path.length + (levels + 1)) i s done (levels + 1)
      (path.getLastD i) s' := by
  induction path generalizing i s with
  | nil => exact ⟨[], s, by rw [List.length_nil, Nat.zero_add]; exact .here⟩
  | cons c path ih =>
    rw [leads, Bool.and_eq_true] at h
    obtain ⟨hstep, hpath⟩ := h
    split at hstep
    case h_1 => cases hstep
    case h_2 node hn =>
      split at hstep
      case h_1 => cases hstep
      case h_2 representer hresolve =>
        rw [Bool.and_eq_true, List.any_eq_true] at hstep
        obtain ⟨hexp, k, -, hturn⟩ := hstep
        rw [Bool.and_eq_true, beq_iff_eq, List.all_eq_true] at hturn
        obtain ⟨hc, hterminals⟩ := hturn
        obtain ⟨hk, rfl⟩ := List.getElem?_eq_some_iff.mp hc
        obtain ⟨done, s', hvisits⟩ := ih hpath (entered node representer s)
        have hparts : renderOrder tree node representer =
            (renderOrder tree node representer).take k ++
              (renderOrder tree node representer)[k] ::
                (renderOrder tree node representer).drop (k + 1) := by
          rw [← List.drop_eq_getElem_cons hk, List.take_append_drop]
        refine ⟨(renderOrder tree node representer).take k ++ done, s', ?_⟩
        rw [List.length_cons, Nat.add_right_comm, List.getLastD_cons]
        exact .down hn hexp hresolve hparts (renders_terminals hterminals _) hvisits

end Visits

end Rendering

end ProbeForge
