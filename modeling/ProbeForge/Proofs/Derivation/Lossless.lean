import ProbeForge.Proofs.Derivation.Descent
import ProbeForge.Proofs.Derivation.Rendering
import ProbeForge.Proofs.Text.Blank
import ProbeForge.Random.MersenneTwister

/-!
# Texts of structural trees

A structural representer puts the texts of the children together: it strips and joins them, closes
up commas or writes the parentheses anew, and may render the children out of order. Apart from
blanks the text of a tree is still what its leaves say, from left to right.
-/

namespace ProbeForge

open Text

namespace Rendering

/-! ### Texts of children -/

theorem inked_joinTexts {between : String} (h : inked between = []) (texts : List String) :
    inked (joinTexts between texts) = texts.flatMap inked := by
  rw [joinTexts, inked_strip, inked_intercalate h, flatMap_inked_filter]

theorem inked_joinStripped (texts : List String) :
    inked (joinStripped texts) = texts.flatMap inked := by
  rw [joinStripped, inked_join, List.flatMap_map]
  simp only [inked_strip]

/-- Only spaces are left out before commas. -/
theorem filter_closeCommas (cs : List Char) :
    (closeCommas cs).filter (!isBlank ·) = cs.filter (!isBlank ·) := by
  fun_induction closeCommas cs with
  | case1 rest ih =>
    rw [List.filter_cons_of_pos (by decide), List.filter_cons_of_neg (by decide),
      List.filter_cons_of_pos (by decide), ih]
  | case2 c rest _ ih => rw [List.filter_cons, List.filter_cons, ih]
  | case3 => rfl

theorem inked_closeCommas (text : String) :
    inked (String.ofList (closeCommas text.toList)) = inked text := by
  rw [inked, String.toList_ofList]
  exact filter_closeCommas text.toList

theorem inked_parenthesized (left inner right : String) :
    inked (parenthesized [left, inner, right]) = '(' :: inked inner ++ [')'] := by
  unfold parenthesized
  rw [inked_append, inked_append, inked_strip]
  rfl

/-- Texts of children that were taken in any order are put back into theirs. -/
theorem map_lookup_zip {children order : List Nat} (h : ∀ k < children.length, k ∈ order)
    (f : Nat → String) :
    (List.range children.length).map (fun k =>
      ((order.zip ((order.map (children.getD · 0)).map f)).lookup k).getD "") =
      children.map f := by
  have hzip : order.zip ((order.map (children.getD · 0)).map f) =
      order.map fun k => (k, f (children.getD k 0)) := by
    rw [List.map_map, ← List.map_prod_left_eq_zip]
    rfl
  rw [hzip]
  refine List.ext_getElem (by simp) fun k hk hk' => ?_
  rw [List.length_map] at hk'
  rw [List.getElem_map, List.getElem_range, List.lookup_graph _ (h k hk'), List.getElem_map]
  simp [hk']

variable {ρ : Type} {u : Universe} {g : Grammar} {tree : Tree} {node : Node}
  {render : Nat → RenderM ρ String} {l : List Nat} {i levels : Nat} {s : Scope ρ}

theorem mapM_texts {f : Nat → String} (h : ∀ c ∈ l, ∀ s, render c s = .ok (f c) s)
    (s : Scope ρ) : l.mapM render s = .ok (l.map f) s := by
  induction l with
  | nil => rfl
  | cons c l ih =>
    obtain ⟨hc, hl⟩ := List.forall_mem_cons.mp h
    rw [mapM_cons_result, hc]
    simp only [ih hl, List.map_cons]

/-- The text of a node is the same in every scope, which stays as it is, or its tree is too deep
to render. -/
inductive Settles (render : Nat → RenderM ρ String) (i : Nat) (deep : Prop) (ink : List Char) :
    Prop where
  | written {text : String} (shallow : ¬ deep) (renders : ∀ s, render i s = .ok text s)
      (inked_eq : inked text = ink) : Settles render i deep ink
  | tooDeep (beyond : deep) (halts : ∀ s, render i s = .error .tooDeep s) :
      Settles render i deep ink

theorem mapM_tooDeep {deep : Nat → Prop} {ink : Nat → List Char}
    (h : ∀ c ∈ l, Settles render c (deep c) (ink c)) (hdeep : ∃ c ∈ l, deep c) (s : Scope ρ) :
    l.mapM render s = .error .tooDeep s := by
  induction l with
  | nil =>
    obtain ⟨c, hc, -⟩ := hdeep
    cases hc
  | cons c l ih =>
    obtain ⟨hc, hl⟩ := List.forall_mem_cons.mp h
    rw [mapM_cons_result]
    cases hc with
    | tooDeep _ halts => rw [halts]
    | written shallow renders _ =>
      obtain ⟨c', hc', hdeep⟩ := hdeep
      rcases List.mem_cons.mp hc' with rfl | hc'
      · exact absurd hdeep shallow
      · simp only [renders, ih hl ⟨c', hc', hdeep⟩]

/-- Children that settle have texts, unless one is too deep. -/
theorem exists_texts {deep : Nat → Prop} {ink : Nat → List Char}
    (h : ∀ c ∈ l, Settles render c (deep c) (ink c)) (hshallow : ∀ c ∈ l, ¬ deep c) :
    ∃ f : Nat → String, ∀ c ∈ l, (∀ s, render c s = .ok (f c) s) ∧ inked (f c) = ink c := by
  have hone : ∀ c ∈ l, ∃ text, (∀ s, render c s = .ok text s) ∧ inked text = ink c := by
    intro c hc
    cases h c hc with
    | written _ renders inked_eq => exact ⟨_, renders, inked_eq⟩
    | tooDeep beyond _ => exact absurd beyond (hshallow c hc)
  choose! f hf using hone
  exact ⟨f, hf⟩

end Rendering

/-! ### Leaves -/

/-- Children come later than their parents, and only expanded nodes have any. -/
structure Tree.Ordered (t : Tree) : Prop where
  later : ∀ (i : Nat) (n : Node), t.nodes[i]? = some n → ∀ c ∈ n.children, i < c ∧ c < t.size
  bare : ∀ (i : Nat) (n : Node), t.nodes[i]? = some n → n.isExpanded = false → n.children = []

/-- So it is in every tree that a growth leaves. -/
theorem Tree.Derives.ordered {g : Grammar} {t : Tree} {pending : List Nat}
    (h : t.Derives g pending) : t.Ordered where
  later i n hn c hc := by
    obtain ⟨-, hlt, m, hm, -⟩ := h.child hn hc
    exact ⟨hlt, lt_size hm⟩
  bare i n hn hunexp := (h.bare i n hn hunexp).1

theorem Tree.Ordered.walk_eq {t : Tree} {n : Node} {i : Nat} (ht : t.Ordered)
    (hn : t.nodes[i]? = some n) (d : Nat) :
    t.walk i d = (d, i) :: n.children.flatMap (t.walk · (d + 1)) := by
  have hchildren : t.childrenOf i = n.children := by simp [childrenOf, hn]
  rw [walk, if_pos (lt_size hn), hchildren]
  refine congrArg ((d, i) :: ·) (List.flatMap_congr fun c hc => ?_)
  rw [if_pos (ht.later i n hn c hc)]

namespace Rendering

/-- The text of a terminal, and the text that a generator left to be written out. -/
def ownTexts (g : Grammar) (node : Node) : List String :=
  if node.isExpanded then
    match Representer.resolve node.representer, node.payload with
    | .ok .payloadText, some (.text t) => [t]
    | _, _ => []
  else [(g.textOf node.symbol).plain]

/-- The texts of the leaves on a walk. -/
def leafTexts (g : Grammar) (tree : Tree) (steps : List (Nat × Nat)) : List String :=
  steps.flatMap fun step => tree.nodes[step.2]?.elim [] (ownTexts g)

variable {ρ : Type} {u : Universe} {g : Grammar} {tree : Tree} {node : Node} {i d : Nat}

theorem leafTexts_walk (ht : tree.Ordered) (hn : tree.nodes[i]? = some node) :
    leafTexts g tree (tree.walk i d) =
      ownTexts g node ++ node.children.flatMap fun c => leafTexts g tree (tree.walk c (d + 1)) := by
  rw [ht.walk_eq hn, leafTexts, List.flatMap_cons, hn, List.flatMap_assoc]
  rfl

/-! ### Structural representers -/

/-- Representers that only put the texts of the children together. -/
def gathering : List Representer :=
  [.spaced, .tight, .tightUnary, .tightBinary, .commaList, .sourcesFirst]

variable [RandomSource ρ]

/-- The node is rendered as the text, but for blanks around it. -/
def Reads (ρ : Type) [RandomSource ρ] (g : Grammar) (tree : Tree) (u : Universe) (i : Nat)
    (text : String) : Prop :=
  ∃ (levels : Nat) (s s' : Scope ρ) (written : String),
    render g tree u levels i s = .ok written s' ∧ strip written = text

/-- A representer adds no text to those of the children and leaves none out. A text that was
generated stands on a leaf, and parentheses are written in place of parentheses. -/
inductive Structural (ρ : Type) [RandomSource ρ] (g : Grammar) (tree : Tree) (u : Universe)
    (node : Node) : Representer → Prop where
  | gathers {representer : Representer} (mem : representer ∈ gathering) :
      Structural ρ g tree u node representer
  | inner (bare : node.payload = none) : Structural ρ g tree u node .payloadText
  | leaf {text : String} (childless : node.children = [])
      (payload : node.payload = some (.text text)) : Structural ρ g tree u node .payloadText
  | parens {a b c : Nat} (children : node.children = [a, b, c]) (opens : Reads ρ g tree u a "(")
      (closes : Reads ρ g tree u c ")") : Structural ρ g tree u node .tightParen

variable {representer : Representer}

omit [RandomSource ρ] in
theorem mem_blocksOrder_iff {children : List Nat} {c : Nat} :
    c ∈ blocksOrder tree children ↔ c ∈ children := by
  rw [blocksOrder_eq]
  exact (List.filter_append_perm _ _).mem_iff

/-- A structural representer renders every child in the scope that it finds. -/
theorem Structural.renders_all (h : Structural ρ g tree u node representer) :
    (∀ c, c ∈ renderOrder tree node representer ↔ c ∈ node.children) ∧
      ∀ s : Scope ρ, entered node representer s = s := by
  cases h with
  | gathers mem =>
    simp only [gathering, List.mem_cons, List.not_mem_nil, or_false] at mem
    rcases mem with rfl | rfl | rfl | rfl | rfl | rfl
    case inr.inr.inr.inr.inr => exact ⟨fun c => mem_blocksOrder_iff, fun s => rfl⟩
    all_goals exact ⟨fun c => Iff.rfl, fun s => rfl⟩
  | inner bare =>
    refine ⟨fun c => ?_, fun s => rfl⟩
    simp [renderOrder, bare]
  | leaf childless payload =>
    refine ⟨fun c => ?_, fun s => rfl⟩
    simp [renderOrder, childless]
  | parens => exact ⟨fun c => Iff.rfl, fun s => rfl⟩

theorem Structural.abandon_eq (h : Structural ρ g tree u node representer) (halt : Halt)
    (s : Scope ρ) : abandon node halt representer s = .error halt s := by
  cases h with
  | gathers mem =>
    simp only [gathering, List.mem_cons, List.not_mem_nil, or_false] at mem
    rcases mem with rfl | rfl | rfl | rfl | rfl | rfl <;> rfl
  | inner | leaf | parens => rfl

/-- What a structural representer makes of the texts of the children. -/
theorem Structural.conclude_ok (h : Structural ρ g tree u node representer)
    (hexp : node.isExpanded = true)
    (hresolve : Representer.resolve node.representer = .ok representer) (f : Nat → String)
    (hreads : ∀ c ∈ node.children, ∀ text, Reads ρ g tree u c text → inked (f c) = inked text) :
    ∃ text, (∀ s : Scope ρ, conclude tree u node ((renderOrder tree node representer).map f)
        representer s = .ok text s) ∧
      inked text =
        (ownTexts g node).flatMap inked ++ node.children.flatMap fun c => inked (f c) := by
  -- only what a generator left is a text of the node's own
  have hown : representer ≠ .payloadText → ownTexts g node = [] := by
    intro hne
    rw [ownTexts, if_pos hexp, hresolve]
    cases representer <;> first | rfl | exact absurd rfl hne
  have hspaced : ∀ between, inked between = [] → inked (joinTexts between (node.children.map f)) =
      node.children.flatMap fun c => inked (f c) := fun between hblank => by
    rw [inked_joinTexts hblank, List.flatMap_map]
  cases h with
  | gathers mem =>
    simp only [gathering, List.mem_cons, List.not_mem_nil, or_false] at mem
    rw [hown (by rintro rfl; simp at mem), List.flatMap_nil, List.nil_append]
    rcases mem with rfl | rfl | rfl | rfl | rfl | rfl
    · exact ⟨_, fun s => rfl, hspaced " " rfl⟩
    · exact ⟨_, fun s => rfl, hspaced "" rfl⟩
    · exact ⟨_, fun s => rfl, by rw [inked_joinStripped, List.flatMap_map]; rfl⟩
    · exact ⟨_, fun s => rfl, by rw [inked_joinStripped, List.flatMap_map]; rfl⟩
    · exact ⟨_, fun s => rfl, (inked_closeCommas _).trans (hspaced " " rfl)⟩
    · refine ⟨joinTexts " " (node.children.map f), fun s => ?_, hspaced " " rfl⟩
      refine congrArg (EStateM.Result.ok · s) (congrArg (joinTexts " ") (map_lookup_zip ?_ f))
      exact fun k hk => (List.filter_append_perm _ _).mem_iff.mpr (List.mem_range.mpr hk)
  | inner bare =>
    refine ⟨joinTexts " " (node.children.map f), fun s => ?_, ?_⟩
    · simp only [Rendering.conclude, renderOrder, bare]
      rfl
    · rw [hspaced " " rfl, ownTexts, if_pos hexp, hresolve, bare]
      rfl
  | @leaf text childless payload =>
    refine ⟨text, fun s => ?_, ?_⟩
    · simp only [Rendering.conclude, payload]
      rfl
    · rw [ownTexts, if_pos hexp, hresolve, payload, childless]
      simp
  | @parens a b c children opens closes =>
    have hopen : inked (f a) = ['('] := hreads a (by simp [children]) "(" opens
    have hclose : inked (f c) = [')'] := hreads c (by simp [children]) ")" closes
    refine ⟨parenthesized [f a, f b, f c], fun s => ?_, ?_⟩
    · simp only [Rendering.conclude, renderOrder, children]
      rfl
    · rw [hown (by decide), inked_parenthesized, children]
      simp [hopen, hclose]

/-! ### Trees -/

/-- Whether every expanded node of the tree has a structural representer. -/
def IsStructural (ρ : Type) [RandomSource ρ] (g : Grammar) (tree : Tree) (u : Universe) : Prop :=
  ∀ (i : Nat) (node : Node), tree.nodes[i]? = some node → node.isExpanded = true →
    ∃ representer, Representer.resolve node.representer = .ok representer ∧
      Structural ρ g tree u node representer

/-- A parenthesis is what the ink of a node that reads as one comes to. -/
theorem Reads.ink_eq {text : String} {deep : Nat → Prop} {ink : List Char}
    (h : Reads ρ g tree u i text)
    (hsettles : ∀ levels, Settles (render (ρ := ρ) g tree u levels) i (deep levels) ink) :
    ink = inked text := by
  obtain ⟨levels, s, s', written, hrun, rfl⟩ := h
  cases hsettles levels with
  | tooDeep _ halts => cases (halts s).symm.trans hrun
  | written _ renders inked_eq =>
    cases (renders s).symm.trans hrun
    rw [inked_strip, inked_eq]

/-- A node with a structural representer settles with its children. -/
theorem settles_expanded {deep : Nat → Nat → Prop} {ink : Nat → List Char}
    (hn : tree.nodes[i]? = some node) (hexp : node.isExpanded = true)
    (hresolve : Representer.resolve node.representer = .ok representer)
    (hstructural : Structural ρ g tree u node representer)
    (hchildren : ∀ c ∈ node.children, ∀ levels,
      Settles (render (ρ := ρ) g tree u levels) c (deep c levels) (ink c)) (levels : Nat) :
    Settles (render (ρ := ρ) g tree u (levels + 1)) i (∃ c ∈ node.children, deep c levels)
      ((ownTexts g node).flatMap inked ++ node.children.flatMap ink) := by
  obtain ⟨hall, hentered⟩ := hstructural.renders_all
  have horder : ∀ c ∈ renderOrder tree node representer,
      Settles (render (ρ := ρ) g tree u levels) c (deep c levels) (ink c) :=
    fun c hc => hchildren c ((hall c).mp hc) levels
  -- one child that is too deep ends the rendering, whichever were rendered before
  by_cases hdeep : ∃ c ∈ node.children, deep c levels
  case pos =>
    refine .tooDeep hdeep fun s => ?_
    obtain ⟨c, hc, hstep⟩ := hdeep
    rw [render_expanded hn hexp hresolve, represent_eq, hentered,
      mapM_tooDeep horder ⟨c, (hall c).mpr hc, hstep⟩]
    exact hstructural.abandon_eq _ s
  case neg =>
    obtain ⟨f, hf⟩ := exists_texts horder fun c hc hstep => hdeep ⟨c, (hall c).mp hc, hstep⟩
    obtain ⟨text, hconclude, hink⟩ := hstructural.conclude_ok hexp hresolve f fun c hc text hreads =>
      (hf c ((hall c).mpr hc)).2.trans (hreads.ink_eq (hchildren c hc))
    have hrender : ∀ s : Scope ρ, render g tree u (levels + 1) i s = .ok text s := fun s => by
      rw [render_expanded hn hexp hresolve, represent_eq, hentered,
        mapM_texts fun c hc => (hf c hc).1]
      exact hconclude s
    refine .written hdeep hrender (hink.trans (congrArg _ ?_))
    exact List.flatMap_congr fun c hc => (hf c ((hall c).mpr hc)).2

theorem settles (ht : tree.Ordered) (h : IsStructural ρ g tree u) (hi : i < tree.size)
    (levels d : Nat) : Settles (render (ρ := ρ) g tree u levels) i
      (∃ step ∈ tree.walk i d, d + levels ≤ step.1)
      ((leafTexts g tree (tree.walk i d)).flatMap inked) := by
  -- on the places that follow, since children come later; parentheses are read at any levels
  induction hsize : tree.size - i using Nat.strongRecOn generalizing i levels d with
  | ind size ih =>
    obtain ⟨node, hn⟩ : ∃ n, tree.nodes[i]? = some n := ⟨_, Array.getElem?_eq_getElem hi⟩
    have hwalk := ht.walk_eq hn d
    cases levels with
    | zero => exact .tooDeep ⟨(d, i), by simp [hwalk], Nat.le_refl d⟩ fun s => rfl
    | succ levels =>
      have hchildren : ∀ c ∈ node.children, ∀ levels, Settles (render (ρ := ρ) g tree u levels) c
          (∃ step ∈ tree.walk c (d + 1), d + 1 + levels ≤ step.1)
          ((leafTexts g tree (tree.walk c (d + 1))).flatMap inked) := by
        intro c hc levels
        obtain ⟨hlt, hbound⟩ := ht.later i node hn c hc
        exact ih (tree.size - c) (by omega) hbound levels (d + 1) rfl
      -- the children are one level lower, and so is where they end
      have hdeep : (∃ step ∈ tree.walk i d, d + (levels + 1) ≤ step.1) ↔
          ∃ c ∈ node.children, ∃ step ∈ tree.walk c (d + 1), d + 1 + levels ≤ step.1 := by
        rw [hwalk, show d + (levels + 1) = d + 1 + levels by omega]
        simp only [List.exists_mem_cons_iff, List.mem_flatMap]
        constructor
        · rintro (hle | ⟨step, ⟨c, hc, hstep⟩, hle⟩)
          · omega
          · exact ⟨c, hc, step, hstep, hle⟩
        · rintro ⟨c, hc, step, hstep, hle⟩
          exact .inr ⟨step, ⟨c, hc, hstep⟩, hle⟩
      rw [hdeep, leafTexts_walk ht hn, List.flatMap_append, List.flatMap_assoc]
      cases hexp : node.isExpanded with
      | false =>
        refine .written ?_ (render_terminal hn hexp) ?_
        · simp [ht.bare i node hn hexp]
        · simp [ht.bare i node hn hexp, ownTexts, hexp]
      | true =>
        obtain ⟨representer, hresolve, hstructural⟩ := h i node hn hexp
        exact settles_expanded hn hexp hresolve hstructural hchildren levels

/-- Whatever the scope is, the text of a structural tree says what its leaves say from left to right,
apart from blanks, and the scope stays as it is. Only depth keeps a tree from being rendered. -/
theorem render_lossless (ht : tree.Ordered) (h : IsStructural ρ g tree u) (hi : i < tree.size)
    (levels : Nat) (s : Scope ρ) :
    (∃ text, render g tree u levels i s = .ok text s ∧
        inked text = (leafTexts g tree (tree.walk i 0)).flatMap inked ∧
        ∀ step ∈ tree.walk i 0, step.1 < levels) ∨
      render g tree u levels i s = .error .tooDeep s ∧
        ∃ step ∈ tree.walk i 0, levels ≤ step.1 := by
  have hsettles := settles (u := u) ht h hi levels 0
  rw [Nat.zero_add] at hsettles
  cases hsettles with
  | written shallow renders inked_eq =>
    refine .inl ⟨_, renders s, inked_eq, fun step hstep => ?_⟩
    exact Nat.lt_of_not_le fun hle => shallow ⟨step, hstep, hle⟩
  | tooDeep beyond halts => exact .inr ⟨halts s, beyond⟩

/-- A test for two values, the second of which has a blank in it. Its list is rendered first. -/
def membership : Tree :=
  let node (name : String) (representer : Json) (children : List Nat) (payload : Option Payload)
      (segment : Option SegmentId) : Node :=
    { symbol := ⟨name⟩, parent := none, children, payload, segment, representer,
      ruleName := some name }
  ⟨#[node "test" "sources_first" [1, 2] none none, .fresh ⟨" in "⟩ none,
    node "list" "tight_paren" [3, 4, 5] none (some 0), .fresh ⟨"("⟩ none,
    node "values" "comma_list" [6, 7, 8] none none, .fresh ⟨")"⟩ none,
    node "value" "payload_text" [] (some (.text "1")) none, .fresh ⟨","⟩ none,
    node "value" "payload_text" [] (some (.text "'a b'")) none]⟩

theorem render_lossless_membership :
    membership.Ordered ∧ IsStructural MersenneTwister (.empty .null) membership .empty ∧
      ∃ text, render (.empty .null) membership .empty levels 0
          (⟨.empty, RandomSource.seeded 0⟩ : Scope MersenneTwister) =
        .ok text ⟨.empty, RandomSource.seeded 0⟩ ∧ inked text = "in(1,'ab')".toList := by
  have hordered : membership.Ordered := by
    have hlater : ∀ i : Fin 9, ∀ c ∈ (membership.nodes[i]).children, i.val < c ∧ c < 9 := by decide
    have hbare : ∀ i : Fin 9, (membership.nodes[i]).isExpanded = false →
        (membership.nodes[i]).children = [] := by decide
    constructor
    · intro i n hn
      obtain ⟨hi, rfl⟩ := Array.getElem?_eq_some_iff.mp hn
      exact hlater ⟨i, hi⟩
    · intro i n hn
      obtain ⟨hi, rfl⟩ := Array.getElem?_eq_some_iff.mp hn
      exact hbare ⟨i, hi⟩
  have hstructural : IsStructural MersenneTwister (.empty .null) membership .empty := by
    have hreads : ∀ i name, membership.nodes[i]? = some (.fresh ⟨name⟩ none) →
        Reads MersenneTwister (.empty .null) membership .empty i (strip name) := fun i name hn =>
      ⟨1, ⟨.empty, RandomSource.seeded 0⟩, _, _, render_terminal hn rfl _, rfl⟩
    intro i n hn hexp
    obtain ⟨hi, rfl⟩ := Array.getElem?_eq_some_iff.mp hn
    match i, hi with
    | 0, _ => exact ⟨.sourcesFirst, rfl, .gathers (by decide)⟩
    | 2, _ => exact ⟨.tightParen, rfl, .parens rfl (hreads 3 "(" rfl) (hreads 5 ")" rfl)⟩
    | 4, _ => exact ⟨.commaList, rfl, .gathers (by decide)⟩
    | 6, _ | 8, _ => exact ⟨.payloadText, rfl, .leaf rfl rfl⟩
    | 1, _ | 3, _ | 5, _ | 7, _ => cases hexp
  -- the nodes in the order of the text, though the list is rendered first
  have hwalk : membership.walk 0 0 =
      [(0, 0), (1, 1), (1, 2), (2, 3), (2, 4), (3, 6), (3, 7), (3, 8), (2, 5)] := by cbv
  have hshallow : ∀ step ∈ membership.walk 0 0, step.1 < levels := by
    rw [hwalk]
    decide
  refine ⟨hordered, hstructural, ?_⟩
  rcases render_lossless hordered hstructural (i := 0) (by decide) levels
    ⟨.empty, RandomSource.seeded 0⟩ with ⟨text, hrender, hink, -⟩ | ⟨-, step, hstep, hdeep⟩
  · refine ⟨text, hrender, hink.trans ?_⟩
    rw [hwalk]
    decide +kernel
  · exact absurd hdeep (Nat.not_le_of_lt (hshallow step hstep))

end Rendering

end ProbeForge
