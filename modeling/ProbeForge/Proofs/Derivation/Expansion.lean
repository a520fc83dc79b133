import Mathlib.Data.List.Forall2
import ProbeForge.Derivation.Growth
import ProbeForge.Proofs.Grammar.Coherence

/-!
# One expansion

What one turn of a growth can do. A nonterminal is expanded with a rule of its own; its generator
decides what the node holds, and its right side becomes new nodes at the end of the tree. Nodes that
were expanded before stay as they are.
-/

namespace ProbeForge

variable {ρ : Type} [RandomSource ρ]

/-! ### Generators -/

/-- What a generator leaves in its node. -/
def Generator.Leaves : Generator → Option Payload → Option SegmentId → Prop
  | openBlock, payload, segment => ∃ id, payload = some (.block id) ∧ segment = some id
  | registerTable, payload, segment | registerSchema, payload, segment
  | registerView, payload, segment | registerMaterializedView, payload, segment
  | registerSequence, payload, segment =>
    (∃ d, payload = some (.source d)) ∧ segment = none
  | closeBlock, payload, segment | defineAlias, payload, segment | integer, payload, segment
  | number, payload, segment | string, payload, segment =>
    (∃ text, payload = some (.text text)) ∧ segment = none

/-- What a node holds after its generator, if its rule names one. -/
def Holds : Option Generator → Option Payload → Option SegmentId → Prop
  | none, payload, segment => payload = none ∧ segment = none
  | some generator, payload, segment => generator.Leaves payload segment

/-- The segment that a node keeps. -/
def Generator.keptSegment (generator : Generator) (payload : Payload) : Option SegmentId :=
  match payload, generator.keepsSegment with
  | .block id, true => some id
  | _, _ => none

theorem map_attempt_ok {σ ε α β : Type} {f : α → β} {run : EStateM ε σ α} {s s' : σ} {b : β}
    (h : (f <$> run) s = .ok b s') : ∃ a, run s = .ok a s' ∧ f a = b := by
  change EStateM.map f run s = _ at h
  unfold EStateM.map at h
  split at h
  · cases h
    exact ⟨_, by assumption, rfl⟩
  · cases h

theorem Generator.leaves_of_run {u : Universe} {generator : Generator} {s s' : Scope ρ}
    {payload : Payload} (h : generator.run u s = .ok payload s') :
    generator.Leaves (some payload) (generator.keptSegment payload) := by
  cases generator
  case openBlock =>
    cases h
    exact ⟨_, rfl, rfl⟩
  case closeBlock =>
    unfold run at h
    dsimp only at h
    split at h
    · cases h
      exact ⟨⟨_, rfl⟩, rfl⟩
    · cases h
  case integer | number | string =>
    cases h
    exact ⟨⟨_, rfl⟩, rfl⟩
  all_goals
    obtain ⟨a, -, rfl⟩ := map_attempt_ok h
    exact ⟨⟨a, rfl⟩, rfl⟩

/-- The run of the generator that a rule names, if any. -/
def Ran (u : Universe) (s : Scope ρ) : Option Generator → Option Payload → Option SegmentId →
    Scope ρ → Prop
  | none, payload, segment, s' => payload = none ∧ segment = none ∧ s' = s
  | some generator, payload, segment, s' =>
    ∃ p, generator.run u s = .ok p s' ∧ payload = some p ∧ segment = generator.keptSegment p

theorem Ran.holds {u : Universe} {s s' : Scope ρ} {generator : Option Generator}
    {payload : Option Payload} {segment : Option SegmentId}
    (h : Ran u s generator payload segment s') : Holds generator payload segment := by
  cases generator with
  | none => exact ⟨h.1, h.2.1⟩
  | some generator =>
    obtain ⟨p, hrun, rfl, rfl⟩ := h
    exact Generator.leaves_of_run hrun

/-! ### Trees -/

/-- A node with a rule applied, before its children are there. -/
def Node.filled (n : Node) (name : String) (entry : RuleEntry) (payload : Option Payload)
    (segment : Option SegmentId) : Node :=
  { n with ruleName := some name, representer := entry.representer, payload, segment }

namespace Tree

variable {t t' : Tree} {i : Nat}

theorem nodes_modify (t : Tree) (i : Nat) (f : Node → Node) (k : Nat) :
    (t.modify i f).nodes[k]? = if i = k then t.nodes[k]?.map f else t.nodes[k]? :=
  Array.getElem?_modify

theorem size_modify (t : Tree) (i : Nat) (f : Node → Node) : (t.modify i f).size = t.size :=
  Array.size_modify

theorem foldl_push_fresh (nodes : Array Node) (parent : Option Int) (symbols : List Symbol) :
    symbols.foldl (fun nodes s => nodes.push (.fresh s parent)) nodes =
      nodes ++ (symbols.map (Node.fresh · parent)).toArray := by
  induction symbols generalizing nodes with
  | nil => simp
  | cons s symbols ih => simp [ih]

theorem size_addChildren (t : Tree) (i : Nat) (symbols : List Symbol) :
    (t.addChildren i symbols).size = t.size + symbols.length := by
  rw [addChildren, size_modify, size, foldl_push_fresh]
  simp [size]

theorem nodes_addChildren (t : Tree) (i : Nat) (symbols : List Symbol) (k : Nat) (hi : i < t.size) :
    (t.addChildren i symbols).nodes[k]? =
      if i = k then
        t.nodes[k]?.map fun n =>
          { n with children := n.children ++ List.range' t.size symbols.length }
      else if k < t.size then t.nodes[k]?
      else symbols[k - t.size]?.map (Node.fresh · (some (i : Int))) := by
  rw [addChildren, nodes_modify]
  simp only [foldl_push_fresh]
  by_cases hk : k < t.size
  · rw [Array.getElem?_append_left hk]
    simp [hk]
  · have hik : i ≠ k := by omega
    rw [if_neg hik, if_neg hik, if_neg hk, Array.getElem?_append_right (Nat.not_lt.mp hk)]
    simp [size]

/-- The tree after a rule was applied to a node. -/
def expanded (t : Tree) (i : Nat) (name : String) (entry : RuleEntry) (payload : Option Payload)
    (segment : Option SegmentId) : Tree :=
  (t.modify i (·.filled name entry payload segment)).addChildren i entry.rule.right

/-- Nodes may be added and expanded; an expanded node stays as it is. -/
def Extends (t t' : Tree) : Prop :=
  ∀ (i : Nat) (n : Node), t.nodes[i]? = some n →
    ∃ n', t'.nodes[i]? = some n' ∧ n'.symbol = n.symbol ∧ n'.parent = n.parent ∧
      (n.isExpanded = true → n' = n)

theorem Extends.refl (t : Tree) : t.Extends t := fun _ n h => ⟨n, h, rfl, rfl, fun _ => rfl⟩

theorem Extends.trans {t'' : Tree} (h : t.Extends t') (h' : t'.Extends t'') : t.Extends t'' := by
  intro i n hn
  obtain ⟨n', hn', hsymbol, hparent, hkept⟩ := h i n hn
  obtain ⟨n'', hn'', hsymbol', hparent', hkept'⟩ := h' i n' hn'
  refine ⟨n'', hn'', hsymbol'.trans hsymbol, hparent'.trans hparent, fun hexp => ?_⟩
  cases hkept hexp
  exact hkept' hexp

theorem Extends.expanded_node (h : t.Extends t') {n : Node} (hn : t.nodes[i]? = some n)
    (hexp : n.isExpanded = true) : t'.nodes[i]? = some n := by
  obtain ⟨n', hn', -, -, hkept⟩ := h i n hn
  rw [hn', hkept hexp]

/-- What a node becomes when its rule is applied. -/
structure Follows (t : Tree) (i : Nat) (n : Node) (entry : RuleEntry) : Prop where
  left : entry.rule.left = n.symbol
  representer : n.representer = entry.representer
  children : List.Forall₂
    (fun c s => ∃ m, t.nodes[c]? = some m ∧ m.symbol = s ∧ m.parent = some (i : Int))
    n.children entry.rule.right
  later : ∀ c ∈ n.children, i < c
  distinct : n.children.Nodup
  holds : ∃ generator, Generator.resolve entry.generator = .ok generator ∧
    Holds generator n.payload n.segment

/-- A tree in which every expanded node follows a rule of the grammar and the others wait or are
terminals. -/
structure Derives (g : Grammar) (t : Tree) (pending : List Nat) : Prop where
  root : ∃ n, t.nodes[0]? = some n ∧ n.parent = none
  parent : ∀ (c : Nat) (n : Node), t.nodes[c]? = some n →
    c = 0 ∨ ∃ (p : Nat) (m : Node), n.parent = some (p : Int) ∧ t.nodes[p]? = some m ∧
      c ∈ m.children
  follows : ∀ (i : Nat) (n : Node), t.nodes[i]? = some n → n.isExpanded = true →
    ∃ entry ∈ g.table, t.Follows i n entry
  bare : ∀ (i : Nat) (n : Node), t.nodes[i]? = some n → n.isExpanded = false →
    n.children = [] ∧ n.payload = none ∧ n.segment = none ∧
      (i ∈ pending ∨ g.group? n.symbol = none)
  waiting : ∀ i ∈ pending, ∃ n, t.nodes[i]? = some n ∧ n.isExpanded = false
  once : pending.Nodup

variable {g : Grammar} {pending : List Nat}

theorem Follows.mono (hext : t.Extends t') {n : Node} {entry : RuleEntry}
    (h : t.Follows i n entry) : t'.Follows i n entry := by
  refine ⟨h.left, h.representer, h.children.imp ?_, h.later, h.distinct, h.holds⟩
  rintro c s ⟨m, hm, hsymbol, hparent⟩
  obtain ⟨m', hm', hsymbol', hparent', -⟩ := hext c m hm
  exact ⟨m', hm', hsymbol'.trans hsymbol, hparent'.trans hparent⟩

theorem derives_start (g : Grammar) (symbol : Symbol) :
    (empty.addRoot symbol).Derives g [0] := by
  have honly : ∀ {i : Nat} {n : Node}, (empty.addRoot symbol).nodes[i]? = some n →
      i = 0 ∧ n = .fresh symbol none := by
    intro i n h
    cases i with
    | zero => exact ⟨rfl, by simpa [empty, addRoot, eq_comm] using h⟩
    | succ i => simp [empty, addRoot] at h
  constructor
  case root => exact ⟨_, rfl, rfl⟩
  case parent =>
    intro c n h
    exact .inl (honly h).1
  case follows =>
    intro i n h hexp
    obtain ⟨-, rfl⟩ := honly h
    cases hexp
  case bare =>
    intro i n h hexp
    obtain ⟨rfl, rfl⟩ := honly h
    exact ⟨rfl, rfl, rfl, .inl List.mem_cons_self⟩
  case waiting =>
    intro i hi
    cases List.mem_singleton.mp hi
    exact ⟨_, rfl, rfl⟩
  case once => simp

/-- A terminal has had its turn when it is taken. -/
theorem Derives.skip (h : t.Derives g (i :: pending)) {n : Node} (hn : t.nodes[i]? = some n)
    (hterminal : g.group? n.symbol = none) : t.Derives g pending := by
  refine { h with
    bare := fun k m hm hexp => ?_
    waiting := fun k hk => h.waiting k (List.mem_cons_of_mem _ hk)
    once := (List.nodup_cons.mp h.once).2 }
  obtain ⟨hchildren, hpayload, hsegment, hwait⟩ := h.bare k m hm hexp
  refine ⟨hchildren, hpayload, hsegment, ?_⟩
  rcases hwait with hk | hnone
  · rcases List.mem_cons.mp hk with rfl | hk
    · cases hn.symm.trans hm
      exact .inr hterminal
    · exact .inl hk
  · exact .inr hnone

theorem Derives.expanded_of_mem (h : t.Derives g pending) {n : Node} (hn : t.nodes[i]? = some n)
    {c : Nat} (hc : c ∈ n.children) : n.isExpanded = true := by
  by_contra hno
  rw [Bool.not_eq_true] at hno
  rw [(h.bare i n hn hno).1] at hc
  cases hc

/-- Exactly the nonterminals of a finished tree are expanded. -/
theorem Derives.isNonterminal_eq (h : t.Derives g []) (hg : g.Grouped) {n : Node}
    (hn : t.nodes[i]? = some n) : g.isNonterminal n.symbol = n.isExpanded := by
  cases hexp : n.isExpanded with
  | true =>
    obtain ⟨entry, hentry, hfollows⟩ := h.follows i n hn hexp
    obtain ⟨group, hgroup, hleft⟩ := hg.owned entry hentry
    exact Grammar.isNonterminal_iff.mpr ⟨group, hgroup, hleft.trans hfollows.left⟩
  | false =>
    have hterminal := (h.bare i n hn hexp).2.2.2.resolve_left List.not_mem_nil
    rw [Grammar.isNonterminal, hterminal]
    rfl

section Expanding

variable {name : String} {entry : RuleEntry} {payload : Option Payload}
  {segment : Option SegmentId} {n : Node}

theorem lt_size {k : Nat} {m : Node} (h : t.nodes[k]? = some m) : k < t.size :=
  (Array.getElem?_eq_some_iff.mp h).1

theorem size_expanded : (t.expanded i name entry payload segment).size =
    t.size + entry.rule.right.length := by
  rw [expanded, size_addChildren, size_modify]

theorem nodes_expanded (hn : t.nodes[i]? = some n) (hbare : n.children = []) (k : Nat) :
    (t.expanded i name entry payload segment).nodes[k]? =
      if i = k then
        some { n.filled name entry payload segment with
          children := List.range' t.size entry.rule.right.length }
      else if k < t.size then t.nodes[k]?
      else entry.rule.right[k - t.size]?.map (Node.fresh · (some (i : Int))) := by
  have hi := lt_size hn
  rw [expanded, nodes_addChildren _ _ _ _ (by rwa [size_modify]), size_modify]
  by_cases hik : i = k
  · subst hik
    simp [nodes_modify, hn, Node.filled, hbare]
  · simp [nodes_modify, hik]

theorem expanded_self (hn : t.nodes[i]? = some n) (hbare : n.children = []) (name : String)
    (entry : RuleEntry) (payload : Option Payload) (segment : Option SegmentId) :
    (t.expanded i name entry payload segment).nodes[i]? = some
      { n.filled name entry payload segment with
        children := List.range' t.size entry.rule.right.length } :=
  (nodes_expanded hn hbare i).trans (if_pos rfl)

theorem expanded_other (hn : t.nodes[i]? = some n) (hbare : n.children = []) {k : Nat} {m : Node}
    (hik : i ≠ k) (hm : t.nodes[k]? = some m) :
    (t.expanded i name entry payload segment).nodes[k]? = some m := by
  rw [nodes_expanded hn hbare, if_neg hik, if_pos (lt_size hm), hm]

theorem expanded_child (hn : t.nodes[i]? = some n) (hbare : n.children = []) {k : Nat}
    (hk : k < entry.rule.right.length) :
    (t.expanded i name entry payload segment).nodes[t.size + k]? =
      some (.fresh entry.rule.right[k] (some (i : Int))) := by
  have hi := lt_size hn
  rw [nodes_expanded hn hbare, if_neg (by omega), if_neg (by omega), Nat.add_sub_cancel_left,
    List.getElem?_eq_getElem hk]
  rfl

/-- A node of an expanded tree is the expanded one, one that was there or a new child. -/
theorem expanded_cases (hn : t.nodes[i]? = some n) (hbare : n.children = []) {k : Nat} {m : Node}
    (hm : (t.expanded i name entry payload segment).nodes[k]? = some m) :
    (k = i ∧ m = { n.filled name entry payload segment with
      children := List.range' t.size entry.rule.right.length }) ∨
    (k ≠ i ∧ t.nodes[k]? = some m) ∨
    (k ∈ List.range' t.size entry.rule.right.length ∧ ∃ s, m = .fresh s (some (i : Int))) := by
  rw [nodes_expanded hn hbare] at hm
  split at hm
  case isTrue hik => exact .inl ⟨hik.symm, (Option.some.inj hm).symm⟩
  case isFalse hik =>
    split at hm
    · exact .inr (.inl ⟨Ne.symm hik, hm⟩)
    case isFalse hk =>
      obtain ⟨s, hs, rfl⟩ := Option.map_eq_some_iff.mp hm
      have := (List.getElem?_eq_some_iff.mp hs).1
      exact .inr (.inr ⟨List.mem_range'_1.mpr (by omega), s, rfl⟩)

theorem extends_expanded (hn : t.nodes[i]? = some n) (hbare : n.children = [])
    (hunexp : n.isExpanded = false) : t.Extends (t.expanded i name entry payload segment) := by
  intro k m hm
  by_cases hik : i = k
  · subst hik
    cases hn.symm.trans hm
    refine ⟨_, expanded_self hn hbare name entry payload segment, rfl, rfl, fun hexp => ?_⟩
    rw [hunexp] at hexp
    cases hexp
  · exact ⟨m, expanded_other hn hbare hik hm, rfl, rfl, fun _ => rfl⟩

theorem follows_expanded (hn : t.nodes[i]? = some n) (hbare : n.children = [])
    {generator : Option Generator} (hleft : entry.rule.left = n.symbol)
    (hgenerator : Generator.resolve entry.generator = .ok generator)
    (hholds : Holds generator payload segment) :
    (t.expanded i name entry payload segment).Follows i
      { n.filled name entry payload segment with
        children := List.range' t.size entry.rule.right.length } entry := by
  refine ⟨hleft, rfl, ?_, fun c hc => ?_, List.nodup_range', generator, hgenerator, hholds⟩
  · rw [List.forall₂_iff_get]
    refine ⟨by simp, fun k hk hk' => ?_⟩
    rw [List.length_range'] at hk
    refine ⟨.fresh entry.rule.right[k] (some (i : Int)), ?_, rfl, rfl⟩
    rw [List.get_eq_getElem, List.getElem_range', Nat.one_mul]
    exact expanded_child hn hbare hk
  · have := (List.mem_range'_1.mp hc).1
    have := lt_size hn
    omega

theorem Derives.expand (h : t.Derives g (i :: pending)) (hn : t.nodes[i]? = some n)
    {generator : Option Generator} (hentry : entry ∈ g.table) (hleft : entry.rule.left = n.symbol)
    (hgenerator : Generator.resolve entry.generator = .ok generator)
    (hholds : Holds generator payload segment) :
    (t.expanded i name entry payload segment).Derives g
      (List.range' t.size entry.rule.right.length ++ pending) := by
  obtain ⟨n', hn', hunexp⟩ := h.waiting i List.mem_cons_self
  cases hn.symm.trans hn'
  obtain ⟨hbare, -, -, -⟩ := h.bare i n hn hunexp
  have hext : t.Extends (t.expanded i name entry payload segment) :=
    extends_expanded hn hbare hunexp
  obtain ⟨hnot, honce⟩ := List.nodup_cons.mp h.once
  constructor
  case root =>
    obtain ⟨r, hr, hparent⟩ := h.root
    obtain ⟨r', hr', -, hparent', -⟩ := hext 0 r hr
    exact ⟨r', hr', hparent'.trans hparent⟩
  case parent =>
    -- parents of old nodes were expanded before, so they are as they were
    have hold : ∀ (c : Nat) (m : Node), t.nodes[c]? = some m → c = 0 ∨ ∃ (p : Nat) (q : Node),
        m.parent = some (p : Int) ∧
        (t.expanded i name entry payload segment).nodes[p]? = some q ∧ c ∈ q.children := by
      intro c m hm
      refine (h.parent c m hm).imp_right ?_
      rintro ⟨p, q, hparent, hq, hmem⟩
      exact ⟨p, q, hparent, hext.expanded_node hq (h.expanded_of_mem hq hmem), hmem⟩
    intro c m hm
    rcases expanded_cases hn hbare hm with ⟨rfl, rfl⟩ | ⟨-, hm⟩ | ⟨hc, s, rfl⟩
    · exact hold c n hn
    · exact hold c m hm
    · exact .inr ⟨i, _, rfl, expanded_self hn hbare name entry payload segment, hc⟩
  case follows =>
    intro k m hm hexp
    rcases expanded_cases hn hbare hm with ⟨rfl, rfl⟩ | ⟨-, hm⟩ | ⟨-, s, rfl⟩
    · exact ⟨entry, hentry, follows_expanded hn hbare hleft hgenerator hholds⟩
    · obtain ⟨old, hold, hfollows⟩ := h.follows k m hm hexp
      exact ⟨old, hold, hfollows.mono hext⟩
    · cases hexp
  case bare =>
    intro k m hm hexp
    rcases expanded_cases hn hbare hm with ⟨rfl, rfl⟩ | ⟨hk, hm⟩ | ⟨hk, s, rfl⟩
    · cases hexp
    · obtain ⟨hchildren, hpayload, hsegment, hwait⟩ := h.bare k m hm hexp
      refine ⟨hchildren, hpayload, hsegment, hwait.imp_left fun hmem => ?_⟩
      exact List.mem_append_right _ ((List.mem_cons.mp hmem).resolve_left hk)
    · exact ⟨rfl, rfl, rfl, .inl (List.mem_append_left _ hk)⟩
  case waiting =>
    intro k hk
    rcases List.mem_append.mp hk with hk | hk
    · obtain ⟨d, hd, rfl⟩ := List.mem_range'.mp hk
      rw [Nat.one_mul]
      exact ⟨_, expanded_child hn hbare hd, rfl⟩
    · obtain ⟨m, hm, hexp⟩ := h.waiting k (List.mem_cons_of_mem _ hk)
      have hik : i ≠ k := fun heq => hnot (heq ▸ hk)
      exact ⟨m, expanded_other hn hbare hik hm, hexp⟩
  case once =>
    refine List.nodup_append.mpr ⟨List.nodup_range', honce, fun k hk l hl heq => ?_⟩
    obtain ⟨m, hm, -⟩ := h.waiting l (List.mem_cons_of_mem _ hl)
    have := (List.mem_range'_1.mp hk).1
    have := lt_size hm
    omega

end Expanding

end Tree

end ProbeForge
