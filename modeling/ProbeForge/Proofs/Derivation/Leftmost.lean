import ProbeForge.Proofs.Derivation.Descent
import ProbeForge.Proofs.Derivation.Replay
import ProbeForge.Proofs.Numbered

/-!
# Growths are leftmost derivations

A growth takes the nodes of its finished tree in the order in which a walk meets them, and expands
those that have a rule. What it has passed and what still waits make up a sentential form, and each
expansion rewrites the leftmost nonterminal of the form before it.
-/

namespace ProbeForge

namespace Grammar

variable {g : Grammar}

/-! ### Names of rules -/

theorem RuleChoice.toList_name (c : RuleChoice) :
    c.name.toList = "Rule.".toList ++ c.entry.rule.left.name.toList ++
      '.' :: Nat.toDigits 10 c.index := by
  simp [name, toString, String.toList_append]

theorem RuleChoice.index_eq_of_name_eq {c c' : RuleChoice} (h : c.name = c'.name) :
    c.index = c'.index := by
  have hchars := congrArg String.toList h
  rw [toList_name, toList_name] at hchars
  exact (eq_of_append_digits (by decide) hchars).2

/-- The rules of the table with their places. -/
def choices (g : Grammar) : List RuleChoice := g.table.toList.mapIdx RuleChoice.mk

theorem mem_choices {c : RuleChoice} : c ∈ g.choices ↔ g.table[c.index]? = some c.entry := by
  obtain ⟨k, entry⟩ := c
  simp only [choices, List.mem_mapIdx, RuleChoice.mk.injEq, Array.getElem?_eq_some_iff]
  constructor
  · rintro ⟨i, hi, rfl, rfl⟩
    exact ⟨by simpa using hi, by simp⟩
  · rintro ⟨hk, rfl⟩
    exact ⟨k, by simpa using hk, rfl, by simp⟩

/-- The rule that a name stands for. -/
def ruleNamed? (g : Grammar) (name : String) : Option Rule :=
  (g.choices.find? (·.name == name)).map (·.entry.rule)

theorem ruleNamed?_name {c : RuleChoice} (h : g.table[c.index]? = some c.entry) :
    g.ruleNamed? c.name = some c.entry.rule := by
  obtain ⟨found, hfound⟩ : ∃ found, g.choices.find? (·.name == c.name) = some found :=
    Option.isSome_iff_exists.mp (List.find?_isSome.mpr ⟨c, mem_choices.mpr h, by simp⟩)
  have hlisted := mem_choices.mp (List.mem_of_find?_eq_some hfound)
  rw [RuleChoice.index_eq_of_name_eq (by simpa using List.find?_some hfound), h] at hlisted
  rw [ruleNamed?, hfound, Option.map_some, Option.some.inj hlisted]

/-! ### Sentential forms -/

/-- A form with its leftmost nonterminal rewritten, if that is the rule's left side. -/
def rewrite (g : Grammar) : List Symbol → Rule → Option (List Symbol)
  | [], _ => none
  | s :: form, rule =>
    if g.isNonterminal s then if s = rule.left then some (rule.right ++ form) else none
    else (g.rewrite form rule).map (s :: ·)

/-- The form after one rule after another was applied to the leftmost nonterminal. -/
def rewriteAll (g : Grammar) (form : List Symbol) (rules : List Rule) : Option (List Symbol) :=
  rules.foldlM g.rewrite form

theorem rewrite_append {before form : List Symbol} {rule : Rule}
    (hbefore : ∀ s ∈ before, g.isNonterminal s = false) (hleft : g.isNonterminal rule.left = true) :
    g.rewrite (before ++ rule.left :: form) rule = some (before ++ (rule.right ++ form)) := by
  induction before with
  | nil => simp [rewrite, hleft]
  | cons s before ih =>
    obtain ⟨hs, hrest⟩ := List.forall_mem_cons.mp hbefore
    simp [rewrite, hs, ih hrest]

theorem rewriteAll_concat {form form' : List Symbol} {rules : List Rule}
    (h : g.rewriteAll form rules = some form') (rule : Rule) :
    g.rewriteAll form (rules ++ [rule]) = g.rewrite form' rule := by
  unfold rewriteAll at h ⊢
  rw [List.foldlM_append, h]
  simp

end Grammar

/-! ### Walks -/

namespace Tree

variable {g : Grammar} {t : Tree} {pending : List Nat} {i : Nat} {n : Node}

/-- The places below and including `i` in the order of a walk. -/
def preorder (t : Tree) (i : Nat) : List Nat := (t.walk i 0).map (·.2)

theorem map_snd_walk (t : Tree) (i depth : Nat) : (t.walk i depth).map (·.2) = t.preorder i := by
  unfold preorder
  -- a walk goes on at later nodes only
  induction hsize : t.size - i using Nat.strongRecOn generalizing i depth with
  | ind size ih =>
    rw [walk, walk]
    split
    case isFalse => rfl
    case isTrue hi =>
      simp only [List.map_cons, List.map_flatMap, List.cons.injEq, true_and]
      refine List.flatMap_congr fun c _ => ?_
      split
      case isFalse => rfl
      case isTrue hc =>
        rw [ih (t.size - c) (by omega) c (depth + 1) rfl, ih (t.size - c) (by omega) c (0 + 1) rfl]

theorem Derives.preorder_eq (ht : t.Derives g pending) (hn : t.nodes[i]? = some n) :
    t.preorder i = i :: n.children.flatMap t.preorder := by
  have hchildren : t.childrenOf i = n.children := by simp [childrenOf, hn]
  rw [preorder, walk, if_pos (lt_size hn), hchildren, List.map_cons, List.map_flatMap]
  congr 1
  refine List.flatMap_congr fun c hc => ?_
  obtain ⟨-, hlt, m, hm, -⟩ := ht.child hn hc
  rw [if_pos ⟨hlt, lt_size hm⟩, map_snd_walk]

def nodesAt (t : Tree) (places : List Nat) : List Node := places.filterMap (t.nodes[·]?)

theorem nodesAt_append (t : Tree) (places places' : List Nat) :
    t.nodesAt (places ++ places') = t.nodesAt places ++ t.nodesAt places' :=
  List.filterMap_append

theorem nodesAt_cons (hn : t.nodes[i]? = some n) (places : List Nat) :
    t.nodesAt (i :: places) = n :: t.nodesAt places :=
  List.filterMap_cons_some hn

theorem nodesAt_concat (hn : t.nodes[i]? = some n) (places : List Nat) :
    t.nodesAt (places ++ [i]) = t.nodesAt places ++ [n] := by
  rw [nodesAt_append, nodesAt_cons hn]
  rfl

theorem mem_nodesAt {places : List Nat} :
    n ∈ t.nodesAt places ↔ ∃ i ∈ places, t.nodes[i]? = some n :=
  List.mem_filterMap

theorem Follows.map_symbol {entry : RuleEntry} (h : t.Follows i n entry) :
    (t.nodesAt n.children).map (·.symbol) = entry.rule.right := by
  have hchildren := h.children
  generalize n.children = children, entry.rule.right = right at hchildren ⊢
  induction hchildren with
  | nil => rfl
  | cons hc _ ih =>
    obtain ⟨m, hm, hsymbol, -⟩ := hc
    rw [nodesAt_cons hm, List.map_cons, hsymbol, ih]

/-- The nodes in the order in which a walk from the root meets them. -/
def met (t : Tree) : List Node := (t.walk 0 0).filterMap fun step => t.nodes[step.2]?

theorem met_eq (t : Tree) : t.met = t.nodesAt (t.preorder 0) := by
  rw [met, nodesAt, preorder, List.filterMap_map]
  rfl

/-- The symbols of the nodes without a rule. -/
def leaves (nodes : List Node) : List Symbol := (nodes.filter (!·.isExpanded)).map (·.symbol)

/-- The symbols of the nodes without a rule that come before the node with a rule that `k` others
come before. -/
def passed : Nat → List Node → List Symbol
  | _, [] => []
  | 0, n :: nodes => if n.isExpanded then [] else n.symbol :: passed 0 nodes
  | k + 1, n :: nodes =>
    if n.isExpanded then passed k nodes else n.symbol :: passed (k + 1) nodes

theorem leaves_append (nodes nodes' : List Node) :
    leaves (nodes ++ nodes') = leaves nodes ++ leaves nodes' := by
  simp [leaves]

theorem passed_append_of_lt {k : Nat} {nodes : List Node}
    (h : k < nodes.countP (·.isExpanded)) (nodes' : List Node) :
    passed k (nodes ++ nodes') = passed k nodes := by
  induction nodes generalizing k with
  | nil => cases h
  | cons m nodes ih =>
    by_cases hm : m.isExpanded = true
    · cases k with
      | zero => simp [passed, hm]
      | succ k => simpa [passed, hm] using ih (by simpa [hm] using h)
    · cases k <;> simpa [passed, hm] using ih (by simpa [hm] using h)

theorem passed_append (nodes : List Node) (h : n.isExpanded = true) :
    passed (nodes.countP (·.isExpanded)) (nodes ++ [n]) = leaves nodes := by
  induction nodes with
  | nil => simp [passed, leaves, h]
  | cons m nodes ih =>
    rw [leaves] at ih ⊢
    by_cases hm : m.isExpanded = true
    · simpa [passed, hm] using ih
    · cases hcount : nodes.countP (·.isExpanded) <;> rw [hcount] at ih <;>
        simpa [passed, hm, hcount] using ih

/-! ### Records of a derivation -/

/-- The node names a rule of its symbol, and the symbols under it are the rule's right side. -/
structure Obeys (g : Grammar) (t : Tree) (n : Node) (name : String) (rule : Rule) : Prop where
  names : n.ruleName = some name
  found : g.ruleNamed? name = some rule
  left : rule.left = n.symbol
  right : (t.nodesAt n.children).map (·.symbol) = rule.right

/-- A trace of the rules that were applied at the nodes with a rule. The terminals passed before the
node of a step and the step's frontier are the form to which the rules so far rewrite `symbol`. -/
structure Logs (g : Grammar) (symbol : Symbol) (nodes : List Node) (rules : List Rule)
    (steps : List TraceStep) : Prop where
  names : steps.map (·.ruleName) = nodes.filterMap (·.ruleName)
  texts : steps.map (·.rule) = rules.map (·.text)
  forms : ∀ (k : Nat) (step : TraceStep), steps[k]? = some step →
    ∃ form, g.rewriteAll [symbol] (rules.take (k + 1)) = some form ∧
      (passed k nodes).map (·.name) ++ step.frontier = form.map (·.name)

namespace Logs

variable {symbol : Symbol} {nodes : List Node} {rules : List Rule} {steps : List TraceStep}

theorem length_eq (h : Logs g symbol nodes rules steps) :
    steps.length = nodes.countP (·.isExpanded) := by
  rw [← List.length_map (·.ruleName), h.names]
  exact List.length_filterMap_eq_countP

theorem passed_eq (h : Logs g symbol nodes rules steps) {k : Nat} {step : TraceStep}
    (hk : steps[k]? = some step) (nodes' : List Node) :
    passed k (nodes ++ nodes') = passed k nodes :=
  passed_append_of_lt (h.length_eq ▸ (List.getElem?_eq_some_iff.mp hk).1) nodes'

theorem skip (h : Logs g symbol nodes rules steps) (hn : n.ruleName = none) :
    Logs g symbol (nodes ++ [n]) rules steps := by
  refine ⟨by simp [h.names, hn], h.texts, fun k step hk => ?_⟩
  rw [h.passed_eq hk]
  exact h.forms k step hk

theorem push (h : Logs g symbol nodes rules steps) {name : String} (hn : n.ruleName = some name)
    {rule : Rule} {form : List Symbol} {frontier : List String}
    (hform : g.rewriteAll [symbol] (rules ++ [rule]) = some form)
    (hfrontier : (leaves nodes).map (·.name) ++ frontier = form.map (·.name)) :
    Logs g symbol (nodes ++ [n]) (rules ++ [rule]) (steps ++ [⟨name, rule.text, frontier⟩]) := by
  have hlength : rules.length = steps.length := by
    simpa using congrArg List.length h.texts.symm
  refine ⟨by simp [h.names, hn], by simp [h.texts], fun k step hk => ?_⟩
  by_cases hlast : k = steps.length
  · have hstep : step = ⟨name, rule.text, frontier⟩ := by simpa [hlast, eq_comm] using hk
    refine ⟨form, ?_, ?_⟩
    · rwa [List.take_of_length_le (by simp [hlast, hlength])]
    · rw [hstep, hlast, h.length_eq, passed_append nodes (by simp [Node.isExpanded, hn])]
      exact hfrontier
  · have hk' : steps[k]? = some step := by
      have := (List.getElem?_eq_some_iff.mp hk).1
      rwa [List.getElem?_append_left (by simp at this; omega)] at hk
    have hlt := (List.getElem?_eq_some_iff.mp hk').1
    rw [h.passed_eq hk', List.take_append_of_le_length (by omega)]
    exact h.forms k step hk'

end Logs

/-- What a growth has done of its finished tree: the nodes at `taken` had their turn, those at
`pending` wait, and the rules so far rewrite `symbol` to the form that the two make up. -/
structure Tracks (g : Grammar) (symbol : Symbol) (t : Tree) (logged : Bool) (pending : List Nat)
    (steps : List TraceStep) (taken : List Nat) (rules : List Rule) : Prop where
  order : t.preorder 0 = taken ++ pending.flatMap t.preorder
  named : ((t.nodesAt taken).filterMap (·.ruleName)).mapM g.ruleNamed? = some rules
  form : g.rewriteAll [symbol] rules =
    some (leaves (t.nodesAt taken) ++ (t.nodesAt pending).map (·.symbol))
  obeyed : ∀ n ∈ t.nodesAt taken, n.isExpanded = true → ∃ name rule, t.Obeys g n name rule
  logs : logged = true → Logs g symbol (t.nodesAt taken) rules steps

namespace Tracks

variable {symbol : Symbol} {logged : Bool} {steps : List TraceStep} {taken : List Nat}
  {rules : List Rule}

theorem start (hn : t.nodes[0]? = some n) :
    Tracks g n.symbol t logged [0] [] [] [] where
  order := by simp
  named := by simp [nodesAt]
  form := by simp [Grammar.rewriteAll, leaves, nodesAt, hn]
  obeyed m hm := by simp [nodesAt] at hm
  logs _ := ⟨by simp [nodesAt], rfl, by simp⟩

theorem skip (h : Tracks g symbol t logged (i :: pending) steps taken rules)
    (ht : t.Derives g []) (hn : t.nodes[i]? = some n) (hunexp : n.isExpanded = false) :
    Tracks g symbol t logged pending steps (taken ++ [i]) rules := by
  have hnone : n.ruleName = none := by simpa [Node.isExpanded] using hunexp
  have htaken := nodesAt_concat hn taken
  constructor
  case order =>
    rw [h.order, List.flatMap_cons, ht.preorder_eq hn, (ht.bare i n hn hunexp).1]
    simp
  case named => simpa [htaken, hnone] using h.named
  case form =>
    rw [h.form, nodesAt_cons hn, htaken, leaves_append]
    simp [leaves, hunexp]
  case obeyed =>
    intro m hm hexp
    rw [htaken, List.mem_append, List.mem_singleton] at hm
    rcases hm with hm | rfl
    · exact h.obeyed m hm hexp
    · rw [hunexp] at hexp
      cases hexp
  case logs => exact fun hlogged => htaken ▸ (h.logs hlogged).skip hnone

theorem expand (h : Tracks g symbol t logged (i :: pending) steps taken rules) (hg : g.Grouped)
    (ht : t.Derives g []) (hn : t.nodes[i]? = some n) {name : String} {rule : Rule}
    (hobeys : t.Obeys g n name rule) :
    Tracks g symbol t logged (n.children ++ pending)
      (steps ++ [⟨name, rule.text, (t.nodesAt (n.children ++ pending)).map (·.symbol.name)⟩])
      (taken ++ [i]) (rules ++ [rule]) := by
  have hexp : n.isExpanded = true := by simp [Node.isExpanded, hobeys.names]
  have htaken := nodesAt_concat hn taken
  have hterminal : ∀ s ∈ leaves (t.nodesAt taken), g.isNonterminal s = false := by
    intro s hs
    obtain ⟨m, hm, rfl⟩ := List.mem_map.mp hs
    obtain ⟨hm, hunexp⟩ := List.mem_filter.mp hm
    obtain ⟨k, -, hk⟩ := mem_nodesAt.mp hm
    rw [ht.isNonterminal_eq hg hk]
    simpa using hunexp
  have hnonterminal : g.isNonterminal rule.left = true := by
    rw [hobeys.left, ht.isNonterminal_eq hg hn, hexp]
  -- what was passed are terminals, so the leftmost nonterminal is the symbol of this node
  have hform : g.rewriteAll [symbol] (rules ++ [rule]) =
      some (leaves (t.nodesAt taken) ++ (t.nodesAt (n.children ++ pending)).map (·.symbol)) := by
    rw [Grammar.rewriteAll_concat h.form, nodesAt_cons hn, List.map_cons, ← hobeys.left,
      Grammar.rewrite_append hterminal hnonterminal, ← hobeys.right, nodesAt_append,
      List.map_append]
  constructor
  case order =>
    rw [h.order, List.flatMap_cons, ht.preorder_eq hn]
    simp
  case named => simp [htaken, hobeys.names, hobeys.found, h.named]
  case form =>
    rw [hform, htaken, leaves_append]
    simp [leaves, hexp]
  case obeyed =>
    intro m hm hexp
    rw [htaken, List.mem_append, List.mem_singleton] at hm
    rcases hm with hm | rfl
    · exact h.obeyed m hm hexp
    · exact ⟨name, rule, hobeys⟩
  case logs =>
    intro hlogged
    rw [htaken]
    exact (h.logs hlogged).push hobeys.names hform (by simp)

theorem congr_steps (h : Tracks g symbol t logged pending steps taken rules)
    {steps' : List TraceStep} (hsteps : logged = true → steps = steps') :
    Tracks g symbol t logged pending steps' taken rules :=
  { h with logs := fun hlogged => hsteps hlogged ▸ h.logs hlogged }

end Tracks

end Tree

namespace Growth

open ProbeForge.Tree

variable {ρ : Type} {job : Job} {symbol : Symbol} {t : Tree} {i : Nat} {s s' : Growth ρ}
  {taken : List Nat} {rules : List Rule}

theorem frontier_eq (hext : s.tree.Extends t)
    (hwaiting : ∀ i ∈ s.pending, ∃ n, s.tree.nodes[i]? = some n) :
    s.frontier = (t.nodesAt s.pending).map (·.symbol.name) := by
  unfold frontier nodesAt
  generalize s.pending = pending at hwaiting ⊢
  induction pending with
  | nil => rfl
  | cons i pending ih =>
    obtain ⟨⟨n, hn⟩, hrest⟩ := List.forall_mem_cons.mp hwaiting
    obtain ⟨n', hn', hsymbol, -⟩ := hext i n hn
    simp [hn, hn', hsymbol, ih hrest]

variable [RandomSource ρ]

/-- An expanded node names its rule, and keeps it in the finished tree. -/
theorem Expands.obeys (h : Expands job i s s')
    (hs : s.tree.Derives job.grammar (i :: s.pending)) (hext : s'.tree.Extends t) :
    ∃ n name rule, t.nodes[i]? = some n ∧ t.Obeys job.grammar n name rule ∧
      s'.pending = n.children ++ s.pending ∧
      (job.watch.trace = true →
        s'.trace.toList = s.trace.toList ++ [⟨name, rule.text, s'.frontier⟩]) := by
  obtain ⟨n, -, entry, -, -, hn, hnamed, -, hfollows, hpending, -, -, ⟨k, hk, rfl⟩, htrace⟩ :=
    h.node hs
  have hexp : n.isExpanded = true := by simp [Node.isExpanded, hnamed]
  refine ⟨n, _, entry.rule, hext.expanded_node hn hexp,
    ⟨hnamed, Grammar.ruleNamed?_name hk, hfollows.left, (hfollows.mono hext).map_symbol⟩, hpending,
    fun hlogged => ?_⟩
  rw [htrace, if_pos hlogged]
  simp

theorem tracks_visit (hg : job.grammar.Grouped) (ht : t.Derives job.grammar [])
    (hs : s.tree.Derives job.grammar (i :: s.pending)) (hvisit : visit job i s = (none, s'))
    (hext : s'.tree.Extends t)
    (h : Tracks job.grammar symbol t job.watch.trace (i :: s.pending) s.trace.toList taken rules) :
    ∃ rules', Tracks job.grammar symbol t job.watch.trace s'.pending s'.trace.toList
      (taken ++ [i]) rules' := by
  have hs' := derives_visit hg hs hvisit
  obtain ⟨m, hm, -, ⟨hterminal, rfl⟩ | ⟨-, hexp⟩⟩ := visit_ok hg hs hvisit
  · obtain ⟨n, hn, hsymbol, -⟩ := hext i m hm
    refine ⟨rules, h.skip ht hn ?_⟩
    rw [← ht.isNonterminal_eq hg hn, hsymbol, Grammar.isNonterminal, hterminal]
    rfl
  · obtain ⟨n, name, rule, hn, hobeys, hpending, htrace⟩ := hexp.obeys hs hext
    refine ⟨rules ++ [rule], hpending ▸ (h.expand hg ht hn hobeys).congr_steps fun hlogged => ?_⟩
    rw [htrace hlogged, ← hpending, frontier_eq hext fun k hk => ?_]
    obtain ⟨o, ho, -⟩ := hs'.waiting k hk
    exact ⟨o, ho⟩

theorem Completes.tracks (hg : job.grammar.Grouped) {turns : Nat} {r : Growth ρ}
    (hs : s.tree.Derives job.grammar s.pending) (hrun : Completes job turns s r)
    (h : Tracks job.grammar symbol r.tree job.watch.trace s.pending s.trace.toList taken rules) :
    ∃ taken' rules', Tracks job.grammar symbol r.tree job.watch.trace [] r.trace.toList
      taken' rules' := by
  induction hrun generalizing taken rules with
  | done hdone => exact ⟨taken, rules, hdone ▸ h⟩
  | @turn turns s s' r i pending hwaits hvisit hrest ih =>
    rw [hwaits] at hs h
    have hs' := derives_visit (s := { s with pending }) hg hs hvisit
    -- the turn is seen in the finished tree, which extends the one after the turn
    obtain ⟨hext, hfinal, -⟩ := hrest.replays hg hs'
    obtain ⟨rules', h'⟩ :=
      tracks_visit (s := { s with pending }) hg hfinal hs hvisit hext h
    exact ih hs' h'

end Growth

/-! ### Complete growths -/

namespace Tree

variable {g : Grammar} {t : Tree} {i : Nat} {n : Node}

/-- A tree from `symbol` in which the nonterminals and nothing else are expanded, each with the rule
that its node names. -/
structure Complete (g : Grammar) (symbol : Symbol) (t : Tree) : Prop where
  root : ∃ n, t.nodes[0]? = some n ∧ n.symbol = symbol ∧ n.parent = none
  nonterminal : ∀ (i : Nat) (n : Node), t.nodes[i]? = some n → g.isNonterminal n.symbol = true →
    ∃ name rule, t.Obeys g n name rule
  terminal : ∀ (i : Nat) (n : Node), t.nodes[i]? = some n → g.isNonterminal n.symbol = false →
    n.ruleName = none ∧ n.children = []
  child : ∀ (i : Nat) (n : Node), t.nodes[i]? = some n → ∀ c ∈ n.children,
    ∃ m, t.nodes[c]? = some m ∧ m.parent = some (i : Int)
  parent : ∀ (c : Nat) (m : Node), t.nodes[c]? = some m → c ≠ 0 →
    ∃ (i : Nat) (n : Node), m.parent = some (i : Int) ∧ i < c ∧ t.nodes[i]? = some n ∧
      n.children.count c = 1

theorem Derives.mem_met {pending : List Nat} (ht : t.Derives g pending)
    (hn : t.nodes[i]? = some n) : n ∈ t.met := by
  obtain ⟨d, hpath⟩ := ht.path_root hn
  obtain ⟨root, hroot, -⟩ := ht.root
  refine List.mem_filterMap.mpr ⟨(d, i), ?_, hn⟩
  exact (mem_walk ht (lt_size hroot)).mpr ⟨d, (Nat.zero_add d).symm, hpath⟩

theorem Derives.complete (ht : t.Derives g []) (hg : g.Grouped) {symbol : Symbol}
    (hroot : ∃ n, t.nodes[0]? = some n ∧ n.symbol = symbol ∧ n.parent = none)
    (hobeyed : ∀ n ∈ t.met, n.isExpanded = true → ∃ name rule, t.Obeys g n name rule) :
    t.Complete g symbol := by
  constructor
  case root => exact hroot
  case nonterminal =>
    intro i n hn hnonterminal
    exact hobeyed n (ht.mem_met hn) (ht.isNonterminal_eq hg hn ▸ hnonterminal)
  case terminal =>
    intro i n hn hterminal
    have hunexp : n.isExpanded = false := ht.isNonterminal_eq hg hn ▸ hterminal
    exact ⟨by simpa [Node.isExpanded] using hunexp, (ht.bare i n hn hunexp).1⟩
  case child =>
    intro i n hn c hc
    exact (ht.child hn hc).2.2
  case parent =>
    intro c m hm hc
    obtain ⟨i, n, hparent, hn, hmem⟩ := (ht.parent c m hm).resolve_left hc
    obtain ⟨hexp, hlt, -⟩ := ht.child hn hmem
    obtain ⟨entry, -, hfollows⟩ := ht.follows i n hn hexp
    exact ⟨i, n, hparent, hlt, hn, hfollows.distinct.count.trans (if_pos hmem)⟩

end Tree

namespace Growth

open ProbeForge.Tree

variable {ρ : Type} [RandomSource ρ] {job : Job} {symbol : Symbol}

/-- A growth that comes to its end gives a complete tree. The rules of its nodes, in the order of a
walk, rewrite the start symbol to the terminals of the tree, always at the leftmost nonterminal, and
the trace shows the form after each of them. -/
theorem run_leftmost (hg : job.grammar.Grouped) {source : ρ} {turns : Nat} {r : Growth ρ}
    (hrun : run job turns (.start symbol source) = (none, r)) :
    r.tree.Complete job.grammar symbol ∧ ∃ rules,
      (r.tree.met.filterMap (·.ruleName)).mapM job.grammar.ruleNamed? = some rules ∧
      job.grammar.rewriteAll [symbol] rules = some (leaves r.tree.met) ∧
      (job.watch.trace = true →
        Logs job.grammar symbol r.tree.met rules r.trace.toList) := by
  have hstart : (start symbol source).tree.Derives job.grammar (start symbol source).pending :=
    derives_start job.grammar symbol
  obtain ⟨hext, hfinal, -⟩ := replays_run hg hstart hrun
  obtain ⟨n, hn, hsymbol, hparent, -⟩ := hext 0 (.fresh symbol none) rfl
  have hsymbol : n.symbol = symbol := hsymbol
  obtain ⟨taken, rules, htracks⟩ :=
    (completes_run hrun).tracks hg hstart (hsymbol ▸ Tracks.start hn)
  have htaken : r.tree.met = r.tree.nodesAt taken := by
    rw [met_eq, htracks.order, List.flatMap_nil, List.append_nil]
  rw [htaken]
  refine ⟨hfinal.complete hg ⟨n, hn, hsymbol, hparent⟩ (htaken ▸ htracks.obeyed), rules,
    htracks.named, ?_, htracks.logs⟩
  simpa [nodesAt] using htracks.form

/-- Draws that are given beforehand, and zeros after them. -/
structure Draws where
  rest : List Nat

instance : RandomSource Draws where
  seeded _ := ⟨[]⟩
  below n draws :=
    (⟨draws.rest.headD 0 % (n + 1), Nat.mod_lt _ (Nat.succ_pos n)⟩, ⟨draws.rest.tail⟩)
  unit draws := (0, draws)
  normal draws := (0, draws)

/-- A symbol that is nested between two others or vanishes. -/
def nesting : Grammar :=
  let rule (left : String) (right : List String) (weight : Int) : RuleEntry :=
    ⟨⟨⟨left⟩, right.map (⟨·⟩)⟩, weight, .null, .null⟩
  { Grammar.empty .null with
    table := #[rule "S" ["a", "S", "T"] 2, rule "S" [] 1, rule "T" ["b"] 1]
    groups := #[⟨⟨"S"⟩, 3, [0, 1]⟩, ⟨⟨"T"⟩, 1, [2]⟩] }

def nest : Option Halt × Growth Draws :=
  run ⟨nesting, .empty, 10, ⟨false, true, false⟩⟩ 10 (.start ⟨"S"⟩ ⟨[0, 2]⟩)

theorem run_leftmost_nest : ∃ r, nest = (none, r) ∧
    r.trace.toList.map (·.frontier) = [["a", "S", "T"], ["T"], ["b"]] ∧
    r.tree.Complete nesting ⟨"S"⟩ ∧ ∃ rules,
      (r.tree.met.filterMap (·.ruleName)).mapM nesting.ruleNamed? = some rules ∧
      nesting.rewriteAll [⟨"S"⟩] rules = some (leaves r.tree.met) ∧
      Logs nesting ⟨"S"⟩ r.tree.met rules r.trace.toList := by
  have hgrouped : nesting.Grouped := ⟨by decide, by decide, by decide, by decide⟩
  have hcomplete : nest.1 = none := Option.isNone_iff_eq_none.mp (by decide +kernel)
  have hnest : nest = (none, nest.2) := Prod.ext hcomplete rfl
  obtain ⟨htree, rules, hnamed, hform, hlogs⟩ := run_leftmost hgrouped hnest
  exact ⟨nest.2, hnest, by decide +kernel, htree, rules, hnamed, hform, hlogs rfl⟩

end Growth

end ProbeForge
