import ProbeForge.Proofs.Derivation.Expansion
import ProbeForge.Proofs.Grammar.Building

/-!
# Turns of a growth

A turn takes one waiting node. What holds at the start and is kept by every turn holds in every
state that a growth reaches. Each turn uses up one node of the tree, and the limit bounds the tree,
so the turns that are granted always suffice.
-/

namespace ProbeForge

variable {ρ : Type} [RandomSource ρ]

/-- A coherent grammar whose weights are positive and whose generators exist. -/
structure Grammar.Runnable (g : Grammar) : Prop where
  coherent : g.Coherent
  positive : ∀ entry ∈ g.table, 1 ≤ entry.weight
  behaved : ∀ entry ∈ g.table, ∃ generator, Generator.resolve entry.generator = .ok generator

theorem Definition.Weighted.runnable {d : Definition} {g : Grammar} (hg : d.Weighted g)
    (hpositive : ∀ entry ∈ g.table, 1 ≤ entry.weight) : g.Runnable where
  coherent := hg.coherent
  positive := hpositive
  behaved entry hentry := by
    obtain ⟨shape, -, hshape⟩ := hg.shaped entry hentry
    exact ⟨shape.generator, hshape.generator⟩

theorem Grammar.length_le_longestRight {g : Grammar} {entry : RuleEntry}
    (h : entry ∈ g.table) : entry.rule.right.length ≤ g.longestRight :=
  List.le_max?_getD_of_mem (List.mem_map_of_mem (Array.mem_toList_iff.mpr h))

namespace Growth

variable {job : Job} {i : Nat} {s s' : Growth ρ}

/-- What is noted of an expansion: the rule by its place, and in the trace the frontier after it. -/
structure Notes (job : Job) (name : String) (entry : RuleEntry) (s s' : Growth ρ) : Prop where
  named : ∃ k, job.grammar.table[k]? = some entry ∧ name = (⟨k, entry⟩ : Grammar.RuleChoice).name
  traced : s'.trace =
    if job.watch.trace then s.trace.push ⟨name, entry.rule.text, s'.frontier⟩ else s.trace

/-- The expansion of a node: a rule of its symbol is drawn, the rule's generator is run, and its
right side is put under the node and before everything that waits. -/
inductive Expands (job : Job) (i : Nat) (s s' : Growth ρ) : Prop where
  | intro {n : Node} {entry : RuleEntry} {generator : Option Generator}
      {payload : Option Payload} {segment : Option SegmentId} (name : String) (source : ρ)
      (node : s.tree.nodes[i]? = some n) (rule : entry ∈ job.grammar.table)
      (left : entry.rule.left = n.symbol) (fits : s.tree.size ≤ job.limit)
      (resolved : Generator.resolve entry.generator = .ok generator)
      (ran : Ran job.objects { s.scope with source } generator payload segment s'.scope)
      (tree : s'.tree = s.tree.expanded i name entry payload segment)
      (pending : s'.pending = List.range' s.tree.size entry.rule.right.length ++ s.pending)
      (notes : Notes job name entry s s')

theorem modify_modify (t : Tree) (i : Nat) (f g : Node → Node) :
    (t.modify i f).modify i g = t.modify i (g ∘ f) := by
  unfold Tree.modify
  congr 1
  refine Array.ext (by simp) fun k hk hk' => ?_
  by_cases hik : i = k <;> simp [Array.getElem_modify, hik]

theorem modify_congr {t : Tree} {i : Nat} {f g : Node → Node} {n : Node}
    (hn : t.nodes[i]? = some n) (h : f n = g n) : t.modify i f = t.modify i g := by
  unfold Tree.modify
  congr 1
  refine Array.ext (by simp) fun k hk hk' => ?_
  rw [Array.getElem_modify, Array.getElem_modify]
  split
  case isTrue hik =>
    subst hik
    obtain ⟨hlt, rfl⟩ := Array.getElem?_eq_some_iff.mp hn
    exact h
  case isFalse => rfl

/-- A fault that lies in the grammar: no rule can be drawn, or a rule names no generator. -/
inductive Refuses (g : Grammar) (source : ρ) (fault : Fault) : Prop where
  | draw {group : RuleGroup} {source' : ρ} (mem : group ∈ g.groups)
      (failed : g.randomRuleOf group source = (.error fault, source'))
  | resolve {entry : RuleEntry} (mem : entry ∈ g.table)
      (failed : Generator.resolve entry.generator = .error fault)

theorem not_refuses {g : Grammar} (hg : g.Runnable) {source : ρ} {fault : Fault} :
    ¬ Refuses g source fault := by
  rintro (@⟨group, source', hmem, hfailed⟩ | @⟨entry, hmem, hfailed⟩)
  · obtain ⟨choice, source'', hdraw⟩ := hg.coherent.randomRuleOf_ok hg.positive hmem source
    cases hfailed.symm.trans hdraw
  · obtain ⟨generator, hresolve⟩ := hg.behaved entry hmem
    cases hfailed.symm.trans hresolve

/-- How a turn at a node that waits can end. -/
inductive Turn (job : Job) (i : Nat) (n : Node) (s : Growth ρ) : Option Halt × Growth ρ → Prop where
  | terminal (noRule : job.grammar.group? n.symbol = none) : Turn job i n s (none, s)
  | overLimit (nonterminal : job.grammar.isNonterminal n.symbol = true)
      (exceeds : job.limit < s.tree.size) :
      Turn job i n s (some (.failure (.tooManyNodes (toString job.limit) n.symbol.name)), s)
  | expanded {s' : Growth ρ} (nonterminal : job.grammar.isNonterminal n.symbol = true)
      (expands : Expands job i s s') : Turn job i n s (none, s')
  | misused {s' : Growth ρ} {entry : RuleEntry} {generator : Generator} {misuse : Misuse}
      {scope : Scope ρ} (source : ρ) (rule : entry ∈ job.grammar.table)
      (left : entry.rule.left = n.symbol)
      (resolved : Generator.resolve entry.generator = .ok (some generator))
      (ran : generator.run job.objects { s.scope with source } = .error misuse scope) :
      Turn job i n s (some (.fault (.misuse misuse)), s')
  | refused {s' : Growth ρ} {fault : Fault} (refuses : Refuses job.grammar s.scope.source fault) :
      Turn job i n s (some (.fault fault), s')

/-- The growth after a rule was applied and its generator left `payload`, `segment` and `scope`. -/
def applied (job : Job) (i : Nat) (choice : Grammar.RuleChoice) (payload : Option Payload)
    (segment : Option SegmentId) (scope : Scope ρ) (s : Growth ρ) : Growth ρ :=
  Growth.note job.watch choice { s with
    scope
    tree := s.tree.expanded i choice.name choice.entry payload segment
    pending := List.range' s.tree.size choice.entry.rule.right.length ++ s.pending }

section Applying

variable {n : Node} {group : RuleGroup} {choice : Grammar.RuleChoice} {source : ρ}
  {generator : Option Generator} {payload : Option Payload} {segment : Option SegmentId}
  {scope : Scope ρ}

theorem expand_eq (hn : s.tree.nodes[i]? = some n) (hpayload : n.payload = none)
    (hsegment : n.segment = none)
    (hdraw : job.grammar.randomRuleOf group s.scope.source = (.ok choice, source))
    (hresolve : Generator.resolve choice.entry.generator = .ok generator)
    (hran : Ran job.objects { s.scope with source } generator payload segment scope) :
    expand job i group s = (none, s.applied job i choice payload segment scope) := by
  unfold expand
  simp only [hdraw]
  cases generator with
  | none =>
    obtain ⟨rfl, rfl, rfl⟩ := hran
    have htree : (s.tree.modify i fun n =>
          { n with ruleName := some choice.name, representer := choice.entry.representer }) =
        s.tree.modify i (·.filled choice.name choice.entry none none) :=
      modify_congr hn (by rw [Node.filled, hpayload, hsegment])
    simp only [fill, hresolve, branch, htree, Tree.size_modify]
    rfl
  | some generator =>
    obtain ⟨payload, hrun, rfl, rfl⟩ := hran
    simp only [fill, hresolve, hrun, branch, modify_modify, Tree.size_modify]
    rfl

theorem expands_applied (hn : s.tree.nodes[i]? = some n)
    (hlisted : job.grammar.table[choice.index]? = some choice.entry)
    (hleft : choice.entry.rule.left = n.symbol) (hfits : s.tree.size ≤ job.limit)
    (hresolve : Generator.resolve choice.entry.generator = .ok generator)
    (hran : Ran job.objects { s.scope with source } generator payload segment scope) :
    Expands job i s (s.applied job i choice payload segment scope) :=
  ⟨choice.name, source, hn, Array.mem_of_getElem? hlisted, hleft, hfits, hresolve, hran, rfl, rfl,
    ⟨choice.index, hlisted, rfl⟩, rfl⟩

end Applying

theorem turn_visit (hg : job.grammar.Grouped) {n : Node} (hn : s.tree.nodes[i]? = some n)
    (hpayload : n.payload = none) (hsegment : n.segment = none) :
    Turn job i n s (visit job i s) := by
  unfold visit
  rw [hn]
  dsimp only
  cases hgroup : job.grammar.group? n.symbol with
  | none => exact .terminal hgroup
  | some group =>
    have hnonterminal : job.grammar.isNonterminal n.symbol = true := by
      rw [Grammar.isNonterminal, hgroup]
      rfl
    obtain ⟨hmem, hsymbol⟩ := Grammar.group?_mem hgroup
    dsimp only
    split
    case isTrue hover => exact .overLimit hnonterminal hover
    case isFalse hfits =>
      cases hdraw : job.grammar.randomRuleOf group s.scope.source with
      | mk drawn source =>
      cases drawn with
      | error fault =>
        simp only [expand, hdraw]
        exact .refused (.draw hmem hdraw)
      | ok choice =>
        -- the rule that was drawn rewrites the symbol of the node
        obtain ⟨hlisted, hleft⟩ := hg.of_randomRuleOf hmem hdraw
        have hrule := Array.mem_of_getElem? hlisted
        have hleft : choice.entry.rule.left = n.symbol := hleft.trans hsymbol
        have hfits := Int.not_lt.mp hfits
        cases hresolve : Generator.resolve choice.entry.generator with
        | error fault =>
          simp only [expand, hdraw, fill, hresolve]
          exact .refused (.resolve hrule hresolve)
        | ok generator =>
          cases generator with
          | none =>
            rw [expand_eq hn hpayload hsegment hdraw hresolve ⟨rfl, rfl, rfl⟩]
            exact .expanded hnonterminal
              (expands_applied hn hlisted hleft hfits hresolve ⟨rfl, rfl, rfl⟩)
          | some generator =>
            cases hrun : generator.run job.objects { s.scope with source } with
            | error misuse scope =>
              simp only [expand, hdraw, fill, hresolve, hrun]
              exact .misused source hrule hleft hresolve hrun
            | ok payload scope =>
              rw [expand_eq hn hpayload hsegment hdraw hresolve ⟨payload, hrun, rfl, rfl⟩]
              exact .expanded hnonterminal
                (expands_applied hn hlisted hleft hfits hresolve ⟨payload, hrun, rfl, rfl⟩)

/-! ### Runs -/

/-- The states that are reached from `s` in a number of turns that do not end the growth. -/
inductive Reaches (job : Job) (s : Growth ρ) : Nat → Growth ρ → Prop where
  | start : Reaches job s 0 s
  | turn {n : Nat} {r r' : Growth ρ} {i : Nat} {pending : List Nat} (reached : Reaches job s n r)
      (waits : r.pending = i :: pending) (visited : visit job i { r with pending } = (none, r')) :
      Reaches job s (n + 1) r'

theorem Reaches.invariant {P : Growth ρ → Prop} (start : P s)
    (step : ∀ r r' i pending, r.pending = i :: pending →
      visit job i { r with pending } = (none, r') → P r → P r')
    {n : Nat} {r : Growth ρ} (h : Reaches job s n r) : P r := by
  induction h with
  | start => exact start
  | turn _ waits visited ih => exact step _ _ _ _ waits visited ih

/-- How a growth ends: nothing waits, the turns are used up, or a turn ends it. -/
inductive Ends (job : Job) (s : Growth ρ) (turns : Nat) : Option Halt × Growth ρ → Prop where
  | complete {n : Nat} {r : Growth ρ} (reached : Reaches job s n r) (done : r.pending = []) :
      Ends job s turns (none, r)
  | outOfTurns {r : Growth ρ} (reached : Reaches job s turns r) (waits : r.pending ≠ []) :
      Ends job s turns (some .unfinished, r)
  | halted {n : Nat} {r r' : Growth ρ} {i : Nat} {pending : List Nat} {halt : Halt}
      (reached : Reaches job s n r) (waits : r.pending = i :: pending)
      (visited : visit job i { r with pending } = (some halt, r')) :
      Ends job s turns (some halt, r')

theorem ends_run {left : Nat} {n : Nat} {r : Growth ρ} (h : Reaches job s n r) :
    Ends job s (n + left) (run job left r) := by
  induction left generalizing n r with
  | zero =>
    unfold run
    split
    case h_1 hdone => exact .complete h hdone
    case h_2 i pending hwaits => exact .outOfTurns h (by simp [hwaits])
  | succ left ih =>
    unfold run
    split
    case h_1 hdone => exact .complete h hdone
    case h_2 i pending hwaits =>
      dsimp only
      split
      case h_1 r' hvisit =>
        rw [show n + (left + 1) = n + 1 + left by omega]
        exact ih (.turn h hwaits hvisit)
      case h_2 halt r' hvisit => exact .halted h hwaits hvisit

/-- A growth that comes to its end, by its turns. -/
inductive Completes (job : Job) : Nat → Growth ρ → Growth ρ → Prop where
  | done {turns : Nat} {s : Growth ρ} (done : s.pending = []) : Completes job turns s s
  | turn {turns : Nat} {s s₁ s' : Growth ρ} {i : Nat} {pending : List Nat}
      (waits : s.pending = i :: pending) (visited : visit job i { s with pending } = (none, s₁))
      (rest : Completes job turns s₁ s') : Completes job (turns + 1) s s'

theorem reaches_run {turns : Nat} (h : run job turns s = (none, s')) :
    ∃ n, Reaches job s n s' ∧ s'.pending = [] := by
  have hends : Ends job s (0 + turns) (run job turns s) := ends_run .start
  rw [h] at hends
  cases hends with
  | complete reached done => exact ⟨_, reached, done⟩

theorem completes_run {turns : Nat} (h : run job turns s = (none, s')) :
    Completes job turns s s' := by
  induction turns generalizing s with
  | zero =>
    unfold run at h
    split at h
    case h_1 hdone =>
      cases h
      exact .done hdone
    case h_2 => cases h
  | succ turns ih =>
    unfold run at h
    split at h
    case h_1 hdone =>
      cases h
      exact .done hdone
    case h_2 i pending hwaits =>
      dsimp only at h
      split at h
      case h_1 s₁ hvisit => exact .turn hwaits hvisit (ih h)
      case h_2 => cases h

/-! ### Trees under growth -/

theorem Expands.extends (h : Expands job i s s')
    (hs : s.tree.Derives job.grammar (i :: s.pending)) : s.tree.Extends s'.tree := by
  obtain ⟨name, source, hn, -, -, -, -, -, htree, -, -⟩ := h
  obtain ⟨n', hn', hunexp⟩ := hs.waiting i List.mem_cons_self
  cases hn.symm.trans hn'
  rw [htree]
  exact Tree.extends_expanded hn (hs.bare i _ hn hunexp).1 hunexp

theorem Expands.derives (h : Expands job i s s')
    (hs : s.tree.Derives job.grammar (i :: s.pending)) :
    s'.tree.Derives job.grammar s'.pending := by
  obtain ⟨name, source, hn, hrule, hleft, -, hresolve, hran, htree, hpending, -⟩ := h
  rw [htree, hpending]
  exact hs.expand hn hrule hleft hresolve hran.holds

/-- The node that was expanded, as it is afterwards. -/
theorem Expands.node (h : Expands job i s s')
    (hs : s.tree.Derives job.grammar (i :: s.pending)) :
    ∃ n name entry generator source, s'.tree.nodes[i]? = some n ∧ n.ruleName = some name ∧
      entry ∈ job.grammar.table ∧ s'.tree.Follows i n entry ∧
      s'.pending = n.children ++ s.pending ∧ Generator.resolve entry.generator = .ok generator ∧
      Ran job.objects { s.scope with source } generator n.payload n.segment s'.scope ∧
      Notes job name entry s s' := by
  obtain @⟨n, entry, generator, payload, segment, name, source, hn, hrule, hleft, -, hresolve, hran,
    htree, hpending, hnotes⟩ := h
  obtain ⟨n', hn', hunexp⟩ := hs.waiting i List.mem_cons_self
  cases hn.symm.trans hn'
  have hbare := (hs.bare i n hn hunexp).1
  have hself : s'.tree.nodes[i]? = _ :=
    (congrArg (·.nodes[i]?) htree).trans (Tree.expanded_self hn hbare name entry payload segment)
  have hfollows : (s.tree.expanded i name entry payload segment).Follows i _ entry :=
    Tree.follows_expanded hn hbare hleft hresolve hran.holds
  exact ⟨_, name, entry, generator, source, hself, rfl, hrule, htree ▸ hfollows, hpending, hresolve,
    hran, hnotes⟩

/-- A turn that goes on either passes over a terminal or expands a nonterminal. -/
theorem visit_ok (hg : job.grammar.Grouped) (hs : s.tree.Derives job.grammar (i :: s.pending))
    (h : visit job i s = (none, s')) :
    ∃ n, s.tree.nodes[i]? = some n ∧ n.isExpanded = false ∧
      (job.grammar.group? n.symbol = none ∧ s' = s ∨
        job.grammar.isNonterminal n.symbol = true ∧ Expands job i s s') := by
  obtain ⟨n, hn, hunexp⟩ := hs.waiting i List.mem_cons_self
  obtain ⟨-, hpayload, hsegment, -⟩ := hs.bare i n hn hunexp
  have hturn := turn_visit hg hn hpayload hsegment
  rw [h] at hturn
  refine ⟨n, hn, hunexp, ?_⟩
  cases hturn with
  | terminal noRule => exact .inl ⟨noRule, rfl⟩
  | expanded nonterminal expands => exact .inr ⟨nonterminal, expands⟩

theorem derives_visit (hg : job.grammar.Grouped)
    (hs : s.tree.Derives job.grammar (i :: s.pending)) (h : visit job i s = (none, s')) :
    s'.tree.Derives job.grammar s'.pending := by
  obtain ⟨n, hn, -, ⟨hterminal, rfl⟩ | ⟨-, hexpands⟩⟩ := visit_ok hg hs h
  · exact hs.skip hn hterminal
  · exact hexpands.derives hs

theorem Reaches.derives (hg : job.grammar.Grouped) {symbol : Symbol} {source : ρ} {n : Nat}
    {r : Growth ρ} (h : Reaches job (.start symbol source) n r) :
    r.tree.Derives job.grammar r.pending := by
  refine h.invariant (P := fun r => r.tree.Derives job.grammar r.pending)
    (Tree.derives_start _ symbol) fun r r' i pending hwaits hvisit hr => ?_
  rw [hwaits] at hr
  exact derives_visit (s := { r with pending }) hg hr hvisit

omit [RandomSource ρ] in
/-- At the start nothing is expanded. -/
theorem start_unexpanded {symbol : Symbol} {source : ρ} {n : Node}
    (hn : (start symbol source).tree.nodes[i]? = some n) : n.isExpanded = false := by
  have honly : #[Node.fresh symbol none][i]? = some n := hn
  obtain ⟨hlt, rfl⟩ := Array.getElem?_eq_some_iff.mp honly
  cases Nat.lt_one_iff.mp hlt
  rfl

/-- In every state that a growth reaches, what an expanded node holds is what the generator of its
rule left there. -/
theorem Reaches.ran (hg : job.grammar.Grouped) {symbol : Symbol} {source : ρ} {k : Nat}
    {r : Growth ρ} (h : Reaches job (.start symbol source) k r) :
    ∀ i n, r.tree.nodes[i]? = some n → n.isExpanded = true →
      ∃ entry ∈ job.grammar.table, r.tree.Follows i n entry ∧ ∃ generator,
        Generator.resolve entry.generator = .ok generator ∧
        ∃ s s' : Scope ρ, Ran job.objects s generator n.payload n.segment s' := by
  induction h with
  | start =>
    intro i n hn hexp
    rw [start_unexpanded hn] at hexp
    cases hexp
  | @turn k r r' i pending reached waits visited ih =>
    have hr := waits ▸ reached.derives hg
    obtain ⟨m, hm, hunexp, ⟨-, rfl⟩ | ⟨-, hexpands⟩⟩ :=
      visit_ok (s := { r with pending }) hg hr visited
    · exact ih
    · intro j n hn hexp
      have hext := hexpands.extends hr
      obtain ⟨m', -, entry, generator, source, hm', -, hrule, hfollows, -, hresolve, hran, -⟩ :=
        hexpands.node hr
      obtain ⟨name, source', hm'', -, -, -, -, -, htree, -, -⟩ := hexpands
      cases hm.symm.trans hm''
      -- the node of this turn, an older one, or a child, which waits
      rcases Tree.expanded_cases hm (hr.bare i m hm hunexp).1 (htree ▸ hn) with
        ⟨rfl, -⟩ | ⟨-, hold⟩ | ⟨-, s, rfl⟩
      · cases hm'.symm.trans hn
        exact ⟨entry, hrule, hfollows, generator, hresolve, _, _, hran⟩
      · obtain ⟨old, hmem, hfollows', hran'⟩ := ih j n hold hexp
        exact ⟨old, hmem, hfollows'.mono hext, hran'⟩
      · cases hexp

/-- In a growth that comes to its end an expanded node was expanded at some turn. -/
theorem Completes.turn_of (hg : job.grammar.Grouped) {initial : Growth ρ} {k turns : Nat}
    (hreached : Reaches job initial k s) (hderives : s.tree.Derives job.grammar s.pending)
    (h : Completes job turns s s') {n : Node} (hn : s'.tree.nodes[i]? = some n)
    (hexp : n.isExpanded = true)
    (hunexp : ∀ m, s.tree.nodes[i]? = some m → m.isExpanded = false) :
    ∃ (k turns : Nat) (s₀ s₁ : Growth ρ) (pending : List Nat), Reaches job initial k s₀ ∧
      s₀.pending = i :: pending ∧ visit job i { s₀ with pending } = (none, s₁) ∧
      Expands job i { s₀ with pending } s₁ ∧ Completes job turns s₁ s' := by
  induction h generalizing k with
  | done =>
    rw [hunexp n hn] at hexp
    cases hexp
  | @turn turns s s₁ s' j pending waits visited rest ih =>
    have hs := waits ▸ hderives
    have hnext := derives_visit (s := { s with pending }) hg hs visited
    obtain ⟨m, hm, hwaiting, ⟨-, rfl⟩ | ⟨-, hexpands⟩⟩ :=
      visit_ok (s := { s with pending }) hg hs visited
    · exact ih (hreached.turn waits visited) hnext hn hunexp
    by_cases hij : i = j
    · subst hij
      exact ⟨k, turns, s, s₁, pending, hreached, waits, visited, hexpands, rest⟩
    refine ih (hreached.turn waits visited) hnext hn fun m' hm' => ?_
    -- another node is as it was, or a new one that waits
    obtain ⟨name, source, hm'', -, -, -, -, -, htree, -, -⟩ := hexpands
    cases hm.symm.trans hm''
    rcases Tree.expanded_cases hm (hs.bare j m hm hwaiting).1 (htree ▸ hm') with
      ⟨heq, -⟩ | ⟨-, hold⟩ | ⟨-, symbol, rfl⟩
    · exact absurd heq hij
    · exact hunexp m' hold
    · rfl

/-! ### Bounds -/

/-- Every turn so far took a node of the tree, and the others wait. -/
theorem Reaches.size_eq (hg : job.grammar.Grouped) {symbol : Symbol} {source : ρ} {n : Nat}
    {r : Growth ρ} (h : Reaches job (.start symbol source) n r) :
    n + r.pending.length = r.tree.size ∧
      r.tree.size ≤ max 1 (job.limit.toNat + job.grammar.longestRight) := by
  induction h with
  | start => exact ⟨rfl, Nat.le_max_left _ _⟩
  | @turn n r r' i pending reached waits visited ih =>
    obtain ⟨hcount, hbound⟩ := ih
    have hr := waits ▸ reached.derives hg
    rw [waits, List.length_cons] at hcount
    obtain ⟨m, hm, -, ⟨-, rfl⟩ | ⟨-, hexpands⟩⟩ :=
      visit_ok (s := { r with pending }) hg hr visited
    · exact ⟨by simp only; omega, hbound⟩
    · obtain ⟨name, drawn, -, hrule, -, hfits, -, -, htree, hpending, -⟩ := hexpands
      have hright := Grammar.length_le_longestRight hrule
      simp only at hfits hpending htree
      rw [hpending, htree, Tree.size_expanded, List.length_append, List.length_range']
      omega

/-- The turns that are granted are never used up. -/
theorem Reaches.turns_suffice (hg : job.grammar.Grouped) {symbol : Symbol} {source : ρ}
    {r : Growth ρ} (h : Reaches job (.start symbol source) job.turns r) : r.pending = [] := by
  obtain ⟨hcount, hbound⟩ := h.size_eq hg
  unfold Job.turns at hcount
  exact List.eq_nil_of_length_eq_zero (by omega)

/-- Since the turns suffice, a growth that ends early is ended by one of them. -/
theorem run_halted (hg : job.grammar.Grouped) {symbol : Symbol} {source : ρ} {halt : Halt}
    {r : Growth ρ} (h : run job job.turns (.start symbol source) = (some halt, r)) :
    ∃ (n : Nat) (s : Growth ρ) (i : Nat) (pending : List Nat),
      Reaches job (.start symbol source) n s ∧ s.pending = i :: pending ∧
      visit job i { s with pending } = (some halt, r) := by
  have hends : Ends job (.start symbol source) (0 + job.turns)
      (run job job.turns (.start symbol source)) := ends_run .start
  rw [h, Nat.zero_add] at hends
  cases hends with
  | outOfTurns reached waits => exact absurd (reached.turns_suffice hg) waits
  | halted reached waits visited => exact ⟨_, _, _, _, reached, waits, visited⟩

end Growth

end ProbeForge
