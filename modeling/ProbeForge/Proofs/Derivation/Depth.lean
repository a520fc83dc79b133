import ProbeForge.Proofs.Consistency.Recursion
import ProbeForge.Proofs.Derivation.Leftmost

/-!
# Depths of derivations

Where no symbol is recursive, ranks fall along every path of a tree, so no path repeats a symbol and
none is longer than there are nonterminals. The rank of a symbol also bounds how many turns a growth
from it takes, so a growth with enough turns and nodes ends.
-/

namespace ProbeForge

open Grammar

variable {ρ : Type} [RandomSource ρ]

/-! ### Paths -/

namespace Tree

variable {g : Grammar} {t : Tree} {pending : List Nat} {i j d : Nat} {n m : Node}

theorem Derives.produces (ht : t.Derives g pending) (hn : t.nodes[i]? = some n)
    (hj : j ∈ n.children) (hm : t.nodes[j]? = some m) : g.Produces n.symbol m.symbol := by
  obtain ⟨entry, hentry, hfollows⟩ := ht.follows i n hn (ht.expanded_of_mem hn hj)
  obtain ⟨s, hs, m', hm', hsymbol, -⟩ := forall₂_mem_left hfollows.children hj
  cases hm.symm.trans hm'
  exact ⟨entry, hentry, hfollows.left, hsymbol ▸ hs⟩

/-- Ranks fall along a path. -/
theorem Path.rank_add_le (h : t.Path i d j) (hg : g.Grouped) (hnone : ∀ s, ¬ g.Recursive s)
    (ht : t.Derives g pending) (hn : t.nodes[i]? = some n) (hm : t.nodes[j]? = some m) :
    g.rank m.symbol + d ≤ g.rank n.symbol := by
  induction h generalizing m with
  | here =>
    cases hn.symm.trans hm
    exact Nat.le_refl _
  | child above found mem ih =>
    have hdrop := rank_lt hg (ht.produces found mem hm) (hnone _)
    have habove := ih found
    omega

end Tree

/-! ### Costs -/

namespace Grammar

variable {g : Grammar}

/-- The turns that a growth from the symbol takes at most. -/
noncomputable def cost (g : Grammar) (s : Symbol) : Nat := (g.longestRight + 1) ^ g.rank s

theorem one_le_cost (g : Grammar) (s : Symbol) : 1 ≤ g.cost s := Nat.one_le_pow _ _ (Nat.succ_pos _)

theorem cost_le (g : Grammar) (s : Symbol) :
    g.cost s ≤ (g.longestRight + 1) ^ g.nonterminalCount :=
  Nat.pow_le_pow_right (Nat.succ_pos _) (g.rank_le s)

theorem sum_cost_lt (hg : g.Grouped) (hnone : ∀ s, ¬ g.Recursive s) {entry : RuleEntry}
    (hentry : entry ∈ g.table) : (entry.rule.right.map g.cost).sum < g.cost entry.rule.left := by
  set base := g.longestRight + 1 with hbase
  obtain ⟨k, hk⟩ : ∃ k, g.rank entry.rule.left = k + 1 :=
    Nat.exists_eq_add_one.mpr (one_le_rank (isNonterminal_iff.mpr (hg.owned entry hentry)))
  have hchild : ∀ c ∈ entry.rule.right.map g.cost, c ≤ base ^ k := by
    intro c hc
    obtain ⟨s, hs, rfl⟩ := List.mem_map.mp hc
    have hdrop := rank_lt hg ⟨entry, hentry, rfl, hs⟩ (hnone entry.rule.left)
    exact Nat.pow_le_pow_right (Nat.succ_pos _) (by omega)
  calc (entry.rule.right.map g.cost).sum
      ≤ (entry.rule.right.map g.cost).length * base ^ k := by
        simpa using List.sum_le_card_nsmul _ _ hchild
    _ ≤ g.longestRight * base ^ k := by
        rw [List.length_map]
        exact Nat.mul_le_mul_right _ (length_le_longestRight hentry)
    _ < base * base ^ k := by
        exact Nat.mul_lt_mul_of_pos_right (Nat.lt_succ_self _) (Nat.pow_pos (Nat.succ_pos _))
    _ = g.cost entry.rule.left := by rw [cost, hk, pow_succ, Nat.mul_comm]

/-- The turns that the nodes at some places take at most. -/
noncomputable def costOf (g : Grammar) (symbols : List Symbol) : Nat := (symbols.map g.cost).sum

theorem length_le_costOf (g : Grammar) (symbols : List Symbol) :
    symbols.length ≤ g.costOf symbols := by
  induction symbols with
  | nil => exact Nat.le_refl _
  | cons s symbols ih =>
    have := g.one_le_cost s
    simp only [costOf, List.map_cons, List.sum_cons, List.length_cons] at ih ⊢
    omega

end Grammar

/-! ### Ends of growths -/

/-- The symbols of nodes stay as a tree grows. -/
theorem Tree.Extends.map_symbol {t t' : Tree} (h : t.Extends t') {places : List Nat}
    (hplaces : ∀ i ∈ places, ∃ n, t.nodes[i]? = some n) :
    (t'.nodesAt places).map (·.symbol) = (t.nodesAt places).map (·.symbol) := by
  induction places with
  | nil => rfl
  | cons i places ih =>
    obtain ⟨⟨n, hn⟩, hrest⟩ := List.forall_mem_cons.mp hplaces
    obtain ⟨n', hn', hsymbol, -⟩ := h i n hn
    rw [nodesAt_cons hn, nodesAt_cons hn', List.map_cons, List.map_cons, hsymbol, ih hrest]

theorem Tree.length_nodesAt {t : Tree} {places : List Nat}
    (hplaces : ∀ i ∈ places, ∃ n, t.nodes[i]? = some n) :
    (t.nodesAt places).length = places.length := by
  induction places with
  | nil => rfl
  | cons i places ih =>
    obtain ⟨⟨n, hn⟩, hrest⟩ := List.forall_mem_cons.mp hplaces
    rw [nodesAt_cons hn, List.length_cons, ih hrest, List.length_cons]

/-- A fault of a generator: a rule names none that exists, or one that works on the open block and
there is none. -/
inductive Grammar.Misbehaves (g : Grammar) : Fault → Prop where
  | unknown {entry : RuleEntry} {fault : Fault} (mem : entry ∈ g.table)
      (failed : Generator.resolve entry.generator = .error fault) : Misbehaves g fault
  | misused {entry : RuleEntry} {generator : Generator} (misuse : Misuse) (mem : entry ∈ g.table)
      (resolved : Generator.resolve entry.generator = .ok (some generator))
      (needsBlock : generator ∉ [.openBlock, .integer, .number, .string]) :
      Misbehaves g (.misuse misuse)

theorem Generator.needsBlock_of_run {u : Universe} {generator : Generator} {misuse : Misuse}
    {s s' : Scope ρ} (h : generator.run u s = .error misuse s') :
    generator ∉ [.openBlock, .integer, .number, .string] := by
  intro hmem
  simp only [List.mem_cons, List.not_mem_nil, or_false] at hmem
  rcases hmem with rfl | rfl | rfl | rfl <;> cases h

namespace Growth

variable {job : Job} {symbol : Symbol} {source : ρ} {n : Nat} {i : Nat} {r s s' : Growth ρ}

/-- The symbols that wait. -/
def waiting (s : Growth ρ) : List Symbol := (s.tree.nodesAt s.pending).map (·.symbol)

omit [RandomSource ρ] in
theorem length_pending_le (hs : s.tree.Derives job.grammar s.pending) :
    s.pending.length ≤ job.grammar.costOf s.waiting := by
  have hlength : s.waiting.length = s.pending.length := by
    rw [waiting, List.length_map]
    exact Tree.length_nodesAt fun i hi => (hs.waiting i hi).imp fun _ h => h.1
  exact hlength ▸ job.grammar.length_le_costOf s.waiting

omit [RandomSource ρ] in
theorem waiting_start (symbol : Symbol) (source : ρ) :
    (start symbol source).waiting = [symbol] := rfl

/-- Without recursion, a turn uses up at least one of those that the waiting symbols may take. -/
theorem costOf_visit (hg : job.grammar.Grouped) (hnone : ∀ s, ¬ job.grammar.Recursive s)
    {pending : List Nat} (hs : s.tree.Derives job.grammar s.pending)
    (hwaits : s.pending = i :: pending) (h : visit job i { s with pending } = (none, s')) :
    job.grammar.costOf s'.waiting < job.grammar.costOf s.waiting := by
  rw [hwaits] at hs
  obtain ⟨n, hn, -, ⟨-, rfl⟩ | ⟨-, hexpands⟩⟩ := visit_ok (s := { s with pending }) hg hs h
  -- a terminal costs its own turn, and a right side less than the symbol it is put for
  · have := job.grammar.one_le_cost n.symbol
    simp only [waiting, hwaits, Tree.nodesAt_cons hn, costOf, List.map_cons, List.sum_cons]
    omega
  · obtain ⟨n', -, entry, -, -, hn', -, hentry, hfollows, hpending, -⟩ := hexpands.node hs
    have hext := hexpands.extends hs
    have hleft : entry.rule.left = n.symbol := by
      obtain ⟨n'', hn'', hsymbol, -⟩ := hext i n hn
      cases hn'.symm.trans hn''
      exact hfollows.left.trans hsymbol
    have hrest : (s'.tree.nodesAt pending).map (·.symbol) =
        (s.tree.nodesAt pending).map (·.symbol) := hext.map_symbol fun k hk => by
      obtain ⟨m, hm, -⟩ := hs.waiting k (List.mem_cons_of_mem _ hk)
      exact ⟨m, hm⟩
    have hcost := sum_cost_lt hg hnone hentry
    rw [hleft] at hcost
    simp only [waiting, hpending, hwaits, Tree.nodesAt_cons hn, Tree.nodesAt_append,
      List.map_append, hfollows.map_symbol, hrest, costOf, List.map_cons, List.sum_cons,
      List.sum_append]
    omega

theorem Reaches.costOf_le (hg : job.grammar.Grouped) (hnone : ∀ s, ¬ job.grammar.Recursive s)
    (h : Reaches job (.start symbol source) n r) :
    n + job.grammar.costOf r.waiting ≤ job.grammar.cost symbol := by
  induction h with
  | start => simp [waiting_start, costOf]
  | turn reached waits visited ih =>
    have := costOf_visit hg hnone (reached.derives hg) waits visited
    omega

/-- A turn ends a growth by a fault of a generator or because the tree is over the limit. -/
theorem misbehaves_visit (hg : job.grammar.Coherent)
    (hw : ∀ entry ∈ job.grammar.table, 1 ≤ entry.weight)
    (hs : s.tree.Derives job.grammar (i :: s.pending)) {halt : Halt}
    (h : visit job i s = (some halt, s')) :
    (∃ fault, halt = .fault fault ∧ job.grammar.Misbehaves fault) ∨
      (∃ failure, halt = .failure failure) ∧ job.limit < s.tree.size := by
  obtain ⟨n, hn, hunexp⟩ := hs.waiting i List.mem_cons_self
  obtain ⟨-, hpayload, hsegment, -⟩ := hs.bare i n hn hunexp
  have hturn := turn_visit hg.grouped hn hpayload hsegment
  rw [h] at hturn
  cases hturn with
  | overLimit _ exceeds => exact .inr ⟨⟨_, rfl⟩, exceeds⟩
  | misused _ rule _ resolved ran =>
    exact .inl ⟨_, rfl, .misused _ rule resolved (Generator.needsBlock_of_run ran)⟩
  | refused refuses =>
    cases refuses with
    | draw mem failed =>
      obtain ⟨choice, source', hdraw⟩ := hg.randomRuleOf_ok hw mem s.scope.source
      cases failed.symm.trans hdraw
    | resolve mem failed => exact .inl ⟨_, rfl, .unknown mem failed⟩

/-- Without recursion, a growth that is granted enough turns and nodes ends by itself or at a fault
of a generator. -/
theorem run_ends (hg : job.grammar.Coherent) (hw : ∀ entry ∈ job.grammar.table, 1 ≤ entry.weight)
    (hnone : ∀ s, ¬ job.grammar.Recursive s) {turns : Nat}
    (hturns : job.grammar.cost symbol ≤ turns)
    (hlimit : (job.grammar.cost symbol : Int) ≤ job.limit) (source : ρ) :
    (run job turns (.start symbol source)).1 = none ∨
      ∃ fault, (run job turns (.start symbol source)).1 = some (.fault fault) ∧
        job.grammar.Misbehaves fault := by
  have hgrouped := hg.grouped
  have hends : Ends job (.start symbol source) (0 + turns) (run job turns (.start symbol source)) :=
    ends_run .start
  rw [Nat.zero_add] at hends
  generalize run job turns (.start symbol source) = outcome at hends ⊢
  cases hends with
  | complete => exact .inl rfl
  | @outOfTurns r reached waits =>
    -- every turn was paid for, so nothing is left to wait
    have hcost := reached.costOf_le hgrouped hnone
    have hlength := length_pending_le (reached.derives hgrouped)
    exact absurd (List.eq_nil_of_length_eq_zero (by omega)) waits
  | @halted n r r' i pending halt reached waits visited =>
    have hr : r.tree.Derives job.grammar (i :: pending) := waits ▸ reached.derives hgrouped
    rcases misbehaves_visit (s := { r with pending }) hg hw hr visited with
      ⟨fault, rfl, hfault⟩ | ⟨-, hover⟩
    · exact .inr ⟨fault, rfl, hfault⟩
    · have hcost := reached.costOf_le hgrouped hnone
      have hlength := length_pending_le (reached.derives hgrouped)
      have hsize := (reached.size_eq hgrouped).1
      dsimp only at hover
      omega

end Growth

/-! ### Shallow grammars -/

/-- Whatever is drawn, no path of a tree repeats a symbol, no tree is deeper than there are
nonterminals, and a growth with enough turns and nodes ends by itself or at a fault of a
generator. -/
structure Grammar.Shallow (g : Grammar) : Prop where
  varied : ∀ {ρ : Type} [RandomSource ρ] {job : Job} {symbol : Symbol} {source : ρ} {n : Nat}
    {r : Growth ρ}, job.grammar = g → Growth.Reaches job (.start symbol source) n r →
    ∀ {i d j : Nat} {a b : Node}, r.tree.Path i (d + 1) j → r.tree.nodes[i]? = some a →
      r.tree.nodes[j]? = some b → a.symbol ≠ b.symbol
  depth : ∀ {ρ : Type} [RandomSource ρ] {job : Job} {symbol : Symbol} {source : ρ} {n : Nat}
    {r : Growth ρ}, job.grammar = g → Growth.Reaches job (.start symbol source) n r →
    ∀ {d j : Nat}, r.tree.Path 0 d j → d ≤ g.nonterminalCount
  ends : ∃ bound : Nat, ∀ {ρ : Type} [RandomSource ρ] {job : Job} (symbol : Symbol) (source : ρ)
    {turns : Nat}, job.grammar = g → bound ≤ turns → (bound : Int) ≤ job.limit →
    (Growth.run job turns (.start symbol source)).1 = none ∨
      ∃ fault, (Growth.run job turns (.start symbol source)).1 = some (.fault fault) ∧
        g.Misbehaves fault

theorem Grammar.shallow_of_not_recursive {g : Grammar} (hg : g.Coherent)
    (hw : ∀ entry ∈ g.table, 1 ≤ entry.weight) (hnone : ∀ s, ¬ g.Recursive s) : g.Shallow := by
  constructor
  case varied =>
    rintro ρ _ job symbol source n r rfl hreached i d j a b hpath ha hb hsame
    have hfall := hpath.rank_add_le hg.grouped hnone (hreached.derives hg.grouped) ha hb
    rw [hsame] at hfall
    omega
  case depth =>
    rintro ρ _ job symbol source n r rfl hreached d j hpath
    have hderives := hreached.derives hg.grouped
    obtain ⟨root, hroot, -⟩ := hderives.root
    obtain ⟨m, hm⟩ : ∃ m, r.tree.nodes[j]? = some m :=
      ⟨_, Array.getElem?_eq_getElem (hpath.lt_size hderives (Tree.lt_size hroot))⟩
    have hfall := hpath.rank_add_le hg.grouped hnone hderives hroot hm
    have hrank := job.grammar.rank_le root.symbol
    omega
  case ends =>
    refine ⟨(g.longestRight + 1) ^ g.nonterminalCount, ?_⟩
    rintro ρ _ job symbol source turns rfl hturns hlimit
    have hcost := job.grammar.cost_le symbol
    exact Growth.run_ends hg hw hnone (hcost.trans hturns) (by omega) source

end ProbeForge
