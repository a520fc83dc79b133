import ProbeForge.Proofs.Derivation.Depth
import ProbeForge.Proofs.Derivation.Scripts

/-!
# Pumping

With draws given beforehand, a growth can be led through any rules: it gets rid of the symbols that
are not recursive and goes on with the first that is, again and again, until its tree is as deep as
wanted or a generator stops it. So the test for nilpotency decides whether derivations are bounded.
-/

namespace ProbeForge

open Growth (Draws)

/-! ### Led growths -/

namespace Growth

open Grammar

variable {job : Job} {i n : Nat} {pending : List Nat}

section Reaching

variable {ρ : Type} [RandomSource ρ] {s r q : Growth ρ}

theorem Reaches.trans {m : Nat} (h : Reaches job s n r) (h' : Reaches job r m q) :
    Reaches job s (n + m) q := by
  induction h' with
  | start => exact h
  | turn _ waits visited ih => exact .turn ih waits visited

theorem Reaches.grows (hg : job.grammar.Grouped) (hs : s.tree.Derives job.grammar s.pending)
    (h : Reaches job s n r) :
    r.tree.Derives job.grammar r.pending ∧ s.tree.Extends r.tree := by
  refine h.invariant
    (P := fun r => r.tree.Derives job.grammar r.pending ∧ s.tree.Extends r.tree)
    ⟨hs, Tree.Extends.refl _⟩ fun r r' i pending hwaits hvisit hr => ?_
  obtain ⟨hderives, hext⟩ := hr
  rw [hwaits] at hderives
  refine ⟨derives_visit (s := { r with pending }) hg hderives hvisit, ?_⟩
  obtain ⟨m, -, -, ⟨-, rfl⟩ | ⟨-, hexpands⟩⟩ :=
    visit_ok (s := { r with pending }) hg hderives hvisit
  · exact hext
  · exact hext.trans (hexpands.extends hderives)

end Reaching

variable {s r q : Growth Draws}

/-- The growth with the draws that come next. -/
def fed (s : Growth Draws) (draws : List Nat) : Growth Draws :=
  { s with scope := ⟨s.scope.catalog, ⟨draws⟩⟩ }

/-- Some draws take the growth from `s` to `r` under every limit that is high enough. -/
def Leads (job : Job) (s r : Growth Draws) : Prop :=
  ∃ (bound : Nat) (script : List Nat), ∀ limit : Int, bound ≤ limit → ∀ later,
    ∃ n, Reaches { job with limit } (s.fed (script ++ later)) n (r.fed later)

/-- Some draws take the growth from `s` to a fault under every limit that is high enough. -/
def Stalls (job : Job) (s : Growth Draws) : Prop :=
  ∃ (bound : Nat) (script : List Nat), ∀ limit : Int, bound ≤ limit → ∀ later,
    ∃ n r i pending fault, Reaches { job with limit } (s.fed (script ++ later)) n r ∧
      r.pending = i :: pending ∧
      (visit { job with limit } i { r with pending }).1 = some (.fault fault)

theorem Leads.refl (job : Job) (s : Growth Draws) : Leads job s s :=
  ⟨0, [], fun _ _ _ => ⟨0, .start⟩⟩

theorem Leads.trans (h : Leads job s r) (h' : Leads job r q) : Leads job s q := by
  obtain ⟨bound, script, hfirst⟩ := h
  obtain ⟨bound', script', hrest⟩ := h'
  refine ⟨max bound bound', script ++ script', fun limit hlimit later => ?_⟩
  obtain ⟨n, hn⟩ := hfirst limit (by omega) (script' ++ later)
  obtain ⟨m, hm⟩ := hrest limit (by omega) later
  exact ⟨n + m, List.append_assoc script script' later ▸ hn.trans hm⟩

theorem Leads.stalls (h : Leads job s r) (h' : Stalls job r) : Stalls job s := by
  obtain ⟨bound, script, hfirst⟩ := h
  obtain ⟨bound', script', hrest⟩ := h'
  refine ⟨max bound bound', script ++ script', fun limit hlimit later => ?_⟩
  obtain ⟨n, hn⟩ := hfirst limit (by omega) (script' ++ later)
  obtain ⟨m, q, i, pending, fault, hm, hwaits, hvisit⟩ := hrest limit (by omega) later
  exact ⟨n + m, q, i, pending, fault, List.append_assoc script script' later ▸ hn.trans hm,
    hwaits, hvisit⟩

theorem Leads.grows (hg : job.grammar.Grouped) (hs : s.tree.Derives job.grammar s.pending)
    (h : Leads job s r) : r.tree.Derives job.grammar r.pending ∧ s.tree.Extends r.tree := by
  obtain ⟨bound, script, hrun⟩ := h
  obtain ⟨n, hreached⟩ := hrun bound (Int.le_refl _) []
  refine hreached.grows ?_ ?_
  · exact hg
  · exact hs

/-- The growth can be led to where `P` holds, unless a generator fails before. -/
def Brings (job : Job) (s : Growth Draws) (P : Growth Draws → Prop) : Prop :=
  (∃ r, Leads job s r ∧ P r) ∨ Stalls job s

section Brings

variable {P Q : Growth Draws → Prop}

theorem Brings.here (hs : P s) : Brings job s P := .inl ⟨s, .refl job s, hs⟩

theorem Leads.brings (h : Leads job s r) (hr : P r) : Brings job s P := .inl ⟨r, h, hr⟩

theorem Stalls.brings (h : Stalls job s) : Brings job s P := .inr h

theorem Brings.bind (h : Brings job s P)
    (hnext : ∀ r, Leads job s r → P r → Brings job r Q) : Brings job s Q := by
  rcases h with ⟨r, hleads, hr⟩ | hstalls
  · rcases hnext r hleads hr with ⟨q, hq, hdone⟩ | hstalls
    · exact (hleads.trans hq).brings hdone
    · exact (hleads.stalls hstalls).brings
  · exact hstalls.brings

theorem Brings.imp (h : Brings job s P) (himp : ∀ r, Leads job s r → P r → Q r) :
    Brings job s Q :=
  h.bind fun r hleads hr => .here (himp r hleads hr)

end Brings

/-! ### Steps -/

theorem leads_terminal {m : Node} (hwaits : s.pending = i :: pending)
    (hm : s.tree.nodes[i]? = some m) (hterminal : job.grammar.group? m.symbol = none) :
    Leads job s { s with pending } := by
  refine ⟨0, [], fun limit _ later => ⟨1, .turn .start hwaits ?_⟩⟩
  simp only [visit, fed, hm, hterminal]
  rfl

/-- Any rule of a waiting nonterminal can be applied next, unless its generator fails. -/
theorem leads_expanded (hg : job.grammar.Coherent)
    (hw : ∀ entry ∈ job.grammar.table, 1 ≤ entry.weight)
    (hs : s.tree.Derives job.grammar s.pending) (hwaits : s.pending = i :: pending) {m : Node}
    (hm : s.tree.nodes[i]? = some m) {entry : RuleEntry} (hentry : entry ∈ job.grammar.table)
    (hleft : entry.rule.left = m.symbol) :
    Brings job s fun r => ∃ m', r.tree.nodes[i]? = some m' ∧ m'.isExpanded = true ∧
      r.tree.Follows i m' entry ∧ r.pending = m'.children ++ pending := by
  obtain ⟨group, hgroup, hsymbol⟩ := hg.owned entry hentry
  obtain ⟨k, draw, -, hdraw⟩ := hg.exists_draw hw hentry hgroup hsymbol.symm
  obtain ⟨m', hm', hunexp⟩ := hs.waiting i (hwaits ▸ List.mem_cons_self)
  cases hm.symm.trans hm'
  obtain ⟨hbare, hpayload, hsegment, -⟩ := hs.bare i m hm hunexp
  have hfound : job.grammar.group? m.symbol = some group := by
    rw [← hleft, ← hsymbol]
    exact hg.grouped.group?_eq hgroup
  -- under a limit that is high enough the turn is an expansion, whatever is drawn
  have hvisit : ∀ limit : Int, s.tree.size ≤ limit → ∀ draws,
      visit { job with limit } i { s.fed draws with pending } =
        expand { job with limit } i group { s.fed draws with pending } := by
    intro limit hlimit draws
    simp only [visit, fed, hm, hfound]
    exact if_neg (by omega)
  cases hresolve : Generator.resolve entry.generator with
  | error fault =>
    refine Stalls.brings ⟨s.tree.size, [draw], fun limit hlimit later =>
      ⟨0, _, i, pending, fault, .start, hwaits,
        (congrArg Prod.fst (hvisit limit hlimit _)).trans ?_⟩⟩
    simp only [expand, fed, List.singleton_append, hdraw, fill, hresolve]
  | ok generator =>
    have happlied : ∀ (script : List Nat) (payload : Option Payload) (segment : Option SegmentId)
        (c : Catalog), (∀ later, Ran job.objects ⟨s.scope.catalog, ⟨script ++ later⟩⟩ generator
          payload segment (⟨c, ⟨later⟩⟩ : Scope Draws)) →
        Brings job s fun r => ∃ m', r.tree.nodes[i]? = some m' ∧ m'.isExpanded = true ∧
          r.tree.Follows i m' entry ∧ r.pending = m'.children ++ pending := by
      intro script payload segment c hran
      have hleads : Leads job s
          (applied job i ⟨k, entry⟩ payload segment ⟨c, s.scope.source⟩ { s with pending }) := by
        refine ⟨s.tree.size, draw :: script, fun limit hlimit later =>
          ⟨1, .turn .start hwaits ?_⟩⟩
        exact (hvisit limit hlimit _).trans
          (expand_eq hm hpayload hsegment (hdraw (script ++ later)) hresolve (hran later))
      exact hleads.brings ⟨_, Tree.expanded_self hm hbare _ entry payload segment, rfl,
        Tree.follows_expanded hm hbare hleft hresolve (hran []).holds, rfl⟩
    cases generator with
    | none => exact happlied [] none none s.scope.catalog fun _ => ⟨rfl, rfl, rfl⟩
    | some generator =>
      rcases generator.scripted_run job.objects s.scope.catalog with
        ⟨script, payload, c, hrun⟩ | ⟨misuse, c, hrun⟩
      · exact happlied script _ _ c fun later => ⟨payload, hrun later, rfl, rfl⟩
      · refine Stalls.brings ⟨s.tree.size, [draw], fun limit hlimit later =>
          ⟨0, _, i, pending, .misuse misuse, .start, hwaits,
            (congrArg Prod.fst (hvisit limit hlimit _)).trans ?_⟩⟩
        simp only [expand, fed, List.singleton_append, hdraw, fill, hresolve, hrun]

/-! ### Mortal symbols -/

section Leading

variable (hg : job.grammar.Coherent) (hw : ∀ entry ∈ job.grammar.table, 1 ≤ entry.weight)

include hg hw

/-- The symbols at some places are not recursive and of ranks up to `k`. -/
def Mortal (g : Grammar) (t : Tree) (places : List Nat) (k : Nat) : Prop :=
  ∀ i ∈ places, ∀ m, t.nodes[i]? = some m → ¬ g.Recursive m.symbol ∧ g.rank m.symbol ≤ k

/-- Waiting symbols that are not recursive can be got rid of. -/
theorem leads_past (k : Nat) : ∀ (places : List Nat) (s : Growth Draws),
    s.tree.Derives job.grammar s.pending → s.pending = places ++ pending →
    Mortal job.grammar s.tree places k → Brings job s (·.pending = pending) := by
  have hgrouped := hg.grouped
  -- a symbol's children have lower ranks, and the places after it wait until they are gone
  induction k using Nat.strongRecOn generalizing pending with
  | ind k ihk =>
  intro places
  induction places with
  | nil => exact fun s _ hwaits _ => .here hwaits
  | cons i places ih =>
    intro s hs hwaits hmortal
    obtain ⟨m, hm, -⟩ := hs.waiting i (hwaits ▸ List.mem_cons_self)
    obtain ⟨hnot, hrank⟩ := hmortal i List.mem_cons_self m hm
    have hnext : Brings job s (·.pending = places ++ pending) := by
      cases hgroup : job.grammar.group? m.symbol with
      | none => exact (leads_terminal hwaits hm hgroup).brings rfl
      | some group =>
        obtain ⟨hmem, hsymbol⟩ := group?_mem hgroup
        obtain ⟨l, hl⟩ := List.exists_mem_of_ne_nil _ (hgrouped.inhabited group hmem)
        obtain ⟨entry, hlisted, hleft⟩ := hgrouped.entry_of_mem hmem hl
        refine (leads_expanded hg hw hs hwaits hm (Array.mem_of_getElem? hlisted)
          (hleft.trans hsymbol)).bind fun r hleads ⟨m', hm', _, hfollows, hpending⟩ => ?_
        have hderives := (hleads.grows hgrouped hs).1
        have hlower : ∀ j ∈ m'.children, ∀ c, r.tree.nodes[j]? = some c →
            ¬ job.grammar.Recursive c.symbol ∧
              job.grammar.rank c.symbol < job.grammar.rank m.symbol := by
          intro j hj c hc
          have hproduces := hderives.produces hm' hj hc
          rw [← hfollows.left, hleft, hsymbol] at hproduces
          exact ⟨fun hrec => hnot (hrec.of_produces hproduces), rank_lt hgrouped hproduces hnot⟩
        have hpos : 1 ≤ job.grammar.rank m.symbol :=
          one_le_rank (isNonterminal_iff.mpr ⟨group, hmem, hsymbol⟩)
        have hchildren : Mortal job.grammar r.tree m'.children (job.grammar.rank m.symbol - 1) :=
          fun j hj c hc => (hlower j hj c hc).imp_right Nat.le_sub_one_of_lt
        exact ihk _ (by omega) _ r hderives hpending hchildren
    refine hnext.bind fun r hleads hpending => ?_
    obtain ⟨hderives, hext⟩ := hleads.grows hgrouped hs
    refine ih r hderives hpending fun j hj c hc => ?_
    have hj := List.mem_cons_of_mem i hj
    obtain ⟨c₀, hc₀, -⟩ := hs.waiting j (hwaits ▸ List.mem_append_left _ hj)
    obtain ⟨c₁, hc₁, hsame, -⟩ := hext j c₀ hc₀
    cases hc.symm.trans hc₁
    exact hsame ▸ hmortal j hj c₀ hc₀

/-- Some symbol at the places is recursive. -/
def Immortal (g : Grammar) (t : Tree) (places : List Nat) : Prop :=
  ∃ i ∈ places, ∃ m, t.nodes[i]? = some m ∧ g.Recursive m.symbol

/-- The first recursive symbol of those that wait can be made the next one. -/
theorem leads_to_recursive {places : List Nat} {s : Growth Draws}
    (hs : s.tree.Derives job.grammar s.pending) (hwaits : s.pending = places ++ pending)
    (hrec : Immortal job.grammar s.tree places) :
    Brings job s fun r => ∃ i rest m, r.pending = i :: rest ∧ i ∈ places ∧
      r.tree.nodes[i]? = some m ∧ job.grammar.Recursive m.symbol := by
  induction places generalizing s with
  | nil =>
    obtain ⟨i, hi, -⟩ := hrec
    cases hi
  | cons i places ih =>
    obtain ⟨m, hm, -⟩ := hs.waiting i (hwaits ▸ List.mem_cons_self)
    by_cases hi : job.grammar.Recursive m.symbol
    · exact .here ⟨i, _, m, hwaits, List.mem_cons_self, hm, hi⟩
    -- what is not recursive can be grown to its end
    have hmortal : Mortal job.grammar s.tree [i] (job.grammar.rank m.symbol) := by
      intro j hj c hc
      cases List.mem_singleton.mp hj
      cases hm.symm.trans hc
      exact ⟨hi, Nat.le_refl _⟩
    refine (leads_past hg hw _ [i] s hs hwaits hmortal).bind fun r hleads hpending => ?_
    obtain ⟨hderives, hext⟩ := hleads.grows hg.grouped hs
    have hrest : Immortal job.grammar r.tree places := by
      obtain ⟨j, hj, c, hc, hrec⟩ := hrec
      rcases List.mem_cons.mp hj with rfl | hj
      · cases hm.symm.trans hc
        exact absurd hrec hi
      · obtain ⟨c', hc', hsame, -⟩ := hext j c hc
        exact ⟨j, hj, c', hc', hsame ▸ hrec⟩
    exact (ih hderives hpending hrest).imp fun q _ ⟨j, rest, c, hnext, hj, hfound⟩ =>
      ⟨j, rest, c, hnext, List.mem_cons_of_mem _ hj, hfound⟩

/-- A growth whose next symbol is recursive can be led to any depth. -/
theorem leads_deep (depth : Nat) : ∀ {s : Growth Draws} {i : Nat} {pending : List Nat} {m : Node},
    s.tree.Derives job.grammar s.pending → s.pending = i :: pending →
    s.tree.nodes[i]? = some m → job.grammar.Recursive m.symbol →
    Brings job s fun r => ∃ j, r.tree.Path i depth j := by
  have hgrouped := hg.grouped
  induction depth with
  | zero => exact fun {s i _ _} _ _ _ _ => .here ⟨i, .here⟩
  | succ depth ih =>
    intro s i pending m hs hwaits hm hrec
    -- a rule with a recursive symbol is drawn, and what stands before that symbol is grown out
    obtain ⟨b, ⟨entry, hentry, hleft, hright⟩, hb⟩ := hrec.exists_produces
    refine (leads_expanded hg hw hs hwaits hm hentry hleft).bind
      fun r hleads ⟨m', hm', hexp, hfollows, hpending⟩ => ?_
    have hderives := (hleads.grows hgrouped hs).1
    have hchild : Immortal job.grammar r.tree m'.children := by
      obtain ⟨before, after, hsplit⟩ := List.append_of_mem hright
      have hchildren := hfollows.children
      rw [hsplit] at hchildren
      obtain ⟨k₁, c, k₂, hall, -, o, ho, rfl, -⟩ := forall₂_split hchildren
      exact ⟨c, hall ▸ List.mem_append_right _ List.mem_cons_self, o, ho, hb⟩
    refine (leads_to_recursive hg hw hderives hpending hchild).bind
      fun q hq ⟨c, rest, o, hnext, hc, ho, hrec⟩ => ?_
    obtain ⟨hderives', hext⟩ := hq.grows hgrouped hderives
    refine (ih hderives' hnext ho hrec).imp fun p hp ⟨j, hpath⟩ => ⟨j, ?_⟩
    exact hpath.cons ((hp.grows hgrouped hderives').2.expanded_node
      (hext.expanded_node hm' hexp) hexp) hc

end Leading

end Growth

/-! ### Deep grammars -/

namespace Grammar

variable {g : Grammar}

/-- Some draws make the tree from the symbol deeper than any given depth or end its growth at a
fault of a generator. -/
def Deep (g : Grammar) (symbol : Symbol) : Prop :=
  ∀ (objects : Universe) (watch : Watch) (depth : Nat), ∃ (bound : Nat) (draws : List Nat),
    ∀ limit : Int, bound ≤ limit →
      let job : Job := ⟨g, objects, limit, watch⟩
      ∃ n r, Growth.Reaches job (.start symbol (⟨draws⟩ : Draws)) n r ∧
        ((∃ j, r.tree.Path 0 (depth + 1) j) ∨
          ∃ i pending fault, r.pending = i :: pending ∧
            (Growth.visit job i { r with pending }).1 = some (.fault fault) ∧ g.Misbehaves fault)

theorem Recursive.deep (hg : g.Coherent) (hw : ∀ entry ∈ g.table, 1 ≤ entry.weight)
    {symbol : Symbol} (h : g.Recursive symbol) : g.Deep symbol := by
  intro objects watch depth
  let job : Job := ⟨g, objects, 0, watch⟩
  let start : Growth Draws := .start symbol ⟨[]⟩
  have hstart := Tree.derives_start g symbol
  have hled : Growth.Brings job start fun r => ∃ j, r.tree.Path 0 (depth + 1) j :=
    Growth.leads_deep hg hw (depth + 1) hstart rfl rfl h
  rcases hled with ⟨r, ⟨bound, script, hrun⟩, j, hpath⟩ | ⟨bound, script, hrun⟩
  · refine ⟨bound, script, fun limit hlimit => ?_⟩
    obtain ⟨n, hreached⟩ := hrun limit hlimit []
    rw [List.append_nil] at hreached
    exact ⟨n, _, hreached, .inl ⟨j, hpath⟩⟩
  · refine ⟨bound, script, fun limit hlimit => ?_⟩
    obtain ⟨n, r, i, pending, fault, hreached, hwaits, hvisit⟩ := hrun limit hlimit []
    rw [List.append_nil] at hreached
    refine ⟨n, r, hreached, .inr ⟨i, pending, fault, hwaits, hvisit, ?_⟩⟩
    have hr := hwaits ▸ (hreached.grows hg.grouped hstart).1
    rcases Growth.misbehaves_visit (s := { r with pending }) hg hw hr (Prod.ext hvisit rfl) with
      ⟨fault', heq, hfault⟩ | ⟨⟨failure, heq⟩, -⟩
    · cases heq
      exact hfault
    · cases heq

/-- The test for nilpotency decides whether derivations are bounded: if it holds, all of them are,
and if not, those from some symbol can be led to any depth, unless a generator fails before. -/
theorem isNilpotent_bounds_depth (hg : g.Coherent) (hw : ∀ entry ∈ g.table, 1 ≤ entry.weight) :
    ∃ m, g.matrices ℚ = .ok m ∧ (m.expected.isNilpotent = true → g.Shallow) ∧
      (m.expected.isNilpotent = false →
        ∃ symbol, g.isNonterminal symbol = true ∧ g.Deep symbol) := by
  obtain ⟨m, hm, hnilpotent⟩ := isNilpotent_iff hg hw
  refine ⟨m, hm, fun hnil => shallow_of_not_recursive hg hw (hnilpotent.mp hnil), fun hnil => ?_⟩
  by_contra hnone
  refine Bool.eq_false_iff.mp hnil (hnilpotent.mpr fun symbol hrec => hnone ?_)
  exact ⟨symbol, hrec.isNonterminal hg.grouped, hrec.deep hg hw⟩

/-- A symbol that is nested between two others or vanishes can be nested as deep as wanted. -/
theorem isNilpotent_bounds_depth_nesting : ∃ m, Growth.nesting.matrices ℚ = .ok m ∧
    m.expected.isNilpotent = false ∧
      ∃ symbol, Growth.nesting.isNonterminal symbol = true ∧ Growth.nesting.Deep symbol := by
  have hg : Growth.nesting.Coherent := ⟨by decide, by decide, by decide, by decide, by decide⟩
  have hw : ∀ entry ∈ Growth.nesting.table, 1 ≤ entry.weight := by decide
  have hrec : Growth.nesting.Recursive ⟨"S"⟩ :=
    ⟨⟨"S"⟩, .refl, .single ⟨_, Array.getElem_mem (i := 0) (by decide), rfl, by decide⟩⟩
  obtain ⟨m, hm, -, hdeep⟩ := isNilpotent_bounds_depth hg hw
  obtain ⟨m', hm', hnilpotent⟩ := isNilpotent_iff hg hw
  cases hm.symm.trans hm'
  have hnot : m.expected.isNilpotent = false :=
    Bool.eq_false_iff.mpr fun hnil => hnilpotent.mp hnil _ hrec
  exact ⟨m, hm, hnot, hdeep hnot⟩

/-- A symbol that comes back to itself and closes a block that nobody opened. -/
def dangling : Grammar :=
  { Grammar.empty .null with
    table := #[⟨⟨⟨"S"⟩, [⟨"S"⟩]⟩, 1, .text Generator.closeBlock.id, .null⟩]
    groups := #[⟨⟨"S"⟩, 1, [0]⟩] }

/-- Although the test for nilpotency fails, no tree ever gets below its root. -/
theorem not_isNilpotent_dangling :
    dangling.Coherent ∧ (∀ entry ∈ dangling.table, 1 ≤ entry.weight) ∧
    ∃ m, dangling.matrices ℚ = .ok m ∧ m.expected.isNilpotent = false ∧
      ∀ {ρ : Type} [RandomSource ρ] {job : Job} {symbol : Symbol} {source : ρ} {n : Nat}
        {r : Growth ρ}, job.grammar = dangling → Growth.Reaches job (.start symbol source) n r →
        ∀ {d j : Nat}, r.tree.Path 0 d j → d = 0 := by
  have hg : dangling.Coherent := ⟨by decide, by decide, by decide, by decide, by decide⟩
  have hw : ∀ entry ∈ dangling.table, 1 ≤ entry.weight := by decide
  refine ⟨hg, hw, ?_⟩
  obtain ⟨m, hm, hnilpotent⟩ := isNilpotent_iff hg hw
  refine ⟨m, hm, ?_, ?_⟩
  · have hrec : dangling.Recursive ⟨"S"⟩ :=
      ⟨⟨"S"⟩, .refl, .single ⟨_, Array.getElem_mem (i := 0) (by decide), rfl, by decide⟩⟩
    exact Bool.eq_false_iff.mpr fun hnil => hnilpotent.mp hnil _ hrec
  · intro ρ _ job symbol source n r hgrammar hreached
    have hgrouped : job.grammar.Grouped := hgrammar ▸ hg.grouped
    -- the only rule closes a block, and none is open
    have hbare : r.tree.size = 1 ∧ r.scope.catalog.stack = [] := by
      induction hreached with
      | start => exact ⟨rfl, rfl⟩
      | @turn n r r' i pending reached waits visited ih =>
        obtain ⟨a, -, -, ⟨-, rfl⟩ | ⟨-, hexpands⟩⟩ := Growth.visit_ok (s := { r with pending })
          hgrouped (waits ▸ reached.derives hgrouped) visited
        · exact ih
        · obtain @⟨a, entry, generator, payload, segment, name, source, -, hrule, -, -, hresolve,
            hran, -, -, -⟩ := hexpands
          obtain rfl : entry = ⟨⟨⟨"S"⟩, [⟨"S"⟩]⟩, 1, .text Generator.closeBlock.id, .null⟩ := by
            rw [hgrammar] at hrule
            simpa [dangling] using hrule
          have hclose : Generator.resolve (.text Generator.closeBlock.id) =
              .ok (some .closeBlock) := rfl
          cases hclose.symm.trans hresolve
          obtain ⟨p, hrun, -, -⟩ := hran
          simp only [Generator.run, Scope.pop, ih.2] at hrun
          cases hrun
    intro d j hpath
    have hderives := hreached.derives hgrouped
    have hle := hpath.le hderives
    have hlt := hpath.lt_size hderives (by omega)
    omega

end Grammar

end ProbeForge
