import ProbeForge.Proofs.Scope.Effects
import ProbeForge.Proofs.SelectCore.Trees

/-!
# Blocks are nested as the tree is

While a statement grows, the stack of open blocks can be read off the nodes that wait: below the
block of the statement itself there is one for each waiting end of a subquery, in the same order. So
each end closes the block that its own subquery opened, no operation misses an open block, and a
statement that is complete has its own block open and no other.
-/

namespace ProbeForge.SelectCore

open Grammars Scope

/-! ### Block rules -/

theorem openBlock_cases {name : String} {alternative : Alternative}
    (hmem : alternative ∈ alternatives name) (h : alternative.2.1 = some .openBlock) :
    name = "sql_statement" ∧ alternative.1 = ["query"] ∨
      name = "subquery" ∧ alternative.1 = ["(", "query_block", "end_of_subquery", ")"] := by
  revert h
  exact forall_alternatives (P := fun name alternative => alternative.2.1 = some .openBlock →
    name = "sql_statement" ∧ alternative.1 = ["query"] ∨
      name = "subquery" ∧ alternative.1 = ["(", "query_block", "end_of_subquery", ")"])
    (by decide) hmem

theorem closeBlock_iff {name : String} {alternative : Alternative}
    (hmem : alternative ∈ alternatives name) :
    alternative.2.1 = some .closeBlock ↔ name = "end_of_subquery" :=
  forall_alternatives (P := fun name alternative =>
    alternative.2.1 = some .closeBlock ↔ name = "end_of_subquery") (by decide) hmem

theorem right_closeBlock {name : String} {alternative : Alternative}
    (hmem : alternative ∈ alternatives name) (h : alternative.2.1 = some .closeBlock) :
    alternative.1 = [] := by
  revert h
  exact forall_alternatives (P := fun _ alternative =>
    alternative.2.1 = some .closeBlock → alternative.1 = []) (by decide) hmem

/-- Only a subquery has an end. -/
theorem subquery_of_end {name : String} {alternative : Alternative}
    (hmem : alternative ∈ alternatives name) (h : "end_of_subquery" ∈ alternative.1) :
    name = "subquery" ∧ alternative.2.1 = some .openBlock := by
  revert h
  exact forall_alternatives (P := fun name alternative => "end_of_subquery" ∈ alternative.1 →
    name = "subquery" ∧ alternative.2.1 = some .openBlock) (by decide) hmem

/-- The rule of the whole statement opens the first block. -/
theorem statement_right {alternative : Alternative}
    (hmem : alternative ∈ alternatives "sql_statement") :
    alternative.1 = ["query"] ∧ alternative.2.1 = some .openBlock := by
  cases List.mem_singleton.mp hmem
  exact ⟨rfl, rfl⟩

/-- No rule leads back to the whole statement. -/
theorem statement_not_mem_right {name : String} {alternative : Alternative}
    (hmem : alternative ∈ alternatives name) : "sql_statement" ∉ alternative.1 :=
  forall_alternatives (P := fun _ alternative => "sql_statement" ∉ alternative.1) (by decide) hmem

/-! ### The stack read off a growth -/

/-- The block that the turn of a waiting node closes, if it closes one: the one that the node's
parent opened. -/
def closes (t : Tree) (i : Nat) : Option SegmentId :=
  t.nodes[i]?.bind fun n =>
    if n.symbol = ⟨"end_of_subquery"⟩ then
      n.parent.bind fun p => t.nodes[p.toNat]?.bind (·.segment)
    else none

variable {ρ : Type} {i : Nat}

/-- The open blocks are the one of the statement and those whose ends wait. -/
def Nested (s : Growth ρ) : Prop :=
  ∃ root id, s.tree.nodes[0]? = some root ∧ root.isExpanded = true ∧ root.segment = some id ∧
    s.scope.catalog.stack = s.pending.filterMap (closes s.tree) ++ [id]

/-- What holds in every state of a growth from the start symbol. -/
structure Sound (g : Grammar) (s : Growth ρ) : Prop where
  derives : s.tree.Derives g s.pending
  shared : s.scope.catalog.Shared
  blocks : (s.pending = [0] ∧ s.scope.catalog.stack = [] ∧
      ∃ n, s.tree.nodes[0]? = some n ∧ n.symbol = ⟨"sql_statement"⟩) ∨ Nested s

theorem sound_start (g : Grammar) (source : ρ) :
    Sound g (.start ⟨"sql_statement"⟩ source) where
  derives := Tree.derives_start g _
  shared id := by simp [Growth.start, Catalog.segment, Catalog.empty]; rfl
  blocks := .inl ⟨rfl, rfl, _, rfl, rfl⟩

theorem closes_of_ne {t : Tree} {n : Node} (hn : t.nodes[i]? = some n)
    (h : n.symbol ≠ ⟨"end_of_subquery"⟩) : closes t i = none := by
  rw [closes, hn, Option.bind_some, if_neg h]

/-- What waits below an expanded root is not the root. -/
theorem ne_zero_of_waiting {g : Grammar} {t : Tree} {pending : List Nat}
    (ht : t.Derives g pending) {root : Node} (hroot : t.nodes[0]? = some root)
    (hexp : root.isExpanded = true) (hi : i ∈ pending) : i ≠ 0 := by
  rintro rfl
  obtain ⟨n, hn, hunexp⟩ := ht.waiting 0 hi
  cases hroot.symm.trans hn
  rw [hexp] at hunexp
  cases hunexp

/-- The end of a subquery closes the block of its subquery. -/
theorem closes_end {g : Grammar} (hg : IsCore g) {t : Tree} {pending : List Nat}
    (ht : t.Derives g pending) {n : Node} (hn : t.nodes[i]? = some n)
    (hsymbol : n.symbol = ⟨"end_of_subquery"⟩) (hi : i ≠ 0) :
    ∃ (p : Nat) (m : Node) (id : SegmentId), n.parent = some (p : Int) ∧ t.nodes[p]? = some m ∧
      m.symbol = ⟨"subquery"⟩ ∧ m.segment = some id ∧ closes t i = some id := by
  obtain ⟨p, m, right, generator, representer, hparent, hm, -, -, hmem, htakes, hname⟩ :=
    hg.parent_takes ht hn hi
  rw [hsymbol] at hname
  obtain ⟨hsubquery, hgenerator⟩ := subquery_of_end hmem hname
  have hholds := htakes.holds
  simp only at hgenerator
  rw [hgenerator] at hholds
  obtain ⟨id, -, hsegment⟩ := hholds
  refine ⟨p, m, id, hparent, hm, congrArg Symbol.mk hsubquery, hsegment, ?_⟩
  simp [closes, hn, hsymbol, hparent, hm, hsegment]

/-- Nodes that wait keep what they close while the tree grows. -/
theorem closes_extends {g : Grammar} (hg : IsCore g) {t t' : Tree} {pending : List Nat}
    (ht : t.Derives g pending) (hext : t.Extends t') {n : Node} (hn : t.nodes[i]? = some n)
    (hi : i ≠ 0) : closes t' i = closes t i := by
  obtain ⟨n', hn', hsymbol, hparent, -⟩ := hext i n hn
  obtain ⟨p, m, right, generator, representer, hparent', hm, hexp, -⟩ := hg.parent_takes ht hn hi
  have hm' := hext.expanded_node hm hexp
  simp [closes, hn, hn', hsymbol, hparent, hparent', hm, hm']

theorem filterMap_range' {α β : Type} {f : Nat → Option β} {g : α → Option β} {l : List α}
    {base : Nat} (h : ∀ j (hj : j < l.length), f (base + j) = g l[j]) :
    (List.range' base l.length).filterMap f = l.filterMap g := by
  induction l generalizing base with
  | nil => rfl
  | cons a l ih =>
    have hhead : f base = g a := h 0 (Nat.succ_pos _)
    have htail : (List.range' (base + 1) l.length).filterMap f = l.filterMap g := by
      refine ih fun j hj => ?_
      rw [Nat.add_assoc, Nat.add_comm 1 j]
      exact h (j + 1) (Nat.succ_lt_succ hj)
    rw [List.length_cons, List.range'_succ, List.filterMap_cons, List.filterMap_cons, hhead, htail]

/-- A complete growth leaves the block of the statement open, and no other. -/
theorem Sound.complete {g : Grammar} {r : Growth ρ} (h : Sound g r)
    (hdone : r.pending = []) :
    ∃ root id, r.tree.nodes[0]? = some root ∧ root.segment = some id ∧
      r.scope.catalog.stack = [id] := by
  rcases h.blocks with ⟨hopening, -⟩ | ⟨root, block, hroot, -, hsegment, hstack⟩
  · rw [hdone] at hopening
    cases hopening
  · rw [hdone] at hstack
    exact ⟨root, block, hroot, hsegment, hstack⟩

/-! ### One turn -/

variable [RandomSource ρ] {job : Job} {r r' : Growth ρ} {pending : List Nat}

/-- What the symbols of a right side close if they stand under a node with that segment. -/
def ends (right : List Symbol) (segment : Option SegmentId) : List SegmentId :=
  right.filterMap fun s => if s = ⟨"end_of_subquery"⟩ then segment else none

theorem ends_eq_nil {right : List Symbol} (segment : Option SegmentId)
    (h : "end_of_subquery" ∉ right.map (·.name)) : ends right segment = [] := by
  refine List.filterMap_eq_nil_iff.mpr fun s hs => if_neg ?_
  rintro rfl
  exact h (List.mem_map_of_mem hs)

/-- The nodes under an expanded one close its block where they end it. -/
theorem closes_children {t : Tree} {n : Node} (hn : t.nodes[i]? = some n)
    (hbare : n.children = []) (name : String) (entry : RuleEntry) (payload : Option Payload)
    (segment : Option SegmentId) :
    (List.range' t.size entry.rule.right.length).filterMap
        (closes (t.expanded i name entry payload segment)) = ends entry.rule.right segment := by
  refine filterMap_range' fun j hj => ?_
  have hself := Tree.expanded_self hn hbare name entry payload segment
  simp [closes, Tree.expanded_child hn hbare hj, hself, Node.fresh, Node.filled]

omit [RandomSource ρ] in
/-- The ends below a node come before those that were waiting behind it. -/
theorem stack_expanded {g : Grammar} (hg : IsCore g) {t : Tree}
    (ht : t.Derives g (i :: pending)) (hi : i ≠ 0) {n : Node} (hn : t.nodes[i]? = some n)
    {right : List Symbol} {generator : Option Generator} {representer : Representer}
    (hmem : (right.map (·.name), generator, representer) ∈ alternatives n.symbol.name)
    {id block : SegmentId} {rest : List SegmentId} {payload : Option Payload}
    {segment : Option SegmentId} {s s' : Scope ρ}
    (heffects : Effects id rest s generator payload segment s')
    (hopen : s.catalog.stack = id :: rest)
    (hstack : s.catalog.stack = (i :: pending).filterMap (closes t) ++ [block]) :
    s'.catalog.stack = ends right segment ++ (pending.filterMap (closes t) ++ [block]) := by
  rcases heffects.stack_cases with ⟨rfl, rfl, hpushed⟩ | ⟨rfl, hpopped⟩ | ⟨hopens, hcloses, hsame⟩
  · obtain ⟨hname, -⟩ | ⟨hname, hright⟩ := openBlock_cases hmem rfl
    · -- the node has a parent, so it is not the whole statement
      obtain ⟨p, m, right, generator, representer, -, -, -, -, hmem', -, hin⟩ :=
        hg.parent_takes ht hn hi
      exact absurd (hname ▸ hin) (statement_not_mem_right hmem')
    · have hends : right = [⟨"("⟩, ⟨"query_block"⟩, ⟨"end_of_subquery"⟩, ⟨")"⟩] :=
        List.map_injective_iff.mpr (fun _ _ h => congrArg Symbol.mk h) hright
      have hnot : closes t i = none := closes_of_ne hn fun h => by simp [h] at hname
      rw [List.filterMap_cons, hnot] at hstack
      rw [hpushed, hends]
      exact congrArg _ hstack
  · have hsymbol : n.symbol = ⟨"end_of_subquery"⟩ :=
      congrArg Symbol.mk ((closeBlock_iff hmem).mp rfl)
    obtain ⟨p, m, ended, -, -, -, -, hended⟩ := closes_end hg ht hn hsymbol hi
    have hnone : right = [] := List.map_eq_nil_iff.mp (right_closeBlock hmem rfl)
    rw [List.filterMap_cons, hended, hopen] at hstack
    rw [hpopped, hnone]
    exact (List.cons.inj hstack).2
  · have hnot : closes t i = none :=
      closes_of_ne hn fun h => hcloses ((closeBlock_iff hmem).mpr (congrArg Symbol.name h))
    rw [List.filterMap_cons, hnot] at hstack
    rw [ends_eq_nil segment fun hin => hopens (subquery_of_end hmem hin).2, hsame]
    exact hstack

/-- The start symbol opens the block of the statement. -/
theorem nested_of_opening (hg : IsCore job.grammar)
    (hderives : r.tree.Derives job.grammar [0]) (hshared : r.scope.catalog.Shared)
    (hstack : r.scope.catalog.stack = []) {n : Node} (hn : r.tree.nodes[0]? = some n)
    (hsymbol : n.symbol = ⟨"sql_statement"⟩)
    (hexp : Growth.Expands job 0 { r with pending := [] } r') :
    r'.scope.catalog.Shared ∧ Nested r' := by
  obtain @⟨n', entry, generator, payload, segment, name, source, hn', hrule, hleft, -, hresolve,
    hran, htree, hpending, -⟩ := hexp
  cases hn.symm.trans hn'
  obtain ⟨m, hm, hunexp⟩ := hderives.waiting 0 List.mem_cons_self
  cases hn.symm.trans hm
  have hbare := (hderives.bare 0 n hn hunexp).1
  obtain ⟨representer, hmem, -⟩ := hg.alternative hrule hresolve
  rw [hleft, hsymbol] at hmem
  obtain ⟨hright, hopens⟩ := statement_right hmem
  dsimp only at hright hopens
  subst hopens
  obtain ⟨p, hrun, rfl, rfl⟩ := hran
  have hends : ends entry.rule.right (Generator.openBlock.keptSegment p) = [] :=
    ends_eq_nil _ (by rw [hright]; decide)
  have hclosed := (closes_children hn hbare name entry (some p) _).trans hends
  obtain ⟨rfl, hscope⟩ := Generator.openBlock_ok hrun
  have hroot := congrArg (·.nodes[0]?) htree
  refine ⟨hscope ▸ push_shared hshared, _, r.scope.catalog.segments.size,
    hroot.trans (Tree.expanded_self hn hbare name entry _ _), rfl, rfl, ?_⟩
  have hopen : r'.scope.catalog.stack = [r.scope.catalog.segments.size] := by
    rw [hscope, push_stack]
    exact congrArg _ hstack
  have hwaits : r'.pending = List.range' r.tree.size entry.rule.right.length :=
    hpending.trans (List.append_nil _)
  rw [hopen, hwaits, htree]
  exact (congrArg (fun closed => closed ++ [r.scope.catalog.segments.size]) hclosed).symm

/-- A turn in an open block. -/
theorem Nested.expand (hg : IsCore job.grammar) (h : Nested r) (hwaits : r.pending = i :: pending)
    (hderives : r.tree.Derives job.grammar (i :: pending)) (hshared : r.scope.catalog.Shared)
    (hexp : Growth.Expands job i { r with pending } r') :
    r'.scope.catalog.Shared ∧ Nested r' := by
  obtain ⟨root, block, hroot, hrootexp, hsegment, hstack⟩ := h
  have hext := hexp.extends hderives
  obtain @⟨n, entry, generator, payload, segment, name, source, hn, hrule, hleft, -, hresolve,
    hran, htree, hpending, -⟩ := hexp
  obtain ⟨m, hm, hunexp⟩ := hderives.waiting i List.mem_cons_self
  cases hn.symm.trans hm
  have hbare := (hderives.bare i n hn hunexp).1
  obtain ⟨representer, hmem, -⟩ := hg.alternative hrule hresolve
  rw [hleft] at hmem
  -- the root was expanded, so what waits has a parent
  have hzero : ∀ k ∈ i :: pending, k ≠ 0 := fun k =>
    ne_zero_of_waiting hderives hroot hrootexp
  have hold : pending.filterMap (closes r'.tree) = pending.filterMap (closes r.tree) := by
    refine List.filterMap_congr fun k hk => ?_
    obtain ⟨m, hm, -⟩ := hderives.waiting k (List.mem_cons_of_mem _ hk)
    exact closes_extends hg hderives hext hm (hzero k (List.mem_cons_of_mem _ hk))
  have hnew := closes_children hn hbare name entry payload segment
  rw [hwaits] at hstack
  obtain ⟨id, rest, hopen⟩ : ∃ id rest, r.scope.catalog.stack = id :: rest := by
    rw [hstack]
    exact List.exists_cons_of_ne_nil (by simp)
  have heffects := hran.effects (s := { r.scope with source }) hshared (.inl hopen)
  refine ⟨heffects.shared hshared, root, block, hext.expanded_node hroot hrootexp, hrootexp,
    hsegment, ?_⟩
  have hscope := stack_expanded hg hderives (hzero i List.mem_cons_self) hn hmem heffects hopen
    hstack
  rw [hscope, hpending, List.filterMap_append, hold, List.append_assoc, htree]
  exact congrArg (· ++ _) hnew.symm

/-! ### Whole growths -/

theorem Sound.visit (hg : IsCore job.grammar) (h : Sound job.grammar r)
    (hwaits : r.pending = i :: pending)
    (hvisit : Growth.visit job i { r with pending } = (none, r')) : Sound job.grammar r' := by
  have hderives := hwaits ▸ h.derives
  have hderives' := Growth.derives_visit (s := { r with pending }) hg.grouped hderives hvisit
  obtain ⟨n, hn, -, hcases⟩ :=
    Growth.visit_ok (s := { r with pending }) hg.grouped hderives hvisit
  suffices hopen : r'.scope.catalog.Shared ∧ Nested r' from ⟨hderives', hopen.1, .inr hopen.2⟩
  rcases h.blocks with ⟨hopening, hstack, m, hm, hsymbol⟩ | hnested
  · obtain ⟨rfl, rfl⟩ := List.cons.inj (hwaits.symm.trans hopening)
    cases hm.symm.trans hn
    rcases hcases with ⟨hterminal, -⟩ | ⟨-, hexp⟩
    · exact absurd hterminal (hg.not_terminal (hsymbol ▸ List.cons_ne_nil _ _))
    · exact nested_of_opening hg hderives h.shared hstack hn hsymbol hexp
  · rcases hcases with ⟨hterminal, rfl⟩ | ⟨-, hexp⟩
    · obtain ⟨root, block, hroot, hrootexp, hsegment, hstack⟩ := hnested
      have hnot : closes r.tree i = none := closes_of_ne hn fun hend =>
        absurd hterminal (hg.not_terminal (hend ▸ List.cons_ne_nil _ _))
      rw [hwaits, List.filterMap_cons, hnot] at hstack
      exact ⟨h.shared, root, block, hroot, hrootexp, hsegment, hstack⟩
    · exact hnested.expand hg hwaits hderives h.shared hexp

/-- Every turn has an open block, but for the one that opens the first. -/
theorem Sound.effects (hg : IsCore job.grammar) (h : Sound job.grammar r)
    (hwaits : r.pending = i :: pending) {n : Node} (hn : r.tree.nodes[i]? = some n)
    {entry : RuleEntry} {generator : Option Generator} {payload : Option Payload}
    {segment : Option SegmentId} {source : ρ} {s' : Scope ρ} (hrule : entry ∈ job.grammar.table)
    (hleft : entry.rule.left = n.symbol)
    (hresolve : Generator.resolve entry.generator = .ok generator)
    (hran : Ran job.objects { r.scope with source } generator payload segment s') :
    ∃ id rest, Effects id rest { r.scope with source } generator payload segment s' := by
  rcases h.blocks with ⟨hopening, -, m, hm, hsymbol⟩ | ⟨root, block, -, -, -, hstack⟩
  · obtain ⟨rfl, -⟩ := List.cons.inj (hwaits.symm.trans hopening)
    cases hm.symm.trans hn
    obtain ⟨representer, hmem, -⟩ := hg.alternative hrule hresolve
    rw [hleft, hsymbol] at hmem
    exact ⟨0, [], hran.effects h.shared (.inr (statement_right hmem).2)⟩
  · obtain ⟨id, rest, hopen⟩ : ∃ id rest, r.scope.catalog.stack = id :: rest := by
      rw [hstack]
      exact List.exists_cons_of_ne_nil (by simp)
    exact ⟨id, rest, hran.effects h.shared (.inl hopen)⟩

/-- Only the node limit ends a growth early. -/
theorem Sound.halts (hg : IsCore job.grammar) (h : Sound job.grammar r)
    (hwaits : r.pending = i :: pending) {halt : Halt}
    (hvisit : Growth.visit job i { r with pending } = (some halt, r')) :
    ∃ symbol, halt = .failure (.tooManyNodes (toString job.limit) symbol) ∧
      job.limit < r'.tree.size := by
  have hderives := hwaits ▸ h.derives
  obtain ⟨n, hn, hunexp⟩ := hderives.waiting i List.mem_cons_self
  obtain ⟨-, hpayload, hsegment, -⟩ := hderives.bare i n hn hunexp
  have hturn := Growth.turn_visit (s := { r with pending }) hg.grouped hn hpayload hsegment
  rw [hvisit] at hturn
  cases hturn with
  | overLimit _ exceeds => exact ⟨_, rfl, exceeds⟩
  | refused refuses => exact (Growth.not_refuses hg.runnable refuses).elim
  | misused source rule left resolved ran =>
    have hempty := Generator.stack_of_error ran
    rcases h.blocks with ⟨hopening, -, m, hm, hsymbol⟩ | ⟨root, block, -, -, -, hstack⟩
    · obtain ⟨rfl, rfl⟩ := List.cons.inj (hwaits.symm.trans hopening)
      cases hm.symm.trans hn
      obtain ⟨representer, hmem, -⟩ := hg.alternative rule resolved
      rw [left, hsymbol] at hmem
      -- the start symbol opens its block, which never fails
      cases (statement_right hmem).2
      cases ran
    · exact absurd (hstack.symm.trans hempty) (by simp)

theorem sound_of_reaches (hg : IsCore job.grammar) {source : ρ} {turns : Nat}
    (h : Growth.Reaches job (.start ⟨"sql_statement"⟩ source) turns r) : Sound job.grammar r :=
  h.invariant (sound_start _ source) fun _ _ _ _ hwaits hvisit hsound =>
    hsound.visit hg hwaits hvisit

/-- The end of a subquery takes the block of its own subquery off the stack. -/
theorem Sound.closes_own (hg : IsCore job.grammar) (h : Sound job.grammar r)
    (hwaits : r.pending = i :: pending) {n : Node} (hn : r.tree.nodes[i]? = some n)
    (hsymbol : n.symbol = ⟨"end_of_subquery"⟩)
    (hvisit : Growth.visit job i { r with pending } = (none, r')) :
    ∃ (p : Nat) (m : Node) (id : SegmentId), n.parent = some (p : Int) ∧
      r.tree.nodes[p]? = some m ∧ m.symbol = ⟨"subquery"⟩ ∧ m.segment = some id ∧
      r.scope.catalog.stack = id :: r'.scope.catalog.stack := by
  have hderives := hwaits ▸ h.derives
  rcases h.blocks with ⟨hopening, -, m, hm, hstart⟩ | ⟨root, block, hroot, hrootexp, -, hstack⟩
  · obtain ⟨rfl, -⟩ := List.cons.inj (hwaits.symm.trans hopening)
    cases hm.symm.trans hn
    exact absurd (hstart.symm.trans hsymbol) (by simp)
  · have hi : i ≠ 0 := ne_zero_of_waiting hderives hroot hrootexp List.mem_cons_self
    obtain ⟨p, m, id, hparent, hm, hsubquery, hsegment, hid⟩ :=
      closes_end hg hderives hn hsymbol hi
    rw [hwaits, List.filterMap_cons, hid] at hstack
    refine ⟨p, m, id, hparent, hm, hsubquery, hsegment, ?_⟩
    obtain ⟨n', hn', -, ⟨hterminal, -⟩ | ⟨-, hexp⟩⟩ :=
      Growth.visit_ok (s := { r with pending }) hg.grouped hderives hvisit
    · cases hn.symm.trans hn'
      exact absurd hterminal (hg.not_terminal (hsymbol ▸ List.cons_ne_nil _ _))
    · obtain @⟨n', entry, generator, payload, segment, name, source, hn', hrule, hleft, -,
        hresolve, hran, -, -, -⟩ := hexp
      cases hn.symm.trans hn'
      obtain ⟨representer, hmem, -⟩ := hg.alternative hrule hresolve
      rw [hleft, hsymbol] at hmem
      cases (closeBlock_iff hmem).mpr rfl
      obtain ⟨q, hrun, -, -⟩ := hran
      have heffect := Generator.effect_of_run (s := { r.scope with source }) h.shared hstack hrun
      rw [hstack, show r'.scope = _ from heffect]
      rfl

end ProbeForge.SelectCore
