import ProbeForge.Proofs.Derivation.Replay
import ProbeForge.Proofs.Scope.Plain
import ProbeForge.Proofs.SelectCore.Brackets

/-!
# Finished growths

What is known of the tree and the scope when a growth is complete and rendering begins.
-/

namespace ProbeForge

/-- The blocks of a tree have segments of their own, below a bound. -/
structure Tree.Numbered (t : Tree) (bound : Nat) : Prop where
  range : ∀ (i : Nat) (n : Node) (id : SegmentId), t.nodes[i]? = some n → n.segment = some id →
    id < bound
  once : ∀ (i j : Nat) (n m : Node) (id : SegmentId), t.nodes[i]? = some n →
    t.nodes[j]? = some m → n.segment = some id → m.segment = some id → i = j

/-- A node that is expanded may take the next segment. -/
theorem Tree.Numbered.expanded {t : Tree} {bound i : Nat} {n : Node} (h : t.Numbered bound)
    (hn : t.nodes[i]? = some n) (hbare : n.children = []) (name : String) (entry : RuleEntry)
    (payload : Option Payload) {segment : Option SegmentId} {bound' : Nat}
    (hsegment : segment = none ∧ bound' = bound ∨ segment = some bound ∧ bound' = bound + 1) :
    (t.expanded i name entry payload segment).Numbered bound' := by
  -- a block of the new tree is the expanded node or was there before
  have hcases : ∀ (k : Nat) (m : Node) (id : SegmentId),
      (t.expanded i name entry payload segment).nodes[k]? = some m → m.segment = some id →
      k = i ∧ segment = some id ∨ k ≠ i ∧ t.nodes[k]? = some m := by
    intro k m id hm hid
    rw [Tree.nodes_expanded hn hbare] at hm
    split at hm
    case isTrue hik =>
      cases hm
      exact .inl ⟨hik.symm, hid⟩
    case isFalse hik =>
      split at hm
      · exact .inr ⟨Ne.symm hik, hm⟩
      · obtain ⟨s, -, rfl⟩ := Option.map_eq_some_iff.mp hm
        cases hid
  have hle : bound ≤ bound' := by omega
  constructor
  case range =>
    intro k m id hm hid
    rcases hcases k m id hm hid with ⟨-, hkept⟩ | ⟨-, hold⟩
    · rcases hsegment with ⟨rfl, -⟩ | ⟨rfl, rfl⟩
      · cases hkept
      · cases hkept
        exact Nat.lt_succ_self _
    · exact Nat.lt_of_lt_of_le (h.range k m id hold hid) hle
  case once =>
    -- the next segment is none of the old ones
    have hnew : ∀ (k : Nat) (m : Node) (id : SegmentId), t.nodes[k]? = some m →
        m.segment = some id → segment ≠ some id := by
      intro k m id hm hid heq
      have hlt := h.range k m id hm hid
      rcases hsegment with ⟨rfl, -⟩ | ⟨rfl, -⟩
      · cases heq
      · cases heq
        exact Nat.lt_irrefl _ hlt
    intro j k m m' id hm hm' hid hid'
    rcases hcases j m id hm hid with ⟨rfl, hkept⟩ | ⟨-, hold⟩
    · rcases hcases k m' id hm' hid' with ⟨rfl, -⟩ | ⟨-, hold'⟩
      · rfl
      · exact absurd hkept (hnew k m' id hold' hid')
    · rcases hcases k m' id hm' hid' with ⟨-, hkept⟩ | ⟨-, hold'⟩
      · exact absurd hkept (hnew j m id hold hid)
      · exact h.once j k m m' id hold hold' hid hid'

/-- No block is opened twice. -/
theorem Tree.Numbered.not_opens {t : Tree} {g : Grammar} {pending : List Nat} {bound i c : Nat}
    {n : Node} {id : SegmentId} (h : t.Numbered bound) (ht : t.Derives g pending)
    (hn : t.nodes[i]? = some n) (hsegment : n.segment = some id) (hc : c ∈ n.children) :
    ¬ t.Opens c id := by
  rintro ⟨d, j, m, hpath, hm, hid⟩
  cases h.once i j n m id hn hm hsegment hid
  obtain ⟨-, hlt, -⟩ := ht.child hn hc
  have hle := hpath.le ht
  omega

/-- The blocks in two children of a node are different. -/
theorem Tree.Numbered.siblings {t : Tree} {g : Grammar} {pending : List Nat} {bound i c c' : Nat}
    {n : Node} {id : SegmentId} (h : t.Numbered bound) (ht : t.Derives g pending)
    (hn : t.nodes[i]? = some n) (hc : c ∈ n.children) (hc' : c' ∈ n.children)
    (hopens : t.Opens c id) (hopens' : t.Opens c' id) : c = c' := by
  obtain ⟨d, j, m, hpath, hm, hid⟩ := hopens
  obtain ⟨d', j', m', hpath', hm', hid'⟩ := hopens'
  cases h.once j j' m m' id hm hm' hid hid'
  exact hpath.sibling_unique ht hn hc hc' hpath'

namespace SelectCore

variable {ρ : Type}

/-- What holds of the segments in every state of a growth. -/
structure Stocked (r : Growth ρ) : Prop where
  plain : r.scope.catalog.Plain
  numbered : r.tree.Numbered r.scope.catalog.segments.size

theorem stocked_start (symbol : Symbol) (source : ρ) : Stocked (.start symbol source) where
  plain id := by
    simp [Growth.start, Catalog.segment, Catalog.empty]
    exact Segment.plain_default
  numbered := by
    have hnone : ∀ (i : Nat) (n : Node), (Tree.empty.addRoot symbol).nodes[i]? = some n →
        n.segment = none := by
      intro i n hn
      have honly : #[Node.fresh symbol none][i]? = some n := hn
      obtain ⟨hlt, rfl⟩ := Array.getElem?_eq_some_iff.mp honly
      cases i with
      | zero => rfl
      | succ i => exact absurd hlt (by simp)
    refine ⟨fun i n id hn hid => ?_, fun i j n m id hn hm hid _ => ?_⟩
    · rw [hnone i n hn] at hid
      cases hid
    · rw [hnone i n hn] at hid
      cases hid

variable [RandomSource ρ] {job : Job} {r r' : Growth ρ} {i : Nat} {pending : List Nat}

theorem Stocked.visit (hg : IsCore job.grammar) (hsound : Sound job.grammar r) (h : Stocked r)
    (hwaits : r.pending = i :: pending)
    (hvisit : Growth.visit job i { r with pending } = (none, r')) : Stocked r' := by
  have hderives := hwaits ▸ hsound.derives
  obtain ⟨n, hn, hunexp, ⟨-, rfl⟩ | ⟨-, hexp⟩⟩ :=
    Growth.visit_ok (s := { r with pending }) hg.grouped hderives hvisit
  · exact ⟨h.plain, h.numbered⟩
  · obtain @⟨n', entry, generator, payload, segment, name, source, hn', hrule, hleft, -,
      hresolve, hran, htree, -, -⟩ := hexp
    cases hn.symm.trans hn'
    obtain ⟨id, rest, heffects⟩ := hsound.effects hg hwaits hn hrule hleft hresolve hran
    refine ⟨heffects.plain h.plain, ?_⟩
    rw [htree]
    exact h.numbered.expanded hn (hderives.bare i n hn hunexp).1 name entry payload
      heffects.segment_cases

theorem stocked_of_reaches (hg : IsCore job.grammar) {source : ρ} {turns : Nat}
    (h : Growth.Reaches job (.start ⟨"sql_statement"⟩ source) turns r) : Stocked r := by
  have hboth : Sound job.grammar r ∧ Stocked r :=
    h.invariant (P := fun r => Sound job.grammar r ∧ Stocked r)
      ⟨sound_start _ source, stocked_start _ source⟩
      fun _ _ _ _ hwaits hvisit hboth =>
        ⟨hboth.1.visit hg hwaits hvisit, hboth.2.visit hg hboth.1 hwaits hvisit⟩
  exact hboth.2

omit [RandomSource ρ] in
/-- The open blocks are those of nodes, so their segments exist. -/
theorem Stocked.open_lt (h : Stocked r) {g : Grammar} (hsound : Sound g r) {id : SegmentId}
    (hid : id ∈ r.scope.catalog.stack) : id < r.scope.catalog.segments.size := by
  rcases hsound.blocks with ⟨-, hnone, -⟩ | ⟨root, block, hroot, -, hsegment, hstack⟩
  · rw [hnone] at hid
    cases hid
  · rw [hstack] at hid
    rcases List.mem_append.mp hid with hclosed | hlast
    · obtain ⟨i, -, hcloses⟩ := List.mem_filterMap.mp hclosed
      obtain ⟨n, -, hends⟩ := Option.bind_eq_some_iff.mp hcloses
      split at hends
      case isTrue =>
        obtain ⟨p, -, hparent⟩ := Option.bind_eq_some_iff.mp hends
        obtain ⟨m, hm, hid⟩ := Option.bind_eq_some_iff.mp hparent
        exact h.numbered.range _ m id hm hid
      case isFalse => cases hends
    · cases List.mem_singleton.mp hlast
      exact h.numbered.range 0 root _ hroot hsegment

/-- A growth that came to its end. -/
structure Finished (job : Job) (source : ρ) (r : Growth ρ) : Prop extends Stocked r where
  derives : r.tree.Derives job.grammar []
  shared : r.scope.catalog.Shared
  root : ∃ n id, r.tree.nodes[0]? = some n ∧ n.symbol = ⟨"sql_statement"⟩ ∧
    n.segment = some id ∧ r.scope.catalog.stack = [id]
  replayed : ∃ levels, Replays job.grammar job.objects r.tree levels 0 ⟨.empty, source⟩ r.scope

theorem finished_of_run (hg : IsCore job.grammar) {source : ρ} {turns : Nat}
    (h : Growth.run job turns (.start ⟨"sql_statement"⟩ source) = (none, r)) :
    Finished job source r := by
  have hends : Growth.Ends job (.start ⟨"sql_statement"⟩ source) (0 + turns)
      (Growth.run job turns (.start ⟨"sql_statement"⟩ source)) := Growth.ends_run .start
  rw [h] at hends
  cases hends with
  | complete reached done =>
    have hsound := sound_of_reaches hg reached
    obtain ⟨hext, hderives, hchain⟩ := Growth.replays_run hg.grouped
      (r := .start ⟨"sql_statement"⟩ source) (Tree.derives_start _ _) h
    obtain ⟨n, hn, hsymbol, -, -⟩ := hext 0 _ rfl
    obtain ⟨root, id, hroot, hsegment, hstack⟩ := hsound.complete done
    cases hn.symm.trans hroot
    exact ⟨stocked_of_reaches hg reached, hderives, hsound.shared, ⟨n, id, hn, hsymbol, hsegment, hstack⟩,
      turns, hchain.singleton⟩

end SelectCore

end ProbeForge
