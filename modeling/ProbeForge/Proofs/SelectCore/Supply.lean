import ProbeForge.Proofs.SelectCore.Sources

/-!
# Supply of a block

How the sources of a block come to be registered, rule by rule. A source and its alias are written
by neighbours, so an item is looked at as a whole; everywhere else a growth leaves the sources that
can be referred to as they are.
-/

namespace ProbeForge.SelectCore

open Grammars Scope

variable {ρ : Type} [RandomSource ρ] {g : Grammar} {u : Universe} {t : Tree}
  {levels i : Nat} {n : Node} {id : SegmentId} {rest : List SegmentId} {s s₁ s' : Scope ρ}

/-! ### Replayed rules -/

/-- The part of the growth at a node, with the rule that the node took. -/
structure Replayed (g : Grammar) (u : Universe) (t : Tree) (levels i : Nat) (n : Node)
    (right : List String) (generator : Option Generator) (s s' : Scope ρ) : Prop where
  children : List.Forall₂ (fun c name => ∃ m, t.nodes[c]? = some m ∧ m.symbol = ⟨name⟩)
    n.children right
  holds : Holds generator n.payload n.segment
  ran : ∃ source s₁, Ran u { s with source } generator n.payload n.segment s₁ ∧
    Chain (Replays g u t levels) n.children s₁ s'

theorem replays_terminal (hg : IsCore g) (ht : t.Derives g []) (hn : t.nodes[i]? = some n)
    (hterminal : alternatives n.symbol.name = []) (h : Replays g u t levels i s s') :
    s' = s ∧ n.children = [] ∧ n.segment = none := by
  cases levels with
  | zero => exact h.elim
  | succ levels =>
    obtain ⟨n', hn', ⟨hunexp, hsame⟩ | ⟨hexp, -⟩⟩ := h
    · cases hn.symm.trans hn'
      obtain ⟨hchildren, -, hsegment, -⟩ := ht.bare i n hn hunexp
      exact ⟨hsame, hchildren, hsegment⟩
    · cases hn.symm.trans hn'
      obtain ⟨right, generator, representer, hmem, -⟩ := hg.takes ht hn hexp
      rw [hterminal] at hmem
      cases hmem

theorem replays_rule (hg : IsCore g) (ht : t.Derives g []) (hn : t.nodes[i]? = some n)
    (hrules : alternatives n.symbol.name ≠ []) (h : Replays g u t (levels + 1) i s s') :
    ∃ right generator representer, (right, generator, representer) ∈ alternatives n.symbol.name ∧
      Replayed g u t levels i n right generator s s' := by
  obtain ⟨n', hn', ⟨hunexp, -⟩ | ⟨-, entry, hentry, hfollows, generator, source, s₁, hresolve,
    hran, hchain⟩⟩ := h
  · cases hn.symm.trans hn'
    rw [hg.isExpanded ht hn hrules] at hunexp
    cases hunexp
  · cases hn.symm.trans hn'
    obtain ⟨right, representer, hmem, htakes⟩ := hg.takes_of_follows hentry hfollows hresolve
    refine ⟨right, generator, representer, hmem, ?_, htakes.holds, source, s₁, hran, hchain⟩
    exact htakes.children.imp fun _ _ ⟨m, hm, hsymbol, _⟩ => ⟨m, hm, hsymbol⟩

/-- In an open block the generator has its effect. -/
theorem Replayed.effects {right : List String} {generator : Option Generator}
    (h : Replayed g u t levels i n right generator s s') (hs : s.catalog.Shared)
    (hstack : s.catalog.stack = id :: rest) :
    ∃ source s₁, Effects id rest { s with source } generator n.payload n.segment s₁ ∧
      Chain (Replays g u t levels) n.children s₁ s' := by
  obtain ⟨source, s₁, hran, hchain⟩ := h.ran
  exact ⟨source, s₁, hran.effects hs (.inl hstack), hchain⟩

/-- A node with an empty rule is its generator. -/
theorem replays_leaf (hg : IsCore g) (ht : t.Derives g []) (hn : t.nodes[i]? = some n)
    {generator : Generator} {representer : Representer}
    (hrules : alternatives n.symbol.name = [([], some generator, representer)])
    (hs : s.catalog.Shared) (hstack : s.catalog.stack = id :: rest)
    (h : Replays g u t (levels + 1) i s s') :
    n.children = [] ∧ ∃ source p, n.payload = some p ∧ n.segment = generator.keptSegment p ∧
      generator.Effect id rest { s with source } p s' := by
  obtain ⟨right, generator', representer', hmem, hreplayed⟩ :=
    replays_rule hg ht hn (by simp [hrules]) h
  rw [hrules] at hmem
  cases List.mem_singleton.mp hmem
  have hchildren := List.forall₂_nil_right_iff.mp hreplayed.children
  obtain ⟨source, s₁, heffects, hchain⟩ := hreplayed.effects hs hstack
  rw [hchildren] at hchain
  cases hchain
  exact ⟨hchildren, source, heffects⟩

/-! ### Rules that register nothing -/

/-- Symbols that are looked at as parts of an item or of a subquery. -/
def pieces : List String :=
  ["table_ref", "schema_ref", "table_tail", "view_ref", "mview_ref", "alias_def",
    "end_of_subquery", "sql_statement"]

/-- Generators that leave the sources that can be referred to as they are. -/
def idle : List (Option Generator) :=
  [none, some .registerSequence, some .integer, some .string]

theorem idle_of_plain {name : String} {alternative : Alternative}
    (hmem : alternative ∈ alternatives name) (hpiece : name ∉ pieces) (hitem : name ≠ "from_item")
    (hsubquery : name ≠ "subquery") :
    alternative.2.1 ∈ idle ∧ ∀ x ∈ alternative.1, x ∉ pieces := by
  revert hpiece hitem hsubquery
  exact forall_alternatives (P := fun name alternative => name ∉ pieces → name ≠ "from_item" →
    name ≠ "subquery" → alternative.2.1 ∈ idle ∧ ∀ x ∈ alternative.1, x ∉ pieces)
    (by decide) hmem

omit [RandomSource ρ] in
theorem idle_effects {generator : Option Generator} {payload : Option Payload}
    {segment : Option SegmentId} {source : ρ} (hidle : generator ∈ idle) (hopen : Open id rest s)
    (h : Effects id rest { s with source } generator payload segment s') :
    Open id rest s' ∧ Grew t id [] s s' := by
  have hkeeps : Kept id s s' → Open id rest s' ∧ Grew t id [] s s' := fun hkept =>
    ⟨hopen.changed hkept (fun _ => rfl) hopen.pending,
      .of_changed hkept hopen.bound fun _ _ h _ => h⟩
  simp only [idle, List.mem_cons, List.not_mem_nil, or_false] at hidle
  rcases hidle with rfl | rfl | rfl | rfl
  · obtain ⟨-, -, rfl⟩ := h
    exact hkeeps (.reseeded id s source)
  · obtain ⟨p, -, -, d, entry, -, hd, hchanged⟩ := h
    have hchanged : Changed id (·.putSource entry) s s' := hchanged
    refine ⟨hopen.changed hchanged (fun _ => rfl) hopen.pending,
      .of_changed hchanged hopen.bound fun key found hfind href => ?_⟩
    rw [Segment.putSource, OrderedMap.find?_insert] at hfind
    split at hfind
    · -- a sequence is no source of columns
      cases hfind
      unfold Segment.isReferenceable at href
      rw [hd.kind_eq] at href
      cases href
    · exact hfind
  · obtain ⟨p, -, -, hkept⟩ := h
    exact hkeeps hkept
  · obtain ⟨p, -, -, hkept⟩ := h
    exact hkeeps hkept

/-! ### Objects -/

theorem source?_of_payload {d : SourceDescriptor} (hn : t.nodes[i]? = some n)
    (hpayload : n.payload = some (.source d)) : t.source? i = some d := by
  obtain ⟨symbol, parent, children, payload, segment, ruleName, representer⟩ := n
  cases hpayload
  simp only [Tree.source?, hn]

/-- A source that is written as the object it stands for. -/
structure Object (t : Tree) (id : SegmentId) (rest : List SegmentId) (c : Nat)
    (d : SourceDescriptor) (kind : SourceKind) (entry : SourceEntry) (s s' : Scope ρ) : Prop where
  source : t.source? c = some d
  describes : Describes d kind entry
  opened : Open id rest s'
  added : Added t id c entry s s'

omit [RandomSource ρ] in
/-- What registers a source is a node without children. -/
theorem object_of_registered {kind : SourceKind} {p : Payload} (hn : t.nodes[i]? = some n)
    (hchildren : n.children = []) (hsegment : n.segment = none) (hpayload : n.payload = some p)
    (hopen : Open id rest s) (h : Registered id kind s p s') :
    ∃ d entry, Object t id rest i d kind entry s s' := by
  obtain ⟨d, entry, rfl, hd, hchanged⟩ := h
  have hsource := source?_of_payload hn hpayload
  obtain ⟨columns, hfixed⟩ := hd.fixed
  have hself := hchanged.self hopen.bound
  refine ⟨d, entry, hsource, hd, hopen.changed hchanged (fun _ => rfl) hopen.pending, ?_⟩
  exact {
    toAround := .leaf hn hchildren hsegment hchanged
    origin := .object hsource hd.name_eq (hd.descriptor_kind.trans hd.kind_eq.symm) hfixed
    sources := by rw [hself]; rfl
    last := by rw [hself]; rfl }

theorem view_object (hg : IsCore g) (ht : t.Derives g []) (hn : t.nodes[i]? = some n)
    (hsymbol : n.symbol = ⟨"view_ref"⟩ ∨ n.symbol = ⟨"mview_ref"⟩) (hopen : Open id rest s)
    (h : Replays g u t levels i s s') :
    ∃ d kind entry, Object t id rest i d kind entry s s' := by
  cases levels with
  | zero => exact h.elim
  | succ levels =>
    rcases hsymbol with hsymbol | hsymbol
    · obtain ⟨hchildren, source, p, hpayload, hsegment, heffect⟩ :=
        replays_leaf hg ht hn (by rw [hsymbol]; rfl) hopen.shared hopen.stack h
      obtain ⟨d, entry, hobject⟩ :=
        object_of_registered hn hchildren (by rw [hsegment]; cases p <;> rfl) hpayload hopen heffect
      exact ⟨d, .view, entry, hobject⟩
    · obtain ⟨hchildren, source, p, hpayload, hsegment, heffect⟩ :=
        replays_leaf hg ht hn (by rw [hsymbol]; rfl) hopen.shared hopen.stack h
      obtain ⟨d, entry, hobject⟩ :=
        object_of_registered hn hchildren (by rw [hsegment]; cases p <;> rfl) hpayload hopen heffect
      exact ⟨d, .mview, entry, hobject⟩

/-- A table after its schema is the one that was announced with the schema. -/
theorem qualified_object (hg : IsCore g) (ht : t.Derives g []) (hn : t.nodes[i]? = some n)
    (hchildren : List.Forall₂ (fun c name => ∃ m, t.nodes[c]? = some m ∧ m.symbol = ⟨name⟩)
      n.children ["schema_ref", ".", "table_tail"])
    (hsegment : n.segment = none) (hpayload : n.payload = none) (hopen : Open id rest s)
    {source : ρ} (h : Chain (Replays g u t levels) n.children { s with source } s') :
    ∃ d entry, Object t id rest i d .table entry s s' := by
  -- the schema, the dot and the name of the table, each with the scope it is replayed from
  obtain ⟨a, l, ⟨ma, ha, hasymbol⟩, hl, hparts⟩ := List.forall₂_cons_right_iff.mp hchildren
  obtain ⟨b, l', ⟨mb, hb, hbsymbol⟩, hl', rfl⟩ := List.forall₂_cons_right_iff.mp hl
  obtain ⟨c, l'', ⟨mc, hc, hcsymbol⟩, hnil, rfl⟩ := List.forall₂_cons_right_iff.mp hl'
  cases hnil
  rw [hparts] at h
  cases levels with
  | zero => cases h with | cons head _ => exact head.elim
  | succ levels =>
  cases h with
  | @cons _ _ _ s₁ _ hschema h =>
  cases h with
  | @cons _ _ _ s₂ _ hdot h =>
  have htail := h.singleton
  obtain ⟨hachildren, _, p, -, hasegment, d, entry, rfl, hd, hannounced⟩ :=
    replays_leaf (s := { s with source }) hg ht ha (by rw [hasymbol]; rfl) hopen.shared hopen.stack
      hschema
  have hannounced : Changed id (announce · entry d) s s₁ := hannounced
  have hs₁ : s₁.catalog.Shared := hannounced.shared hopen.shared fun segment =>
    setFlag_ownMinted segment _
  have hself := hannounced.self hopen.bound
  obtain ⟨rfl, hbchildren, hbsegment⟩ :=
    replays_terminal hg ht hb (by rw [hbsymbol]; rfl) hdot
  obtain ⟨hcchildren, _, p, hcpayload, hcsegment, heffect⟩ :=
    replays_leaf hg ht hc (by rw [hcsymbol]; rfl) hs₁ (hannounced.stack_eq.trans hopen.stack) htail
  have hpending : (s₂.catalog.segment id).pending = some d := by
    rw [hself]
    rfl
  -- a table is pending, so the name takes it and draws none
  obtain ⟨d', rfl, hpending', hcleared⟩ | ⟨hnone, -⟩ := heffect
  case inr => exact absurd (hpending.symm.trans hnone) (by simp)
  cases Option.some.inj (hpending.symm.trans hpending')
  have hcleared : Changed id ({ · with pending := none }) s₂ s' := hcleared
  have hboth := hannounced.trans hcleared
  have hsource : t.source? i = some d := by
    obtain ⟨symbol, parent, children, payload, segment, ruleName, representer⟩ := n
    cases hpayload
    cases hparts
    simp only [Tree.source?, hn, hc, hcpayload, Option.bind_some]
  obtain ⟨columns, hfixed⟩ := hd.fixed
  have haround : Around t id [a, b, c] s s' :=
    (Around.leaf ha hachildren hasegment hannounced).trans hopen.bound
      ((Around.leaf hb hbchildren hbsegment (Kept.refl id s₂)).trans
        (hannounced.size_eq ▸ hopen.bound) (.leaf hc hcchildren hcsegment hcleared))
  have hopen' := hopen.changed hboth (fun segment => setFlag_ownMinted segment _) rfl
  refine ⟨d, entry, hsource, hd, hopen', ?_⟩
  exact {
    toAround := .above hn hsegment (hparts ▸ haround)
    origin := .object hsource hd.name_eq (hd.descriptor_kind.trans hd.kind_eq.symm) hfixed
    sources := by
      rw [hboth.self hopen.bound]
      exact announce_sources _ entry d
    last := by rw [hboth.self hopen.bound]; rfl }

theorem table_object (hg : IsCore g) (ht : t.Derives g []) (hn : t.nodes[i]? = some n)
    (hsymbol : n.symbol = ⟨"table_ref"⟩) (hopen : Open id rest s)
    (h : Replays g u t levels i s s') :
    ∃ d entry, Object t id rest i d .table entry s s' := by
  cases levels with
  | zero => exact h.elim
  | succ levels =>
    obtain ⟨right, generator, representer, hmem, hreplayed⟩ :=
      replays_rule hg ht hn (hsymbol ▸ List.cons_ne_nil _ _) h
    obtain ⟨source, s₁, heffects, hchain⟩ := hreplayed.effects hopen.shared hopen.stack
    have hrules : alternatives n.symbol.name = [([], some .registerTable, .payloadName),
        (["schema_ref", ".", "table_tail"], none, .tightBinary)] := by
      rw [hsymbol]
      rfl
    rw [hrules] at hmem
    rcases List.mem_cons.mp hmem with hplain | hmem
    · cases hplain
      have hchildren := List.forall₂_nil_right_iff.mp hreplayed.children
      rw [hchildren] at hchain
      cases hchain
      obtain ⟨p, hpayload, hsegment, ⟨d, -, hpending, -⟩ | ⟨-, hregistered⟩⟩ := heffects
      · exact absurd (hopen.pending.symm.trans hpending) (by simp)
      · exact object_of_registered hn hchildren (by rw [hsegment]; cases p <;> rfl) hpayload hopen
          hregistered
    · cases List.mem_singleton.mp hmem
      obtain ⟨hpayload, hsegment, rfl⟩ := heffects
      exact qualified_object hg ht hn hreplayed.children hsegment hpayload hopen hchain

/-- Symbols of which an item can begin. -/
def origins : List String := ["table_ref", "view_ref", "mview_ref", "subquery"]

theorem item_right {alternative : Alternative} (hmem : alternative ∈ alternatives "from_item") :
    alternative.2.1 = none ∧ (alternative.1 = ["table_ref"] ∨
      ∃ name ∈ origins, alternative.1 = [name, "alias_def"]) := by
  have h := forall_alternatives (P := fun name alternative => name = "from_item" →
    alternative.2.1 = none ∧ (alternative.1 = ["table_ref"] ∨
      ∃ name ∈ origins, alternative.1 = [name, "alias_def"])) (by decide) hmem
  exact h rfl

/-! ### Nodes that are looked at as they are -/

variable (g u t) in
/-- What is known of growths that go fewer levels down. -/
def Grows (levels : Nat) : Prop :=
  ∀ (i : Nat) (n : Node) (id : SegmentId) (rest : List SegmentId) (s s' : Scope ρ),
    t.nodes[i]? = some n → n.symbol.name ∉ pieces → Open id rest s → Replays g u t levels i s s' →
      Open id rest s' ∧ Grew t id [i] s s'

theorem Grows.chain (h : Grows (ρ := ρ) g u t levels) {l : List Nat}
    (hl : ∀ c ∈ l, ∃ m, t.nodes[c]? = some m ∧ m.symbol.name ∉ pieces) (hopen : Open id rest s)
    (hchain : Chain (Replays g u t levels) l s s') : Open id rest s' ∧ Grew t id l s s' := by
  induction hchain with
  | nil => exact ⟨hopen, .refl hopen.bound⟩
  | cons head tail ih =>
    obtain ⟨m, hm, hpiece⟩ := hl _ List.mem_cons_self
    obtain ⟨hopen₁, hgrew⟩ := h _ m id rest _ _ hm hpiece hopen head
    obtain ⟨hopen', hgrew'⟩ := ih (fun c hc => hl c (List.mem_cons_of_mem _ hc)) hopen₁
    exact ⟨hopen', hgrew.trans hopen.bound hgrew'⟩

/-! ### Blocks -/

/-- A block has no source that can be referred to when it is opened. -/
theorem nested_bare {parent : Segment} {name key : String} {entry : SourceEntry}
    (h : (nested parent name id).sources.find? key = some entry) :
    Segment.isReferenceable entry = false := by
  unfold nested Segment.putInline Segment.putSource at h
  dsimp only at h
  rw [OrderedMap.find?_insert] at h
  split at h
  · cases h
    rfl
  · cases h

omit [RandomSource ρ] in
/-- What grew in a block supplies it, and the blocks below supply themselves. -/
theorem Grew.supplies {d b : Nat} {m : Node} {k : SegmentId}
    (h : Grew t id n.children s s') (hn : t.nodes[i]? = some n) (hsegment : n.segment = some id)
    (hbare : ∀ key entry, (s.catalog.segment id).sources.find? key = some entry →
      Segment.isReferenceable entry = false)
    (hpath : t.Path i d b) (hm : t.nodes[b]? = some m) (hk : m.segment = some k) :
    (k = id ∨ s.catalog.segments.size ≤ k ∧ k < s'.catalog.segments.size) ∧
      t.Supplies b (s'.catalog.segment k) := by
  cases d with
  | zero =>
    cases hpath
    cases hn.symm.trans hm
    cases hsegment.symm.trans hk
    refine ⟨.inl rfl, fun key entry hfind href => ?_⟩
    rcases h.gains key entry hfind href with hold | ⟨c, hc, j, hunder, hitem, hprovides⟩
    · rw [hbare key entry hold] at href
      cases href
    · exact ⟨j, ⟨n, c, hn, hc, hunder⟩, hitem, hprovides⟩
  | succ d =>
    obtain ⟨n', c, hn', hc, hpath⟩ := hpath.uncons
    cases hn.symm.trans hn'
    obtain ⟨hlow, hhigh, hsupplies⟩ := h.supplied c hc d b m k hpath hm hk
    exact ⟨.inr ⟨hlow, hhigh⟩, hsupplies⟩

omit [RandomSource ρ] in
theorem push_open (hopen : Open id rest s) :
    Open s.catalog.segments.size (id :: rest) (push s).2 where
  stack := by rw [push_stack, hopen.stack]
  bound := by rw [push_size]; exact Nat.lt_succ_self _
  shared := push_shared hopen.shared
  pending := by rw [segment_push_new hopen.stack]; rfl

/-- Between its parentheses a subquery grows in its own block, and then leaves it. -/
theorem block_children (hg : IsCore g) (ht : t.Derives g []) (h : Grows (ρ := ρ) g u t levels)
    (hchildren : List.Forall₂ (fun c name => ∃ m, t.nodes[c]? = some m ∧ m.symbol = ⟨name⟩)
      n.children ["(", "query_block", "end_of_subquery", ")"])
    (hopen : Open id rest s) (hchain : Chain (Replays g u t levels) n.children s s') :
    ∃ s₁ source, Open id rest s₁ ∧ Grew t id n.children s s₁ ∧
      s' = { catalog := { s₁.catalog with stack := rest }, source } := by
  obtain ⟨a, l, ⟨ma, ha, hasymbol⟩, hl, hparts⟩ := List.forall₂_cons_right_iff.mp hchildren
  obtain ⟨b, l₁, ⟨mb, hb, hbsymbol⟩, hl₁, rfl⟩ := List.forall₂_cons_right_iff.mp hl
  obtain ⟨c, l₂, ⟨mc, hc, hcsymbol⟩, hl₂, rfl⟩ := List.forall₂_cons_right_iff.mp hl₁
  obtain ⟨d, l₃, ⟨md, hd, hdsymbol⟩, hnil, rfl⟩ := List.forall₂_cons_right_iff.mp hl₂
  cases hnil
  rw [hparts] at hchain ⊢
  cases levels with
  | zero => cases hchain with | cons head _ => exact head.elim
  | succ levels =>
  cases hchain with
  | @cons _ _ _ s₁ _ hleft hchain =>
  cases hchain with
  | @cons _ _ _ s₂ _ hbody hchain =>
  cases hchain with
  | @cons _ _ _ s₃ _ hend hchain =>
  -- only the second child grows anything, and the third leaves the block
  obtain ⟨rfl, hachildren, hasegment⟩ := replays_terminal hg ht ha (by rw [hasymbol]; rfl) hleft
  obtain ⟨hopen₂, hgrew⟩ := h b mb id rest s₁ s₂ hb (by rw [hbsymbol]; decide) hopen hbody
  obtain ⟨hcchildren, source, p, -, hcsegment, rfl⟩ :=
    replays_leaf hg ht hc (by rw [hcsymbol]; rfl) hopen₂.shared hopen₂.stack hend
  obtain ⟨rfl, hdchildren, hdsegment⟩ :=
    replays_terminal hg ht hd (by rw [hdsymbol]; rfl) hchain.singleton
  have hleaf : ∀ {k : Nat} {m : Node} {s : Scope ρ}, t.nodes[k]? = some m → m.children = [] →
      m.segment = none → id < s.catalog.segments.size → Grew t id [k] s s :=
    fun hm hchildren hsegment hbound => .above hm hsegment (hchildren ▸ .refl hbound)
  refine ⟨s₂, source, hopen₂, ?_, rfl⟩
  exact (hleaf ha hachildren hasegment hopen.bound).trans hopen.bound
    (hgrew.trans hopen.bound
      ((hleaf hc hcchildren (by rw [hcsegment]; cases p <;> rfl) hopen₂.bound).trans hopen₂.bound
        (hleaf hd hdchildren hdsegment hopen₂.bound)))

/-- A subquery is a source of the block around it, under its own name. -/
theorem block_added (hg : IsCore g) (ht : t.Derives g []) (h : Grows (ρ := ρ) g u t levels)
    (hn : t.nodes[i]? = some n) (hsymbol : n.symbol = ⟨"subquery"⟩) (hopen : Open id rest s)
    (hreplays : Replays g u t (levels + 1) i s s') :
    ∃ entry, Segment.isReferenceable entry = false ∧ Open id rest s' ∧
      Added t id i entry s s' := by
  obtain ⟨right, generator, representer, hmem, hreplayed⟩ :=
    replays_rule hg ht hn (hsymbol ▸ List.cons_ne_nil _ _) hreplays
  obtain ⟨source, s₁, heffects, hchain⟩ := hreplayed.effects hopen.shared hopen.stack
  have hchildren := hreplayed.children
  rw [hsymbol] at hmem
  cases List.mem_singleton.mp hmem
  obtain ⟨p, -, hsegment, rfl, rfl⟩ := heffects
  have hopen' : Open id rest { s with source } :=
    ⟨hopen.stack, hopen.bound, hopen.shared, hopen.pending⟩
  obtain ⟨s₂, source', hopen₂, hgrew, rfl⟩ :=
    block_children hg ht h hchildren (push_open hopen') hchain
  have hsegment : n.segment = some s.catalog.segments.size := hsegment
  have hsize : (push { s with source }).2.catalog.segments.size = s.catalog.segments.size + 1 :=
    push_size _
  have hle : s.catalog.segments.size + 1 ≤ s₂.catalog.segments.size := hsize ▸ hgrew.size
  have hne : id ≠ s.catalog.segments.size := Nat.ne_of_lt hopen.bound
  -- the block around it has only gained the subquery
  have hself : s₂.catalog.segment id = enclose (nested (s.catalog.segment id)
      s!"QB{s.catalog.opened + 1}" id) s.catalog.segments.size (s.catalog.segment id) := by
    rw [hgrew.frame id (by rw [hsize]; exact Nat.lt_succ_of_lt hopen.bound) hne,
      segment_push_old hopen'.stack hne]
    exact Catalog.segment_modify_self hopen.bound
  have hother : ∀ k, k < s.catalog.segments.size → k ≠ id →
      s₂.catalog.segment k = s.catalog.segment k := by
    intro k hk hid
    rw [hgrew.frame k (by rw [hsize]; exact Nat.lt_succ_of_lt hk) (Nat.ne_of_lt hk),
      segment_push_old hopen'.stack (Nat.ne_of_lt hk)]
    exact Catalog.segment_modify_of_ne hid
  refine ⟨⟨s!"QB{s.catalog.opened + 1}", s!"QB{s.catalog.opened + 1}", .child, none,
    .exportsOf s.catalog.segments.size⟩, by simp [Segment.isReferenceable], ?opened, ?added⟩
  case opened =>
    refine ⟨rfl, Nat.lt_of_lt_of_le hopen.bound (Nat.le_of_succ_le hle), hopen₂.shared, ?_⟩
    exact (congrArg Segment.pending hself).trans hopen.pending
  case added =>
    refine ⟨⟨Nat.le_of_succ_le hle, hother, ?_⟩, .view hn hsegment rfl rfl,
      congrArg Segment.sources hself, congrArg Segment.lastSource hself⟩
    intro j hj d b m k hpath hm hk
    cases List.mem_singleton.mp hj
    have hbare : ∀ (key : String) (entry : SourceEntry), ((push { s with source }).2.catalog.segment
        s.catalog.segments.size).sources.find? key = some entry →
        Segment.isReferenceable entry = false := by
      intro key entry hfind
      rw [segment_push_new hopen'.stack] at hfind
      exact nested_bare hfind
    obtain ⟨rfl | ⟨hlow, hhigh⟩, hsupplies⟩ := hgrew.supplies hn hsegment hbare hpath hm hk
    · exact ⟨Nat.le_refl _, Nat.lt_of_lt_of_le (Nat.lt_succ_self _) hle, hsupplies⟩
    · rw [hsize] at hlow
      exact ⟨Nat.le_of_succ_le hlow, hhigh, hsupplies⟩

/-! ### Items -/

section Items

variable {c : Nat} {entry : SourceEntry}

omit [RandomSource ρ] in
/-- An item registers one source. -/
theorem Grew.of_item (haround : Around t id [i] s s') (hitem : t.IsItem i)
    (hprovides : t.Provides i entry)
    (hsources : ∀ key found, (s'.catalog.segment id).sources.find? key = some found →
      found = entry ∨ (s.catalog.segment id).sources.find? key = some found) :
    Grew t id [i] s s' where
  toAround := haround
  gains key found hfind _ := by
    rcases hsources key found hfind with rfl | hold
    · exact .inr ⟨i, List.mem_singleton_self i, i, .here, hitem, hprovides⟩
    · exact .inl hold

theorem childrenOf_eq (hn : t.nodes[i]? = some n) : t.childrenOf i = n.children := by
  simp [Tree.childrenOf, hn]

omit [RandomSource ρ] in
/-- Without an alias the name of the object stays. -/
theorem bare_item (hn : t.nodes[i]? = some n) (hitem : t.IsItem i) (hsegment : n.segment = none)
    (hchildren : n.children = [c]) {d : SourceDescriptor} {kind : SourceKind}
    (h : Object t id rest c d kind entry s s') : Grew t id [i] s s' := by
  have hof := (childrenOf_eq hn).trans hchildren
  have hprovides : t.Provides i entry := by
    refine ⟨⟨c, by rw [hof]; rfl, h.added.origin⟩, ?_⟩
    simp only [Tree.registeredName?, hof, h.source, Option.map_some, h.describes.alias_eq]
  refine .of_item (.above hn hsegment (hchildren ▸ h.added.toAround)) hitem hprovides
    fun key found hfind => ?_
  · rw [h.added.sources, OrderedMap.find?_insert] at hfind
    split at hfind
    · exact .inl (Option.some.inj hfind).symm
    · exact .inr hfind

omit [RandomSource ρ] in
/-- With an alias the source goes by the name that is written after it. -/
theorem aliased_item {a : Nat} {m : Node} {text : String} {source : ρ}
    (hn : t.nodes[i]? = some n) (hitem : t.IsItem i) (hsegment : n.segment = none)
    (hchildren : n.children = [c, a]) (hm : t.nodes[a]? = some m) (hbare : m.children = [])
    (hnone : m.segment = none) (hpayload : m.payload = some (.text text)) (hopen : Open id rest s)
    (hopen₁ : Open id rest s₁) (hadded : Added t id c entry s s₁)
    (haliased : Aliased id { s₁ with source } text s') :
    Open id rest s' ∧ Grew t id [i] s s' := by
  have hof := (childrenOf_eq hn).trans hchildren
  have hprovides : ∀ found : SourceEntry, t.Origin c found → found.aliasName = text →
      t.Provides i found := by
    intro found horigin hname
    refine ⟨⟨c, by rw [hof]; rfl, horigin⟩, ?_⟩
    simp only [Tree.registeredName?, hof, Tree.text?, hm, Option.bind_some, hpayload, hname]
  have haround : ∀ {f : Segment → Segment} {s' : Scope ρ}, Changed id f s₁ s' →
      Around t id [i] s s' := fun hchanged =>
    .above hn hsegment
      (hchildren ▸ hadded.toAround.trans hopen.bound (.leaf hm hbare hnone hchanged))
  have hlast := hadded.last
  have hself : (s₁.catalog.segment id).sources.find? entry.aliasName = some entry := by
    rw [hadded.sources, OrderedMap.find?_insert_self]
  -- the last source of the block is the one of this item
  cases haliased with
  | missing absent kept =>
    rw [hlast, Option.bind_some, hself] at absent
    cases absent
  | @own _ key entry' last found unnamed minted changed =>
    have changed : Changed id (·.rename key text entry') s₁ s' := changed
    cases Option.some.inj (hlast.symm.trans last)
    cases Option.some.inj (hself.symm.trans found)
    refine ⟨hopen₁.changed changed (fun _ => rfl) hopen₁.pending, .of_item (haround changed) hitem
      (hprovides _ (hadded.origin.renamed text) rfl) fun key found hfind => ?_⟩
    rw [changed.self hopen₁.bound, Segment.rename, OrderedMap.find?_insert] at hfind
    split at hfind
    · exact .inl (Option.some.inj hfind).symm
    · rw [OrderedMap.find?_erase] at hfind
      split at hfind
      · cases hfind
      case isFalse hne =>
        rw [hadded.sources, OrderedMap.find?_insert, if_neg hne] at hfind
        exact .inr hfind
  | @given key entry' last found named same =>
    cases Option.some.inj (hlast.symm.trans last)
    cases Option.some.inj (hself.symm.trans found)
    refine ⟨⟨hopen₁.stack, hopen₁.bound, hopen₁.shared, hopen₁.pending⟩,
      .of_item (haround (Kept.reseeded id s₁ source)) hitem (hprovides _ hadded.origin same.symm)
        fun key found hfind => ?_⟩
    rw [show Scope.catalog { s₁ with source } = s₁.catalog from rfl, hadded.sources,
      OrderedMap.find?_insert] at hfind
    split at hfind
    · exact .inl (Option.some.inj hfind).symm
    · exact .inr hfind

end Items

theorem origin_added (hg : IsCore g) (ht : t.Derives g []) (h : Grows (ρ := ρ) g u t levels)
    (hn : t.nodes[i]? = some n) (hsymbol : n.symbol.name ∈ origins) (hopen : Open id rest s)
    (hreplays : Replays g u t levels i s s') :
    ∃ entry, Open id rest s' ∧ Added t id i entry s s' := by
  have hname : ∀ {name : String}, n.symbol.name = name → n.symbol = ⟨name⟩ :=
    fun heq => congrArg Symbol.mk heq
  simp only [origins, List.mem_cons, List.not_mem_nil, or_false] at hsymbol
  rcases hsymbol with htable | hview | hmview | hsubquery
  · obtain ⟨d, entry, hobject⟩ := table_object hg ht hn (hname htable) hopen hreplays
    exact ⟨entry, hobject.opened, hobject.added⟩
  · obtain ⟨d, kind, entry, hobject⟩ := view_object hg ht hn (.inl (hname hview)) hopen hreplays
    exact ⟨entry, hobject.opened, hobject.added⟩
  · obtain ⟨d, kind, entry, hobject⟩ := view_object hg ht hn (.inr (hname hmview)) hopen hreplays
    exact ⟨entry, hobject.opened, hobject.added⟩
  · obtain ⟨entry, -, hopen', hadded⟩ :=
      block_added hg ht h hn (hname hsubquery) hopen hreplays.succ
    exact ⟨entry, hopen', hadded⟩

/-- The items of a FROM clause. -/
theorem item_grows (hg : IsCore g) (ht : t.Derives g []) (h : Grows (ρ := ρ) g u t levels)
    (hn : t.nodes[i]? = some n) (hsymbol : n.symbol = ⟨"from_item"⟩) (hopen : Open id rest s)
    (hreplays : Replays g u t (levels + 1) i s s') : Open id rest s' ∧ Grew t id [i] s s' := by
  have hitem : t.IsItem i := ⟨n, hn, hsymbol⟩
  obtain ⟨right, generator, representer, hmem, hreplayed⟩ :=
    replays_rule hg ht hn (hsymbol ▸ List.cons_ne_nil _ _) hreplays
  obtain ⟨source, s₁, heffects, hchain⟩ := hreplayed.effects hopen.shared hopen.stack
  rw [hsymbol] at hmem
  obtain ⟨rfl, hright⟩ : generator = none ∧ _ := item_right hmem
  obtain ⟨hopen₁, hbefore⟩ := idle_effects (t := t) List.mem_cons_self hopen heffects
  have hsegment : n.segment = none := heffects.2.1
  have hchildren := hreplayed.children
  -- an item opens no block, so all of it happens after its own payload
  suffices hgrew : Open id rest s' ∧ Grew t id [i] s₁ s' from
    ⟨hgrew.1, hbefore.trans hopen.bound hgrew.2⟩
  rcases hright with rfl | ⟨name, horigin, rfl⟩
  · obtain ⟨c, l, ⟨m, hm, hmsymbol⟩, hnil, hparts⟩ := List.forall₂_cons_right_iff.mp hchildren
    cases hnil
    rw [hparts] at hchain
    obtain ⟨d, entry, hobject⟩ := table_object hg ht hm hmsymbol hopen₁ hchain.singleton
    exact ⟨hobject.opened, bare_item hn hitem hsegment hparts hobject⟩
  · obtain ⟨c, l, ⟨m, hm, hmsymbol⟩, hl, hparts⟩ := List.forall₂_cons_right_iff.mp hchildren
    obtain ⟨a, l₁, ⟨ma, ha, hasymbol⟩, hnil, rfl⟩ := List.forall₂_cons_right_iff.mp hl
    cases hnil
    rw [hparts] at hchain
    cases levels with
    | zero => cases hchain with | cons head _ => exact head.elim
    | succ levels =>
    cases hchain with
    | @cons _ _ _ s₂ _ hsource hchain =>
    obtain ⟨entry, hopen₂, hadded⟩ :=
      origin_added hg ht h hm (hmsymbol ▸ horigin) hopen₁ hsource
    obtain ⟨hbare, source', p, hpayload, hnone, text, rfl, haliased⟩ :=
      replays_leaf hg ht ha (by rw [hasymbol]; rfl) hopen₂.shared hopen₂.stack hchain.singleton
    exact aliased_item hn hitem hsegment hparts ha hbare hnone hpayload hopen₁ hopen₂ hadded
      haliased

/-! ### Whole growths -/

/-- What a part of a tree adds to the block around it. -/
theorem grows (hg : IsCore g) (ht : t.Derives g []) (levels : Nat) :
    Grows (ρ := ρ) g u t levels := by
  induction levels with
  | zero => exact fun _ _ _ _ _ _ _ _ _ h => h.elim
  | succ levels ih =>
    intro i n id rest s s' hn hpiece hopen hreplays
    by_cases hrules : alternatives n.symbol.name = []
    · obtain ⟨rfl, hchildren, hsegment⟩ := replays_terminal hg ht hn hrules hreplays
      exact ⟨hopen, .above hn hsegment (hchildren ▸ .refl hopen.bound)⟩
    by_cases hitem : n.symbol.name = "from_item"
    · exact item_grows hg ht ih hn (congrArg Symbol.mk hitem) hopen hreplays
    by_cases hsubquery : n.symbol.name = "subquery"
    · obtain ⟨entry, hnot, hopen', hadded⟩ :=
        block_added hg ht ih hn (congrArg Symbol.mk hsubquery) hopen hreplays
      exact ⟨hopen', hadded.grew hnot⟩
    -- any other node grows as its children do
    obtain ⟨right, generator, representer, hmem, hreplayed⟩ :=
      replays_rule hg ht hn hrules hreplays
    obtain ⟨hidle, hright⟩ := idle_of_plain hmem hpiece hitem hsubquery
    obtain ⟨source, s₁, heffects, hchain⟩ := hreplayed.effects hopen.shared hopen.stack
    obtain ⟨hopen₁, hbefore⟩ := idle_effects (t := t) hidle hopen heffects
    have hsegment : n.segment = none := by
      by_contra hsome
      rw [(opens_iff_of_holds hreplayed.holds).mpr hsome] at hidle
      simp [idle] at hidle
    obtain ⟨hopen', hgrew⟩ := ih.chain (fun c hc => by
      obtain ⟨name, hname, m, hm, hmsymbol⟩ := forall₂_mem_left hreplayed.children hc
      exact ⟨m, hm, hmsymbol ▸ hright name hname⟩) hopen₁ hchain
    exact ⟨hopen', .above hn hsegment (hbefore.trans hopen.bound hgrew)⟩

/-- Every block of a finished growth is supplied by its own items. -/
theorem Finished.supplies {job : Job} {source : ρ} {r : Growth ρ} (hg : IsCore job.grammar)
    (h : Finished job source r) {b : Nat} {m : Node} (hm : r.tree.nodes[b]? = some m)
    (hsegment : m.segment = some id) : r.tree.Supplies b (r.scope.catalog.segment id) := by
  obtain ⟨n, root, hn, hsymbol, hroot, -⟩ := h.root
  obtain ⟨levels, hreplays⟩ := h.replayed
  cases levels with
  | zero => exact hreplays.elim
  | succ levels =>
    obtain ⟨right, generator, representer, hmem, hreplayed⟩ :=
      replays_rule hg h.derives hn (hsymbol ▸ List.cons_ne_nil _ _) hreplays
    obtain ⟨source', s₁, hran, hchain⟩ := hreplayed.ran
    have hchildren := hreplayed.children
    rw [hsymbol] at hmem
    cases List.mem_singleton.mp hmem
    obtain ⟨p, hrun, -, hkept⟩ := hran
    obtain ⟨rfl, rfl⟩ := Generator.openBlock_ok hrun
    cases hroot.symm.trans hkept
    -- what follows grows in the block that the statement has just opened
    have hopen : Open 0 [] (push (⟨Catalog.empty, source'⟩ : Scope ρ)).2 :=
      ⟨by rw [push_stack]; rfl, by rw [push_size]; exact Nat.succ_pos _,
        push_shared (sound_start job.grammar source').shared, rfl⟩
    obtain ⟨-, hgrew⟩ := (grows hg h.derives levels).chain (fun c hc => by
      obtain ⟨name, hname, m, hm, hmsymbol⟩ := forall₂_mem_left hchildren hc
      cases List.mem_singleton.mp hname
      exact ⟨m, hm, by rw [hmsymbol]; decide⟩) hopen hchain
    obtain ⟨d, hpath⟩ := h.derives.path_root hm
    exact (hgrew.supplies hn hroot (fun key entry hfind => by cases hfind) hpath hm hsegment).2

end ProbeForge.SelectCore
