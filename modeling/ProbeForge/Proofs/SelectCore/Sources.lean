import ProbeForge.Proofs.SelectCore.Finished

/-!
# Sources of a block

Which entry of its block's segment an item of a FROM clause stands for. When a growth is complete,
every source that can be referred to was registered by an item of the same block: later
registrations may displace it, but nothing else takes its place.
-/

namespace ProbeForge

namespace Tree

variable (t : Tree)

/-- The object that a node writes: its own, or the table after its schema. -/
def source? (i : Nat) : Option SourceDescriptor :=
  match t.nodes[i]? with
  | some ⟨_, _, _, some (.source d), _, _, _⟩ => some d
  | some ⟨_, _, [_, _, tail], _, _, _, _⟩ =>
    match t.nodes[tail]?.bind (·.payload) with
    | some (.source d) => some d
    | _ => none
  | _ => none

/-- The text that a generator left in a node. -/
def text? (i : Nat) : Option String :=
  match t.nodes[i]?.bind (·.payload) with
  | some (.text text) => some text
  | _ => none

/-- The name under which an item of a FROM clause is seen: its alias if one is written, otherwise
the name of its object. -/
def visibleName? (i : Nat) : Option String :=
  match t.childrenOf i with
  | [source] => (t.source? source).map (·.name)
  | [_, written] => t.text? written
  | _ => none

/-- The name under which it was registered in its block. -/
def registeredName? (i : Nat) : Option String :=
  match t.childrenOf i with
  | [source] => (t.source? source).map (·.aliasName)
  | [_, written] => t.text? written
  | _ => none

def IsItem (i : Nat) : Prop := ∃ n, t.nodes[i]? = some n ∧ n.symbol = ⟨"from_item"⟩

/-- The entry is the object that a node writes, or the block that it opens. -/
inductive Origin (c : Nat) (entry : SourceEntry) : Prop where
  | object {d : SourceDescriptor} {columns : List String} (source : t.source? c = some d)
      (name : d.name = entry.name) (kind : d.kind = entry.kind)
      (fixed : entry.columns = .fixed columns)
  | view {n : Node} {id : SegmentId} (found : t.nodes[c]? = some n)
      (segment : n.segment = some id) (kind : entry.kind = .child)
      (columns : entry.columns = .exportsOf id)

variable {t} in
theorem Origin.renamed {c : Nat} {entry : SourceEntry} (h : t.Origin c entry)
    (aliasName : String) : t.Origin c { entry with aliasName } := by
  cases h with
  | object source name kind fixed => exact .object source name kind fixed
  | view found segment kind columns => exact .view found segment kind columns

/-- The entry is the one that the item registered. -/
structure Provides (i : Nat) (entry : SourceEntry) : Prop where
  origin : ∃ c ∈ (t.childrenOf i).head?, t.Origin c entry
  registered : t.registeredName? i = some entry.aliasName

/-- Every source that can be referred to in a segment comes from an item of the block. -/
def Supplies (b : Nat) (segment : Segment) : Prop :=
  ∀ key entry, segment.sources.find? key = some entry → Segment.isReferenceable entry = true →
    ∃ i, t.Inside b i ∧ t.IsItem i ∧ t.Provides i entry

end Tree

namespace SelectCore

open Grammars Scope

variable {ρ : Type} {t : Tree} {id : SegmentId} {rest : List SegmentId} {s s₁ s' : Scope ρ}
  {i : Nat} {n : Node} {roots : List Nat}

/-! ### What a part of a growth does -/

/-- The block `id` is open, and no table waits for its name. -/
structure Open (id : SegmentId) (rest : List SegmentId) (s : Scope ρ) : Prop where
  stack : s.catalog.stack = id :: rest
  bound : id < s.catalog.segments.size
  shared : s.catalog.Shared
  pending : (s.catalog.segment id).pending = none

/-- What the growth of some nodes in the block `id` did outside it. The blocks before are as they
were, and each new one is supplied by its own items. -/
structure Around (t : Tree) (id : SegmentId) (roots : List Nat) (s s' : Scope ρ) : Prop where
  size : s.catalog.segments.size ≤ s'.catalog.segments.size
  frame : ∀ k, k < s.catalog.segments.size → k ≠ id →
    s'.catalog.segment k = s.catalog.segment k
  supplied : ∀ i ∈ roots, ∀ (d b : Nat) (n : Node) (k : SegmentId), t.Path i d b →
    t.nodes[b]? = some n → n.segment = some k →
      s.catalog.segments.size ≤ k ∧ k < s'.catalog.segments.size ∧
        t.Supplies b (s'.catalog.segment k)

theorem Around.trans (hbound : id < s.catalog.segments.size) {roots' : List Nat}
    (h : Around t id roots s s₁) (h' : Around t id roots' s₁ s') :
    Around t id (roots ++ roots') s s' where
  size := Nat.le_trans h.size h'.size
  frame k hk hne := (h'.frame k (Nat.lt_of_lt_of_le hk h.size) hne).trans (h.frame k hk hne)
  supplied i hi d b n k hpath hn hsegment := by
    rcases List.mem_append.mp hi with hi | hi
    · -- what was opened before is not touched again
      obtain ⟨hlow, hhigh, hsupplies⟩ := h.supplied i hi d b n k hpath hn hsegment
      have hne : k ≠ id := fun heq => Nat.lt_irrefl _ (Nat.lt_of_lt_of_le hbound (heq ▸ hlow))
      exact ⟨hlow, Nat.lt_of_lt_of_le hhigh h'.size, (h'.frame k hhigh hne).symm ▸ hsupplies⟩
    · obtain ⟨hlow, hhigh, hsupplies⟩ := h'.supplied i hi d b n k hpath hn hsegment
      exact ⟨Nat.le_trans h.size hlow, hhigh, hsupplies⟩

/-- The growth of a node that opens no block is the growth of its children. -/
theorem Around.above (hn : t.nodes[i]? = some n) (hsegment : n.segment = none)
    (h : Around t id n.children s s') : Around t id [i] s s' where
  size := h.size
  frame := h.frame
  supplied j hj d b m k hpath hm hk := by
    cases List.mem_singleton.mp hj
    cases d with
    | zero =>
      cases hpath
      cases hn.symm.trans hm
      rw [hsegment] at hk
      cases hk
    | succ d =>
      obtain ⟨n', c, hn', hc, hpath⟩ := hpath.uncons
      cases hn.symm.trans hn'
      exact h.supplied c hc d b m k hpath hm hk

theorem Around.of_changed {f : Segment → Segment} (h : Changed id f s s') :
    Around t id [] s s' where
  size := Nat.le_of_eq h.size_eq.symm
  frame _ _ hne := h.other hne
  supplied _ hi := absurd hi List.not_mem_nil

/-- A node without children may only have changed the open segment. -/
theorem Around.leaf {f : Segment → Segment} (hn : t.nodes[i]? = some n)
    (hchildren : n.children = []) (hsegment : n.segment = none) (h : Changed id f s s') :
    Around t id [i] s s' :=
  .above hn hsegment (hchildren ▸ .of_changed h)

/-- What the growth of some nodes in the block `id` did to the scope. Sources that can be referred
to came from their items. -/
structure Grew (t : Tree) (id : SegmentId) (roots : List Nat) (s s' : Scope ρ) : Prop
    extends Around t id roots s s' where
  gains : ∀ key entry, (s'.catalog.segment id).sources.find? key = some entry →
    Segment.isReferenceable entry = true → (s.catalog.segment id).sources.find? key = some entry ∨
      ∃ i ∈ roots, ∃ j, t.Under i j ∧ t.IsItem j ∧ t.Provides j entry

theorem Grew.trans (hbound : id < s.catalog.segments.size) {roots' : List Nat}
    (h : Grew t id roots s s₁) (h' : Grew t id roots' s₁ s') :
    Grew t id (roots ++ roots') s s' where
  toAround := h.toAround.trans hbound h'.toAround
  gains key entry hfind href := by
    rcases h'.gains key entry hfind href with hmiddle | ⟨i, hi, hprovides⟩
    · refine (h.gains key entry hmiddle href).imp_right ?_
      rintro ⟨i, hi, hprovides⟩
      exact ⟨i, List.mem_append_left _ hi, hprovides⟩
    · exact .inr ⟨i, List.mem_append_right _ hi, hprovides⟩

theorem Grew.above (hn : t.nodes[i]? = some n) (hsegment : n.segment = none)
    (h : Grew t id n.children s s') : Grew t id [i] s s' where
  toAround := h.toAround.above hn hsegment
  gains key entry hfind href := by
    refine (h.gains key entry hfind href).imp_right ?_
    rintro ⟨c, hc, j, hunder, hprovides⟩
    exact ⟨i, List.mem_singleton_self i, j, hunder.cons hn hsegment hc, hprovides⟩

/-- A change of the open segment by which no source becomes one that can be referred to. -/
theorem Grew.of_changed {f : Segment → Segment} (h : Changed id f s s')
    (hbound : id < s.catalog.segments.size)
    (hgains : ∀ key entry, (f (s.catalog.segment id)).sources.find? key = some entry →
      Segment.isReferenceable entry = true →
        (s.catalog.segment id).sources.find? key = some entry) : Grew t id [] s s' where
  toAround := .of_changed h
  gains key entry hfind href := by
    rw [h.self hbound] at hfind
    exact .inl (hgains key entry hfind href)

theorem Grew.refl (hbound : id < s.catalog.segments.size) : Grew t id [] s s :=
  .of_changed (Kept.refl id s) hbound fun _ _ h _ => h

/-- The growth of a node registered a source in the block `id`. -/
structure Added (t : Tree) (id : SegmentId) (c : Nat) (entry : SourceEntry) (s s' : Scope ρ) :
    Prop extends Around t id [c] s s' where
  origin : t.Origin c entry
  sources : (s'.catalog.segment id).sources =
    (s.catalog.segment id).sources.insert entry.aliasName entry
  last : (s'.catalog.segment id).lastSource = some entry.aliasName

/-- A source that cannot be referred to makes no difference. -/
theorem Added.grew {c : Nat} {entry : SourceEntry} (h : Added t id c entry s s')
    (hnot : Segment.isReferenceable entry = false) : Grew t id [c] s s' where
  toAround := h.toAround
  gains key found hfind href := by
    rw [h.sources, OrderedMap.find?_insert] at hfind
    split at hfind
    · cases hfind
      rw [hnot] at href
      cases href
    · exact .inl hfind

theorem Open.changed {f : Segment → Segment} (h : Open id rest s) (hchanged : Changed id f s s')
    (hminted : ∀ segment, (f segment).ownMinted = segment.ownMinted)
    (hpending : (f (s.catalog.segment id)).pending = none) : Open id rest s' where
  stack := hchanged.stack_eq.trans h.stack
  bound := hchanged.size_eq ▸ h.bound
  shared := hchanged.shared h.shared hminted
  pending := hchanged.self h.bound ▸ hpending

end SelectCore

end ProbeForge
