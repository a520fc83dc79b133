import ProbeForge.Derivation.Rendering
import ProbeForge.Proofs.Derivation.Expansion

/-!
# Descent

Which nodes are below another one, and which of them belong to its block.
-/

namespace ProbeForge

theorem forall₂_mem_left {α β : Type} {R : α → β → Prop} {l : List α} {l' : List β}
    (h : List.Forall₂ R l l') {a : α} (ha : a ∈ l) : ∃ b ∈ l', R a b := by
  induction h with
  | nil => cases ha
  | cons hab _ ih =>
    rcases List.mem_cons.mp ha with rfl | ha
    · exact ⟨_, List.mem_cons_self, hab⟩
    · obtain ⟨b, hb, hR⟩ := ih ha
      exact ⟨b, List.mem_cons_of_mem _ hb, hR⟩

theorem forall₂_split {α β : Type} {R : α → β → Prop} {l : List α} {l₁ l₂ : List β} {b : β}
    (h : List.Forall₂ R l (l₁ ++ b :: l₂)) :
    ∃ k₁ a k₂, l = k₁ ++ a :: k₂ ∧ List.Forall₂ R k₁ l₁ ∧ R a b := by
  induction l₁ generalizing l with
  | nil =>
    obtain ⟨a, k, hab, -, rfl⟩ := List.forall₂_cons_right_iff.mp h
    exact ⟨[], a, k, rfl, .nil, hab⟩
  | cons b' l₁ ih =>
    obtain ⟨a', k, hab', hk, rfl⟩ := List.forall₂_cons_right_iff.mp h
    obtain ⟨k₁, a, k₂, rfl, hk₁, hab⟩ := ih hk
    exact ⟨a' :: k₁, a, k₂, rfl, .cons hab' hk₁, hab⟩

namespace Tree

variable {g : Grammar} {t : Tree} {pending : List Nat} {i j c d : Nat} {n m : Node}

/-! ### Children -/

theorem Derives.child (ht : t.Derives g pending) (hn : t.nodes[i]? = some n)
    (hc : c ∈ n.children) :
    n.isExpanded = true ∧ i < c ∧ ∃ m, t.nodes[c]? = some m ∧ m.parent = some (i : Int) := by
  have hexp := ht.expanded_of_mem hn hc
  obtain ⟨entry, -, hfollows⟩ := ht.follows i n hn hexp
  obtain ⟨s, -, m, hm, -, hparent⟩ := forall₂_mem_left hfollows.children hc
  exact ⟨hexp, hfollows.later c hc, m, hm, hparent⟩

/-- A node is the child of one node at most. -/
theorem Derives.parent_unique (ht : t.Derives g pending) (hn : t.nodes[i]? = some n)
    (hm : t.nodes[j]? = some m) (hc : c ∈ n.children) (hc' : c ∈ m.children) : i = j := by
  obtain ⟨-, -, o, ho, hparent⟩ := ht.child hn hc
  obtain ⟨-, -, o', ho', hparent'⟩ := ht.child hm hc'
  cases ho.symm.trans ho'
  exact Int.ofNat.inj (Option.some.inj (hparent.symm.trans hparent'))

/-! ### Paths -/

/-- The node `j` is `d` levels below `i`. -/
inductive Path (t : Tree) (i : Nat) : Nat → Nat → Prop where
  | here : Path t i 0 i
  | child {d j c : Nat} {n : Node} (above : Path t i d j) (found : t.nodes[j]? = some n)
      (mem : c ∈ n.children) : Path t i (d + 1) c

theorem Path.cons (hn : t.nodes[i]? = some n) (hc : c ∈ n.children) (h : t.Path c d j) :
    t.Path i (d + 1) j := by
  induction h with
  | here => exact .child .here hn hc
  | child above found mem ih => exact .child ih found mem

theorem Path.uncons (h : t.Path i (d + 1) j) :
    ∃ n c, t.nodes[i]? = some n ∧ c ∈ n.children ∧ t.Path c d j := by
  generalize he : d + 1 = e at h
  induction h generalizing d with
  | here => cases he
  | @child e k c n above found mem ih =>
    cases he
    cases e with
    | zero =>
      cases above
      exact ⟨n, c, found, mem, .here⟩
    | succ e =>
      obtain ⟨o, b, ho, hb, hpath⟩ := ih rfl
      exact ⟨o, b, ho, hb, .child hpath found mem⟩

theorem Path.le (ht : t.Derives g pending) (h : t.Path i d j) : i + d ≤ j := by
  induction h with
  | here => exact Nat.le_refl _
  | child above found mem ih =>
    obtain ⟨-, hlt, -⟩ := ht.child found mem
    omega

theorem Path.lt_size (ht : t.Derives g pending) (hi : i < t.size) (h : t.Path i d j) :
    j < t.size := by
  cases h with
  | here => exact hi
  | child above found mem =>
    obtain ⟨-, -, m, hm, -⟩ := ht.child found mem
    exact Tree.lt_size hm

/-- Every node is below the root. -/
theorem Derives.path_root (ht : t.Derives g pending) (hn : t.nodes[i]? = some n) :
    ∃ d, t.Path 0 d i := by
  induction i using Nat.strongRecOn generalizing n with
  | ind i ih =>
    rcases ht.parent i n hn with rfl | ⟨p, m, -, hm, hmem⟩
    · exact ⟨0, .here⟩
    · obtain ⟨-, hlt, -⟩ := ht.child hm hmem
      obtain ⟨d, hpath⟩ := ih p hlt hm
      exact ⟨d + 1, .child hpath hm hmem⟩

/-- Of two nodes above the same one, one is above the other. -/
theorem Path.comparable (ht : t.Derives g pending) {e : Nat} (h : t.Path i d j)
    (h' : t.Path c e j) : (∃ k, t.Path i k c) ∨ ∃ k, t.Path c k i := by
  induction h generalizing e with
  | here => exact .inr ⟨e, h'⟩
  | @child d j b n above found mem ih =>
    cases h' with
    | here => exact .inl ⟨_, .child above found mem⟩
    | child above' found' mem' =>
      cases ht.parent_unique found found' mem mem'
      exact ih above'

/-- No node is below two children of one node. -/
theorem Path.sibling_unique (ht : t.Derives g pending) (hn : t.nodes[i]? = some n)
    {b e : Nat} (hb : b ∈ n.children) (hc : c ∈ n.children) (h : t.Path b d j)
    (h' : t.Path c e j) : b = c := by
  -- a path from one of the children to another one would pass their parent again
  have hsame : ∀ {a k c : Nat}, a ∈ n.children → c ∈ n.children → t.Path a k c → a = c := by
    intro a k c ha hc hpath
    cases hpath with
    | here => rfl
    | child above found mem =>
      cases ht.parent_unique found hn mem hc
      have hle := above.le ht
      obtain ⟨-, hlt, -⟩ := ht.child hn ha
      omega
  rcases h.comparable ht h' with ⟨k, hpath⟩ | ⟨k, hpath⟩
  · exact hsame hb hc hpath
  · exact (hsame hc hb hpath).symm

theorem mem_walk (ht : t.Derives g pending) {k : Nat} (hi : i < t.size) :
    (d, j) ∈ t.walk i k ↔ ∃ e, d = k + e ∧ t.Path i e j := by
  -- children stand behind their parent, so the induction is on the nodes behind it
  induction hsize : t.size - i using Nat.strongRecOn generalizing i k with
  | ind size ih =>
    obtain ⟨n, hn⟩ : ∃ n, t.nodes[i]? = some n := ⟨_, Array.getElem?_eq_getElem hi⟩
    have hchildren : t.childrenOf i = n.children := by simp [childrenOf, hn]
    rw [walk, if_pos hi, hchildren, List.mem_cons, List.mem_flatMap]
    constructor
    · rintro (hhead | ⟨c, hc, hmem⟩)
      · cases hhead
        exact ⟨0, rfl, .here⟩
      · obtain ⟨-, hlt, m, hm, -⟩ := ht.child hn hc
        have hsmall := lt_size hm
        rw [if_pos ⟨hlt, hsmall⟩] at hmem
        obtain ⟨e, rfl, hpath⟩ := (ih (t.size - c) (by omega) hsmall rfl).mp hmem
        exact ⟨e + 1, by omega, hpath.cons hn hc⟩
    · rintro ⟨e, rfl, hpath⟩
      cases e with
      | zero =>
        cases hpath
        exact .inl rfl
      | succ e =>
        obtain ⟨n', c, hn', hc, hpath⟩ := hpath.uncons
        cases hn.symm.trans hn'
        obtain ⟨-, hlt, m, hm, -⟩ := ht.child hn hc
        have hsmall := lt_size hm
        refine .inr ⟨c, hc, ?_⟩
        rw [if_pos ⟨hlt, hsmall⟩]
        exact (ih (t.size - c) (by omega) hsmall rfl).mpr ⟨e, by omega, hpath⟩

/-! ### Blocks -/

/-- The block of the segment is opened at `i` or below. -/
def Opens (t : Tree) (i : Nat) (id : SegmentId) : Prop :=
  ∃ d j n, t.Path i d j ∧ t.nodes[j]? = some n ∧ n.segment = some id

/-- A part of the tree opens a block if there is one in it. -/
theorem opensBlock_iff (ht : t.Derives g pending) (hi : i < t.size) :
    Rendering.opensBlock t i = true ↔ ∃ id, t.Opens i id := by
  unfold Rendering.opensBlock
  rw [List.any_eq_true]
  constructor
  · rintro ⟨⟨d, j⟩, hmem, hsome⟩
    obtain ⟨e, -, hpath⟩ := (mem_walk ht hi).mp hmem
    obtain ⟨id, hid⟩ := Option.isSome_iff_exists.mp hsome
    obtain ⟨n, hn, hsegment⟩ := Option.bind_eq_some_iff.mp hid
    exact ⟨id, e, j, n, hpath, hn, hsegment⟩
  · rintro ⟨id, d, j, n, hpath, hn, hsegment⟩
    exact ⟨(d, j), (mem_walk ht hi).mpr ⟨d, by omega, hpath⟩, by simp [hn, hsegment]⟩

theorem Opens.above {id : SegmentId} (hn : t.nodes[i]? = some n) (hc : c ∈ n.children)
    (h : t.Opens c id) : t.Opens i id := by
  obtain ⟨d, j, m, hpath, hm, hsegment⟩ := h
  exact ⟨d + 1, j, m, hpath.cons hn hc, hm, hsegment⟩

/-- The node `j` is `i` or below it in the same block. -/
inductive Under (t : Tree) (i : Nat) : Nat → Prop where
  | here : Under t i i
  | child {j c : Nat} {n : Node} (above : Under t i j) (found : t.nodes[j]? = some n)
      (same : n.segment = none) (mem : c ∈ n.children) : Under t i c

theorem Under.cons (hn : t.nodes[i]? = some n) (hsegment : n.segment = none)
    (hc : c ∈ n.children) (h : t.Under c j) : t.Under i j := by
  induction h with
  | here => exact .child .here hn hsegment hc
  | child above found same mem ih => exact .child ih found same mem

theorem Under.uncons (h : t.Under i j) :
    j = i ∨ ∃ n c, t.nodes[i]? = some n ∧ c ∈ n.children ∧ t.Under c j := by
  induction h with
  | here => exact .inl rfl
  | child above found same mem ih =>
    rcases ih with rfl | ⟨m, b, hm, hb, hunder⟩
    · exact .inr ⟨_, _, found, mem, .here⟩
    · exact .inr ⟨m, b, hm, hb, .child hunder found same mem⟩

theorem Under.path (h : t.Under i j) : ∃ d, t.Path i d j := by
  induction h with
  | here => exact ⟨0, .here⟩
  | child above found same mem ih =>
    obtain ⟨d, hpath⟩ := ih
    exact ⟨d + 1, .child hpath found mem⟩

/-- The node `j` belongs to the block that is opened at `b`. -/
def Inside (t : Tree) (b j : Nat) : Prop :=
  ∃ n c, t.nodes[b]? = some n ∧ c ∈ n.children ∧ t.Under c j

theorem Inside.child {b : Nat} (h : t.Inside b j) (hn : t.nodes[j]? = some n)
    (hsegment : n.segment = none) (hc : c ∈ n.children) : t.Inside b c := by
  obtain ⟨m, k, hm, hk, hunder⟩ := h
  exact ⟨m, k, hm, hk, .child hunder hn hsegment hc⟩

theorem Inside.lt (ht : t.Derives g pending) {b : Nat} (h : t.Inside b j) : b < j := by
  obtain ⟨m, c, hm, hc, hunder⟩ := h
  obtain ⟨d, hpath⟩ := hunder.path
  obtain ⟨-, hlt, -⟩ := ht.child hm hc
  have hle := hpath.le ht
  omega

end Tree

end ProbeForge
