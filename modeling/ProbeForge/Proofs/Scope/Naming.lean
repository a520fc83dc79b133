import ProbeForge.Proofs.Numbered
import ProbeForge.Proofs.Scope.Soundness

/-!
# Names of sources

A source is registered under the name of an object, of a block or under one that is minted. Minted
names and names of blocks are never used twice, so only an object can have such a name beforehand.
-/

namespace ProbeForge

/-! ### Names -/

/-- What a source can be called where `minted` names were minted and `opened` blocks opened. -/
inductive Called (u : Universe) (minted opened : Nat) (name : String) : Prop where
  | object {kind : SourceKind} {o : SourceObject} (mem : o ∈ u.objectsOf kind)
      (eq : name = o.nameText)
  | minted {stem : String} {n : Nat} (le : n ≤ minted) (eq : name = s!"{stem}_{n}")
  | block {n : Nat} (le : n ≤ opened) (eq : name = s!"QB{n}")

/-- The name looks like that of a block or like one that was minted. -/
def MadeUp (name : String) : Prop :=
  (∃ n : Nat, name = s!"QB{n}") ∨ ∃ (stem : String) (n : Nat), name = s!"{stem}_{n}"

/-- An object of the universe has the name. -/
def Universe.Names (u : Universe) (name : String) : Prop :=
  ∃ kind, ∃ o ∈ u.objectsOf kind, o.nameText = name

section Called

variable {u : Universe} {m m' opened opened' n : Nat} {name stem : String}

theorem Called.mono (h : Called u m opened name) (hm : m ≤ m') (hopened : opened ≤ opened') :
    Called u m' opened' name := by
  cases h with
  | object mem eq => exact .object mem eq
  | minted le eq => exact .minted (Nat.le_trans le hm) eq
  | block le eq => exact .block (Nat.le_trans le hopened) eq

/-- Only an object can have a name that is minted next. -/
theorem Called.names_of_numbered (h : Called u m opened s!"{stem}_{n}") (hn : m < n) :
    u.Names s!"{stem}_{n}" := by
  cases h with
  | object mem eq => exact ⟨_, _, mem, eq.symm⟩
  | minted le eq =>
    obtain ⟨-, rfl⟩ := numbered_inj eq
    omega
  | block _ eq => exact absurd eq (numbered_ne_blockName _ _ _)

/-- Only an object can have the name of the block that is opened next. -/
theorem Called.names_of_block (h : Called u m opened s!"QB{n}") (hn : opened < n) :
    u.Names s!"QB{n}" := by
  cases h with
  | object mem eq => exact ⟨_, _, mem, eq.symm⟩
  | minted _ eq => exact absurd eq.symm (numbered_ne_blockName _ _ _)
  | block le eq =>
    cases blockName_inj eq
    omega

end Called

/-- Every source has a name that sources can have, and every segment is a numbered block. -/
structure Catalog.Named (u : Universe) (c : Catalog) : Prop where
  sources : ∀ id key, (c.segment id).sources.contains key = true → Called u c.minted c.opened key
  blocks : ∀ id < c.segments.size, ∃ n ≤ c.opened, (c.segment id).name = s!"QB{n}"

theorem Catalog.named_empty (u : Universe) : Catalog.empty.Named u where
  sources _ _ h := nomatch h
  blocks _ h := nomatch h

namespace Scope

variable {ρ : Type} {id : SegmentId} {s s' : Scope ρ} {f : Segment → Segment}

def sources (s : Scope ρ) (id : SegmentId) : OrderedMap String SourceEntry :=
  (s.catalog.segment id).sources

theorem Changed.opened_eq (h : Changed id f s s') : s'.catalog.opened = s.catalog.opened := by
  obtain ⟨minted, source, -, rfl⟩ := h
  rfl

theorem Changed.minted_le (h : Changed id f s s') : s.catalog.minted ≤ s'.catalog.minted := by
  obtain ⟨minted, source, hle, rfl⟩ := h
  exact hle

/-- A change of the sources of one segment keeps all names proper if the new keys are. -/
theorem Changed.named {u : Universe} (h : Changed id f s s') (hs : s.catalog.Named u)
    (hname : ∀ segment, (f segment).name = segment.name)
    (hkeys : ∀ key, (f (s.catalog.segment id)).sources.contains key = true →
      (s.sources id).contains key = true ∨
        Called u s'.catalog.minted s'.catalog.opened key) : s'.catalog.Named u := by
  have hold : ∀ k key, (s.sources k).contains key = true →
      Called u s'.catalog.minted s'.catalog.opened key := fun k key hkey =>
    (hs.sources k key hkey).mono h.minted_le (Nat.le_of_eq h.opened_eq.symm)
  refine ⟨fun k key hkey => ?_, fun k hk => ?_⟩
  · rcases h.segment_cases k with hsame | ⟨rfl, hchanged⟩
    · exact hold k key (by rwa [hsame] at hkey)
    · rw [hchanged] at hkey
      exact (hkeys key hkey).elim (hold k key) fun h => h
  · rw [h.size_eq] at hk
    obtain ⟨n, hn, hblock⟩ := hs.blocks k hk
    refine ⟨n, h.opened_eq ▸ hn, ?_⟩
    rcases h.segment_cases k with hsame | ⟨-, hchanged⟩
    · rw [hsame, hblock]
    · rw [hchanged, hname, hblock]

/-! ### Names of new sources -/

/-- The name is that of an object and is free in the segment, or it was minted meanwhile. -/
def Fresh (u : Universe) (id : SegmentId) (s s' : Scope ρ) (name : String) : Prop :=
  (s.sources id).contains name = false ∧ u.Names name ∨
    ∃ (stem : String) (n : Nat), s.catalog.minted < n ∧ n ≤ s'.catalog.minted ∧
      name = s!"{stem}_{n}"

theorem Fresh.called {u : Universe} {opened : Nat} {name : String} (h : Fresh u id s s' name) :
    Called u s'.catalog.minted opened name := by
  rcases h with ⟨-, kind, o, ho, rfl⟩ | ⟨stem, n, -, hle, rfl⟩
  · exact .object ho rfl
  · exact .minted hle rfl

/-- A name that is minted and taken is that of an object. -/
theorem Fresh.names_of_taken {u : Universe} {name : String} (h : Fresh u id s s' name)
    (hs : s.catalog.Named u) (htaken : (s.sources id).contains name = true) :
    u.Names name ∧ MadeUp name := by
  rcases h with ⟨hfree, -⟩ | ⟨stem, n, hlt, -, rfl⟩
  · cases hfree.symm.trans htaken
  · exact ⟨(hs.sources id _ htaken).names_of_numbered hlt, .inr ⟨stem, n, rfl⟩⟩

theorem addPhysical_fresh [RandomSource ρ] (hs : s.catalog.Shared) (u : Universe)
    (id : SegmentId) (kind : SourceKind) :
    Fresh u id s (addPhysical u id kind s).2 (addPhysical u id kind s).1.aliasName := by
  unfold addPhysical
  rw [bind_run, segmentAt_run]
  dsimp only
  generalize hobjects : (if List.isEmpty _ then _ else _) = available
  cases available with
  | nil =>
    dsimp only
    unfold addPlaceholder
    rw [bind_run, mint_shared hs]
    exact .inr ⟨_, _, Nat.lt_succ_self _, Nat.le_refl _, rfl⟩
  | cons first others =>
    have hmem := chooseFrom_mem first others s
    have hdrawn := chooseFrom_kept id first others s
    dsimp only
    rw [bind_run]
    generalize chooseFrom first others s = drawn at hmem hdrawn ⊢
    obtain ⟨o, s₁⟩ := drawn
    have hobject : o ∈ u.objectsOf kind := by
      rw [← hobjects] at hmem
      split at hmem
      · exact hmem
      · exact List.mem_of_mem_filter hmem
    dsimp only
    -- an object goes by its own name only where that is free
    by_cases htaken : (s.catalog.segment id).sources.contains o.nameText = true
    · rw [if_pos htaken, bind_run, mint_shared (hdrawn.shared hs)]
      exact .inr ⟨_, _, Nat.lt_succ_of_le hdrawn.minted_le, Nat.le_refl _, rfl⟩
    · rw [if_neg htaken]
      exact .inl ⟨Bool.eq_false_iff.mpr htaken, kind, o, hobject, rfl⟩

/-! ### Single calls -/

theorem addSourceAlias_absent {key : String} (hs : s.catalog.Shared)
    (hfind : (s.sources id).find? key = none) : Kept id s (addSourceAlias id key s).2 := by
  unfold addSourceAlias
  rw [bind_run, segmentAt_run]
  dsimp only
  rw [show (s.catalog.segment id).sources.find? key = none from hfind]
  exact mint_kept hs id _

theorem push_opened_eq (s : Scope ρ) : (push s).2.catalog.opened = s.catalog.opened + 1 := by
  obtain ⟨⟨segments, stack, opened, minted⟩, source⟩ := s
  cases stack <;> rfl

variable {u : Universe}

theorem addPhysical_named [RandomSource ρ] (hs : s.catalog.Named u) (hshared : s.catalog.Shared)
    (id : SegmentId) (kind : SourceKind) : (addPhysical u id kind s).2.catalog.Named u := by
  obtain ⟨entry, hdescribes, hchanged⟩ : Registers id kind s (addPhysical u id kind) :=
    registers_physical hshared u kind
  have hfresh := addPhysical_fresh hshared u id kind
  refine hchanged.named hs (fun _ => rfl) fun key hkey => ?_
  rcases OrderedMap.contains_insert.mp hkey with rfl | hold
  · exact .inr (hdescribes.alias_eq ▸ hfresh.called)
  · exact .inl hold

theorem addSourceAlias_named (hs : s.catalog.Named u) (hshared : s.catalog.Shared)
    (id : SegmentId) (key : String) : (addSourceAlias id key s).2.catalog.Named u := by
  cases hfind : (s.sources id).find? key with
  | none =>
    exact (addSourceAlias_absent hshared hfind).named hs (fun _ => rfl) fun _ => .inl
  | some entry =>
    by_cases hown : entry.aliasName = entry.name
    · obtain ⟨-, hchanged⟩ := addSourceAlias_own hshared hfind hown
      have hminted : (addSourceAlias id key s).2.catalog.minted = s.catalog.minted + 1 := by
        unfold addSourceAlias
        rw [bind_run, segmentAt_run]
        dsimp only
        rw [show (s.catalog.segment id).sources.find? key = some entry from hfind]
        dsimp only
        rw [if_pos hown, bind_run, mint_shared hshared]
        rfl
      refine hchanged.named hs (fun _ => rfl) fun name hname => ?_
      rcases OrderedMap.contains_insert.mp hname with rfl | hold
      · exact .inr (.minted (Nat.le_of_eq hminted.symm) rfl)
      · exact .inl (OrderedMap.contains_erase.mp hold).2
    · rw [(addSourceAlias_given hfind hown).2]
      exact hs

/-! ### Opening a block -/

theorem segment_push_root {k : SegmentId} (h : s.catalog.stack = []) :
    (push s).2.catalog.segment k =
      if k = s.catalog.segments.size then .fresh s!"QB{s.catalog.opened + 1}" none none
      else s.catalog.segment k :=
  Catalog.segment_of_push (push_root h)

section Nested

variable {parent : SegmentId} {rest : List SegmentId}

theorem segment_push_parent (h : s.catalog.stack = parent :: rest)
    (hparent : parent < s.catalog.segments.size) :
    (push s).2.catalog.segment parent =
      enclose (nested (s.catalog.segment parent) s!"QB{s.catalog.opened + 1}" parent)
        s.catalog.segments.size (s.catalog.segment parent) :=
  (segment_push_old h (Nat.ne_of_lt hparent)).trans (Catalog.segment_modify_self hparent)

theorem segment_push_other {k : SegmentId} (h : s.catalog.stack = parent :: rest)
    (hnew : k ≠ s.catalog.segments.size) (hk : k ≠ parent) :
    (push s).2.catalog.segment k = s.catalog.segment k :=
  (segment_push_old h hnew).trans (Catalog.segment_modify_of_ne hk)

end Nested

/-- A source of a segment was there before a block is opened, or it goes by the name of the new block
or of the one that it is opened in. -/
theorem contains_push (hsound : s.catalog.Sound) {k : SegmentId} {key : String}
    (h : ((push s).2.sources k).contains key = true) :
    (s.sources k).contains key = true ∨ key = s!"QB{s.catalog.opened + 1}" ∨
      ∃ parent < s.catalog.segments.size, key = (s.catalog.segment parent).name := by
  cases hstack : s.catalog.stack with
  | nil =>
    rw [sources, segment_push_root hstack] at h
    split at h
    · cases h
    · exact .inl h
  | cons parent rest =>
    have hparent := hsound.stack parent (hstack ▸ List.mem_cons_self)
    by_cases hnew : k = s.catalog.segments.size
    · rw [sources, hnew, segment_push_new hstack] at h
      rcases OrderedMap.contains_insert.mp h with rfl | hnone
      · exact .inr (.inr ⟨parent, hparent, rfl⟩)
      · cases hnone
    · by_cases hk : k = parent
      · subst hk
        rw [sources, segment_push_parent hstack hparent] at h
        rcases OrderedMap.contains_insert.mp h with rfl | hold
        · exact .inr (.inl rfl)
        · exact .inl hold
      · rw [sources, segment_push_other hstack hnew hk] at h
        exact .inl h

/-- Only the new block is named when it is opened. -/
theorem name_push (hsound : s.catalog.Sound) {k : SegmentId}
    (hk : k < (push s).2.catalog.segments.size) :
    ((push s).2.catalog.segment k).name = s!"QB{s.catalog.opened + 1}" ∨
      k < s.catalog.segments.size ∧
        ((push s).2.catalog.segment k).name = (s.catalog.segment k).name := by
  rw [push_size] at hk
  by_cases hnew : k = s.catalog.segments.size
  · left
    cases hstack : s.catalog.stack with
    | nil => rw [segment_push_root hstack, if_pos hnew]; rfl
    | cons parent rest => rw [hnew, segment_push_new hstack]; rfl
  · refine .inr ⟨Nat.lt_of_le_of_ne (Nat.le_of_lt_succ hk) hnew, ?_⟩
    cases hstack : s.catalog.stack with
    | nil => rw [segment_push_root hstack, if_neg hnew]
    | cons parent rest =>
      have hparent := hsound.stack parent (hstack ▸ List.mem_cons_self)
      by_cases hkp : k = parent
      · rw [hkp, segment_push_parent hstack hparent]
        rfl
      · rw [segment_push_other hstack hnew hkp]

theorem push_named (hs : s.catalog.Named u) (hsound : s.catalog.Sound) :
    (push s).2.catalog.Named u := by
  have hopened : s.catalog.opened ≤ (push s).2.catalog.opened :=
    push_opened_eq s ▸ Nat.le_succ _
  have hnext : s.catalog.opened + 1 ≤ (push s).2.catalog.opened :=
    Nat.le_of_eq (push_opened_eq s).symm
  constructor
  · intro k key hkey
    rcases contains_push hsound hkey with hold | rfl | ⟨parent, hparent, rfl⟩
    · exact (hs.sources k key hold).mono (Nat.le_of_eq (push_minted s).symm) hopened
    · exact .block hnext rfl
    · obtain ⟨n, hn, hname⟩ := hs.blocks parent hparent
      exact .block (Nat.le_trans hn hopened) hname
  · intro k hk
    rcases name_push hsound hk with hname | ⟨hlt, hname⟩
    · exact ⟨_, hnext, hname⟩
    · obtain ⟨n, hn, hblock⟩ := hs.blocks k hlt
      exact ⟨n, Nat.le_trans hn hopened, hname.trans hblock⟩

end Scope

end ProbeForge
