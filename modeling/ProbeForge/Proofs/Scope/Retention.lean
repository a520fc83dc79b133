import ProbeForge.Proofs.Derivation.Leftmost
import ProbeForge.Proofs.Scope.Naming

/-!
# Kept sources

Registering a source enters it under a key, and giving it an alias moves it to a new one. Another
source is lost if that key is taken, which only an object with a name like a minted one or like that
of a block can bring about.
-/

namespace ProbeForge

/-! ### Tables -/

section Tables

variable {before after sources : OrderedMap String SourceEntry} {key old new : String}
  {entry : SourceEntry}

/-- One entry more, under `key`, and all others as they were. -/
structure Gains (before after : OrderedMap String SourceEntry) (key : String) : Prop where
  size : after.size = before.size + 1
  added : after.contains key = true
  kept : ∀ k e, before.find? k = some e → after.find? k = some e

/-- The entry of `old` is found under `new`, and all others are as they were. -/
structure Rekeys (before after : OrderedMap String SourceEntry) (old new : String) : Prop where
  size : after.size = before.size
  moved : ∀ e, before.find? old = some e → after.find? new = some { e with aliasName := new }
  gone : new ≠ old → after.find? old = none
  kept : ∀ k e, k ≠ old → before.find? k = some e → after.find? k = some e

theorem gains_insert_iff :
    Gains sources (sources.insert key entry) key ↔ sources.contains key = false where
  mp h := OrderedMap.size_insert_eq_iff.mp h.size
  mpr h := ⟨OrderedMap.size_insert_eq_iff.mpr h, OrderedMap.contains_insert.mpr (.inl rfl),
    fun _ _ => OrderedMap.find?_insert_of_not_contains h⟩

theorem rekeys_iff (hdistinct : sources.Distinct) (hfind : sources.find? old = some entry)
    (hne : new ≠ old) :
    Rekeys sources ((sources.erase old).insert new { entry with aliasName := new }) old new ↔
      sources.contains new = false := by
  have hold : sources.contains old = true :=
    OrderedMap.contains_of_mem (OrderedMap.mem_of_find? hfind)
  have hcontains : (sources.erase old).contains new = sources.contains new := by
    rw [OrderedMap.contains, OrderedMap.find?_erase, if_neg hne.symm, OrderedMap.contains]
  rw [← hcontains]
  constructor
  · -- as many sources as before, so none was written over
    intro h
    rw [← OrderedMap.size_insert_eq_iff, h.size, hdistinct.size_erase hold]
  · intro hfree
    constructor
    · rw [OrderedMap.size_insert_eq_iff.mpr hfree, hdistinct.size_erase hold]
    · intro e he
      cases hfind.symm.trans he
      exact OrderedMap.find?_insert_self
    · intro _
      rw [OrderedMap.find?_insert, if_neg hne, OrderedMap.find?_erase, if_pos rfl]
    · intro k e hk he
      have hkept : (sources.erase old).find? k = some e := by
        rw [OrderedMap.find?_erase, if_neg hk.symm, he]
      exact OrderedMap.find?_insert_of_not_contains hfree hkept

theorem rekeys_self (hown : Owned sources) : Rekeys sources sources old old where
  size := rfl
  moved e he := by
    rw [he]
    cases hown old e he
    rfl
  gone h := absurd rfl h
  kept _ _ _ h := h

theorem rekeys_absent (h : sources.find? old = none) : Rekeys sources sources old new where
  size := rfl
  moved e he := by cases h.symm.trans he
  gone _ := h
  kept _ _ _ h := h

end Tables

namespace Scope

variable {ρ : Type} {id : SegmentId} {s s' : Scope ρ} {f : Segment → Segment}

/-! ### Calls -/

/-- The calls that register sources and give them aliases, on any segment. -/
inductive Registration where
  | push
  | pop
  | enter (id : SegmentId)
  | physical (id : SegmentId) (kind : SourceKind)
  | aliasing (id : SegmentId) (key : String)

namespace Registration

def call : Registration → Call
  | push => .push
  | pop => .pop
  | enter id => .enter id
  | physical id kind => .on id (.addPhysical kind)
  | aliasing id key => .on id (.addSourceAlias key)

variable [RandomSource ρ]

/-- The scope after calls on an empty catalog. -/
def scopeOf (u : Universe) (source : ρ) (calls : List Registration) : Scope ρ :=
  (history u source (calls.map call)).scope

/-- The scope after one more call. -/
def next (u : Universe) (s : Scope ρ) : Registration → Scope ρ
  | push => (Scope.push s).2
  | pop => after Scope.pop s
  | enter id => (Scope.enter id s).2
  | physical id kind => (addPhysical u id kind s).2
  | aliasing id key => (addSourceAlias id key s).2

/-- The segments that a call is about exist. -/
def Known (s : Scope ρ) (r : Registration) : Prop :=
  ∀ id ∈ r.call.segments, id < s.catalog.segments.size

theorem scope_next {u : Universe} {r : Registration} {record : Record ρ}
    (hknown : r.Known record.scope) : (record.next u r.call).scope = r.next u record.scope := by
  have hall : r.call.segments.all (· < record.scope.catalog.segments.size) = true :=
    List.all_eq_true.mpr fun id hid => decide_eq_true (hknown id hid)
  unfold Record.next
  rw [if_pos hall]
  cases r with
  | pop =>
    unfold next after
    dsimp only [call, Call.operation, silently]
    cases hpop : Scope.pop record.scope <;> simp [Functor.map, EStateM.map, hpop]
  | push | enter | physical | aliasing => rfl

/-- What every call preserves holds after all calls. -/
theorem scopeOf_induction {P : Scope ρ → Prop} {u : Universe} {source : ρ}
    {calls : List Registration} (start : P ⟨.empty, source⟩)
    (step : ∀ s r, Known s r → P s → P (next u s r)) : P (scopeOf u source calls) := by
  refine List.foldlRecOn (motive := fun record : Record ρ => P record.scope) _ _ start ?_
  intro record hrecord c hc
  obtain ⟨r, -, rfl⟩ := List.mem_map.mp hc
  by_cases hknown : r.Known record.scope
  · rw [scope_next hknown]
    exact step _ _ hknown hrecord
  · -- a call that is not taken leaves the record as it is
    have hnot : ¬ r.call.segments.all (· < record.scope.catalog.segments.size) = true :=
      fun hall => hknown fun id hid => of_decide_eq_true (List.all_eq_true.mp hall id hid)
    unfold Record.next
    rwa [if_neg hnot]

theorem scopeOf_concat {u : Universe} {source : ρ} {calls : List Registration} {r : Registration}
    (hknown : r.Known (scopeOf u source calls)) :
    scopeOf u source (calls ++ [r]) = r.next u (scopeOf u source calls) := by
  rw [scopeOf, history, List.map_append, List.foldl_append]
  exact scope_next hknown

end Registration

/-! ### What a call keeps -/

/-- In all other segments the sources are as they were. -/
def Elsewhere (ids : List SegmentId) (s s' : Scope ρ) : Prop :=
  ∀ k, k ∉ ids → s'.sources k = s.sources k

theorem Changed.elsewhere (h : Changed id f s s') : Elsewhere [id] s s' := fun k hk => by
  rw [sources, h.other (by simpa using hk)]
  rfl

namespace Registration

variable [RandomSource ρ]

/-- The call loses no source and changes none but the one it is about. A new source goes by the alias
that the call answers. -/
def Keeps (u : Universe) (s s' : Scope ρ) : Registration → Prop
  | push =>
    (∀ parent ∈ s.catalog.stack.head?,
      Gains (s.sources parent) (s'.sources parent) s!"QB{s.catalog.opened + 1}" ∧
        Gains ∅ (s'.sources s.catalog.segments.size) (s.catalog.segment parent).name) ∧
      Elsewhere (s.catalog.segments.size :: s.catalog.stack.head?.toList) s s'
  | physical id kind =>
    Gains (s.sources id) (s'.sources id) (addPhysical u id kind s).1.aliasName ∧ Elsewhere [id] s s'
  | aliasing id key =>
    Rekeys (s.sources id) (s'.sources id) key (addSourceAlias id key s).1.aliasName ∧
      Elsewhere [id] s s'
  | pop | enter _ => Elsewhere [] s s'

/-- The key that the call gives to a source is that of another one. -/
def Collides (u : Universe) (s : Scope ρ) : Registration → String → Prop
  | push, key => key = s!"QB{s.catalog.opened + 1}" ∧
      ∃ parent ∈ s.catalog.stack.head?, (s.sources parent).contains key = true
  | physical id kind, key =>
    key = (addPhysical u id kind s).1.aliasName ∧ (s.sources id).contains key = true
  | aliasing id old, key => key = (addSourceAlias id old s).1.aliasName ∧ key ≠ old ∧
      (s.sources id).contains old = true ∧ (s.sources id).contains key = true
  | pop, _ | enter _, _ => False

variable {u : Universe}

theorem next_sound {r : Registration} (hs : s.catalog.Sound) (hknown : r.Known s) :
    (r.next u s).catalog.Sound := by
  cases r with
  | push => exact push_sound hs
  | pop => exact (pop_moves s).sound hs
  | enter id => exact (enter_moves (hknown id (List.mem_singleton_self id))).sound hs
  | physical id kind => exact ((amends_referring id).addPhysical u kind s hs.shared).sound hs
  | aliasing id key => exact (addSourceAlias_amends id key s hs.shared).sound hs

theorem next_named {r : Registration} (hs : s.catalog.Named u) (hsound : s.catalog.Sound) :
    (r.next u s).catalog.Named u := by
  cases r with
  | push => exact push_named hs hsound
  | pop =>
    unfold next after Scope.pop
    cases s.catalog.stack <;> exact ⟨hs.sources, hs.blocks⟩
  | enter id => exact ⟨hs.sources, hs.blocks⟩
  | physical id kind => exact addPhysical_named hs hsound.shared id kind
  | aliasing id key => exact addSourceAlias_named hs hsound.shared id key

theorem sound_named (u : Universe) (source : ρ) (calls : List Registration) :
    (scopeOf u source calls).catalog.Sound ∧ (scopeOf u source calls).catalog.Named u :=
  scopeOf_induction (P := fun s => s.catalog.Sound ∧ s.catalog.Named u)
    ⟨Catalog.sound_empty, Catalog.named_empty u⟩
    fun _ _ hknown ⟨hsound, hnamed⟩ => ⟨next_sound hsound hknown, next_named hnamed hsound⟩

/-! ### Losses -/

theorem keeps_push_iff (hs : s.catalog.Sound) :
    Keeps u s (push.next u s) push ↔ ∀ key, ¬ push.Collides u s key := by
  dsimp only [Keeps, Collides, next]
  cases hstack : s.catalog.stack with
  | nil =>
    refine iff_of_true ⟨fun parent hparent => (nomatch hparent), fun k hk => ?_⟩ ?_
    · rw [sources, segment_push_root hstack, if_neg (by simpa using hk)]
      rfl
    · rintro key ⟨-, parent, hparent, -⟩
      cases hparent
  | cons parent rest =>
    have hparent := hs.stack parent (hstack ▸ List.mem_cons_self)
    have henclosed : (Scope.push s).2.sources parent = (s.sources parent).insert
        s!"QB{s.catalog.opened + 1}" ⟨s!"QB{s.catalog.opened + 1}",
          s!"QB{s.catalog.opened + 1}", .child, none, .exportsOf s.catalog.segments.size⟩ := by
      rw [sources, segment_push_parent hstack hparent]
      rfl
    have hnested : Gains ∅ ((Scope.push s).2.sources s.catalog.segments.size)
        (s.catalog.segment parent).name := by
      rw [sources, segment_push_new hstack]
      exact gains_insert_iff.mpr rfl
    have helsewhere : Elsewhere [s.catalog.segments.size, parent] s (Scope.push s).2 :=
      fun k hk => by
        rw [List.mem_cons, List.mem_singleton, not_or] at hk
        rw [sources, segment_push_other hstack hk.1 hk.2]
        rfl
    -- the new block is empty before, so only the block around it can lose a source
    constructor
    · rintro ⟨hgains, -⟩ key ⟨rfl, _, hmem, htaken⟩
      cases hmem
      have hgain := (hgains parent rfl).1
      rw [henclosed, gains_insert_iff] at hgain
      cases hgain.symm.trans htaken
    · intro hfree
      refine ⟨fun _ hmem => ?_, helsewhere⟩
      cases hmem
      refine ⟨?_, hnested⟩
      rw [henclosed, gains_insert_iff, Bool.eq_false_iff]
      exact fun htaken => hfree _ ⟨rfl, parent, rfl, htaken⟩

theorem keeps_physical_iff (hs : s.catalog.Sound) {kind : SourceKind}
    (hid : id < s.catalog.segments.size) :
    Keeps u s ((physical id kind).next u s) (physical id kind) ↔
      ∀ key, ¬ (physical id kind).Collides u s key := by
  obtain ⟨entry, hdescribes, hchanged⟩ : Registers id kind s (addPhysical u id kind) :=
    registers_physical hs.shared u kind
  have hput : (addPhysical u id kind s).2.sources id = (s.sources id).insert
      (addPhysical u id kind s).1.aliasName entry := by
    rw [sources, hchanged.self hid, hdescribes.alias_eq]
    rfl
  dsimp only [Keeps, Collides, next]
  rw [hput, gains_insert_iff, Bool.eq_false_iff]
  constructor
  · rintro ⟨hfree, -⟩ key ⟨rfl, htaken⟩
    exact hfree htaken
  · exact fun hfree => ⟨fun htaken => hfree _ ⟨rfl, htaken⟩, hchanged.elsewhere⟩

theorem keeps_aliasing_iff (hs : s.catalog.Sound) {old : String}
    (hid : id < s.catalog.segments.size) :
    Keeps u s ((aliasing id old).next u s) (aliasing id old) ↔
      ∀ key, ¬ (aliasing id old).Collides u s key := by
  dsimp only [Keeps, Collides, next]
  cases hfind : (s.sources id).find? old with
  | none =>
    have hkept := addSourceAlias_absent hs.shared hfind
    have hsame : (addSourceAlias id old s).2.sources id = s.sources id :=
      congrArg (·.sources) hkept.segment_eq
    rw [hsame]
    refine iff_of_true ⟨rekeys_absent hfind, Changed.elsewhere hkept⟩ ?_
    rintro key ⟨-, -, hold, -⟩
    rw [OrderedMap.contains, hfind] at hold
    cases hold
  | some entry =>
    -- only a source that goes by its own name moves to a new key
    by_cases hown : entry.aliasName = entry.name
    · obtain ⟨hname, hchanged⟩ := addSourceAlias_own hs.shared hfind hown
      have hne := numbered_ne_stem old (s.catalog.minted + 1)
      have hdistinct : (s.sources id).Distinct := (hs.tables id).sources
      have hmoved : (addSourceAlias id old s).2.sources id = ((s.sources id).erase old).insert
          s!"{old}_{s.catalog.minted + 1}"
          { entry with aliasName := s!"{old}_{s.catalog.minted + 1}" } := by
        rw [sources, hchanged.self hid]
        rfl
      have hold : (s.sources id).contains old = true :=
        OrderedMap.contains_of_mem (OrderedMap.mem_of_find? hfind)
      rw [hmoved, hname, rekeys_iff hdistinct hfind hne, Bool.eq_false_iff]
      constructor
      · rintro ⟨hfree, -⟩ key ⟨rfl, -, -, htaken⟩
        exact hfree htaken
      · exact fun hfree => ⟨fun htaken => hfree _ ⟨rfl, hne, hold, htaken⟩, hchanged.elsewhere⟩
    · obtain ⟨hname, hsame⟩ := addSourceAlias_given hfind hown
      have halias : entry.aliasName = old := (hs.tables id).owned old entry hfind
      rw [hsame, hname, halias]
      exact iff_of_true ⟨rekeys_self (hs.tables id).owned, fun _ _ => rfl⟩
        fun key h => h.2.1 h.1

/-- A key that another source has is the name of an object that looks made up. -/
theorem Collides.madeUp {r : Registration} {key : String} (h : r.Collides u s key)
    (hs : s.catalog.Sound) (hnamed : s.catalog.Named u) : u.Names key ∧ MadeUp key := by
  cases r with
  | push =>
    obtain ⟨rfl, parent, -, htaken⟩ := h
    exact ⟨(hnamed.sources parent _ htaken).names_of_block (Nat.lt_succ_self _), .inl ⟨_, rfl⟩⟩
  | physical id kind =>
    obtain ⟨rfl, htaken⟩ := h
    exact (addPhysical_fresh hs.shared u id kind).names_of_taken hnamed htaken
  | aliasing id old =>
    obtain ⟨rfl, hne, hold, htaken⟩ := h
    obtain ⟨entry, hfind⟩ := Option.isSome_iff_exists.mp hold
    by_cases hown : entry.aliasName = entry.name
    · rw [(addSourceAlias_own hs.shared hfind hown).1] at htaken ⊢
      exact ⟨(hnamed.sources id _ htaken).names_of_numbered (Nat.lt_succ_self _),
        .inr ⟨_, _, rfl⟩⟩
    · -- a source that already has an alias keeps it
      have halias : entry.aliasName = old := (hs.tables id).owned old entry hfind
      rw [(addSourceAlias_given hfind hown).1] at hne
      exact absurd halias hne
  | pop => exact h.elim
  | enter => exact h.elim

/-- After any calls, one more call loses no source exactly when the key it gives is not that of
another one, and only an object whose name looks made up can have such a key. -/
theorem sources_kept_iff (u : Universe) (source : ρ) (earlier : List Registration)
    (r : Registration) (hknown : r.Known (scopeOf u source earlier)) :
    (r.Keeps u (scopeOf u source earlier) (scopeOf u source (earlier ++ [r])) ↔
      ∀ key, ¬ r.Collides u (scopeOf u source earlier) key) ∧
    ∀ key, r.Collides u (scopeOf u source earlier) key → u.Names key ∧ MadeUp key := by
  obtain ⟨hsound, hnamed⟩ := sound_named u source earlier
  refine ⟨?_, fun key h => h.madeUp hsound hnamed⟩
  rw [scopeOf_concat hknown]
  cases r with
  | push => exact keeps_push_iff hsound
  | pop =>
    refine iff_of_true (fun k _ => ?_) fun _ h => h
    unfold next after Scope.pop
    cases (scopeOf u source earlier).catalog.stack <;> rfl
  | enter id => exact iff_of_true (fun _ _ => rfl) fun _ h => h
  | physical id kind => exact keeps_physical_iff hsound (hknown id (List.mem_singleton_self id))
  | aliasing id old => exact keeps_aliasing_iff hsound (hknown id (List.mem_singleton_self id))

/-- A table whose name looks minted from that of a view. -/
def lookalikes : Universe :=
  (Universe.ofObjects [.named "t_1" .table "s" ["a"], .named "t" .view "s" ["a"]]).toOption.getD
    .empty

def alike : List Registration := [push, physical 0 .table, physical 0 .view]

def drawn : Growth.Draws := ⟨[]⟩

theorem sources_kept_view :
    (physical 0 .view).Known (scopeOf lookalikes drawn [push, physical 0 .table]) ∧
    (physical 0 .view).Keeps lookalikes (scopeOf lookalikes drawn [push, physical 0 .table])
      (scopeOf lookalikes drawn ([push, physical 0 .table] ++ [physical 0 .view])) := by
  have hknown : (physical 0 .view).Known (scopeOf lookalikes drawn [push, physical 0 .table]) := by
    unfold Known
    decide +kernel
  refine ⟨hknown, (sources_kept_iff lookalikes drawn _ _ hknown).1.mpr ?_⟩
  rintro key ⟨rfl, h⟩
  revert h
  decide +kernel

/-- The view is given the name of the table, which is lost. -/
theorem table_not_kept :
    ((scopeOf lookalikes drawn alike).sources 0).keys = ["t_1", "t"] ∧
    ((scopeOf lookalikes drawn (alike ++ [aliasing 0 "t"])).sources 0).keys = ["t_1"] ∧
    ¬ (aliasing 0 "t").Keeps lookalikes (scopeOf lookalikes drawn alike)
      (scopeOf lookalikes drawn (alike ++ [aliasing 0 "t"])) := by
  refine ⟨by decide +kernel, by decide +kernel, ?_⟩
  rintro ⟨hrekeys, -⟩
  have hsize := hrekeys.size
  revert hsize
  decide +kernel

end Registration

end Scope

end ProbeForge
